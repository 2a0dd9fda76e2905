import ArcGraph.Foundation.Bytes

/-!
# Parsers over byte lists

A parser consumes a prefix of its input or fails. That a success reads a prefix
which determines it, whatever follows, is a field of the structure, so every
parser built from the combinators is prefix-free by construction.

Two judgements carry the proofs about decoders. `Reads p c a` says that `p` reads
exactly the bytes `c` as `a`; `Ensures p Q` is a postcondition of the results.
Each has a rule for every combinator.
-/

namespace ArcGraph.Foundation
open List

/-- A byte list of a fixed length. -/
abbrev ByteVec (n : Nat) := { bs : List UInt8 // bs.length = n }

/-- A parser with errors of type `ε`. -/
structure Parser (ε α : Type) where
  run : List UInt8 → Except ε (α × List UInt8)
  consumes : ∀ bytes a rest, run bytes = .ok (a, rest) →
    ∃ c, bytes = c ++ rest ∧ ∀ rest', run (c ++ rest') = .ok (a, rest')

namespace Parser
variable {ε α β : Type} {e : α → Nat → ε} {bytes : List UInt8} {a : α} (p : Parser ε α)

instance : Pure (Parser ε) where
  pure a :=
    { run := fun bytes => .ok (a, bytes)
      consumes := by
        intro bytes b rest h
        cases h
        exact ⟨[], rfl, fun _ => rfl⟩ }

instance : Bind (Parser ε) where
  bind p f :=
    { run := fun bytes =>
        match p.run bytes with
        | .error e => .error e
        | .ok (a, rest) => (f a).run rest
      consumes := by
        intro bytes b rest h
        split at h
        · cases h
        · rename_i a mid hrun
          obtain ⟨c, rfl, hc⟩ := p.consumes _ _ _ hrun
          obtain ⟨d, rfl, hd⟩ := (f a).consumes _ _ _ h
          refine ⟨c ++ d, (append_assoc ..).symm, fun rest' => ?_⟩
          simp only [append_assoc, hc, hd] }

instance : Monad (Parser ε) where

theorem run_bind (f : α → Parser ε β) (bytes : List UInt8) :
    (p >>= f).run bytes =
      match p.run bytes with
      | .error e => .error e
      | .ok (a, rest) => (f a).run rest := rfl

def fail (e : ε) : Parser ε α where
  run _ := .error e
  consumes _ _ _ h := by cases h

/-- A result that reads nothing. -/
def lift (r : Except ε α) : Parser ε α :=
  match r with
  | .ok a => pure a
  | .error e => fail e

/-- Fail with `e` unless `c` holds. -/
def require (c : Bool) (e : ε) : Parser ε Unit := if c then pure () else fail e

/-- The next `n` bytes. -/
def take (n : Nat) (e : ε) : Parser ε (ByteVec n) where
  run bytes :=
    if h : bytes.length < n then .error e
    else .ok (⟨bytes.take n, by rw [length_take]; omega⟩, bytes.drop n)
  consumes := by
    intro bytes a rest h
    split at h
    · cases h
    · rename_i hlen
      cases h
      refine ⟨bytes.take n, (take_append_drop n bytes).symm, fun rest' => ?_⟩
      have hmin : min n bytes.length = n := by omega
      have hfull : ¬ n + rest'.length < n := by omega
      simp [hmin, hfull]

def byte (e : ε) : Parser ε UInt8 where
  run
    | [] => .error e
    | b :: rest => .ok (b, rest)
  consumes := by
    intro bytes a rest h
    split at h
    · cases h
    · cases h
      exact ⟨[a], rfl, fun _ => rfl⟩

/-- A little-endian number of `w` bytes. -/
def uint (w : Nat) (e : ε) : Parser ε Nat := do
  let bs ← take w e
  return leValue bs.val

/-- Run `p 0`, `p 1`, … for `n` results, starting at `i`. -/
def timesFrom (p : Nat → Parser ε α) : Nat → Nat → Parser ε (List α)
  | _, 0 => pure []
  | i, n + 1 => do
      let a ← p i
      let as ← timesFrom p (i + 1) n
      return a :: as

/-- Run a parser `n` times. -/
def times (n : Nat) : Parser ε (List α) := timesFrom (fun _ => p) 0 n

/-- Run a parser on the whole input; `e` is told how many bytes it left. -/
def runAll (e : α → Nat → ε) (bytes : List UInt8) : Except ε α :=
  match p.run bytes with
  | .error err => .error err
  | .ok (a, rest) => if rest.isEmpty then .ok a else .error (e a rest.length)

theorem run_of_runAll {p : Parser ε α} (h : p.runAll e bytes = .ok a) :
    p.run bytes = .ok (a, []) := by
  unfold runAll at h
  split at h
  · cases h
  · rename_i b rest hrun
    split at h
    · rename_i hempty
      cases h
      rw [hrun, isEmpty_iff.mp hempty]
    · cases h

/-! ## Reading -/

/-- `p` reads the bytes `c` as `a`, whatever follows. -/
def Reads (c : List UInt8) (a : α) : Prop :=
  ∀ rest, p.run (c ++ rest) = .ok (a, rest)

namespace Reads

theorem pure (a : α) : Reads (Pure.pure a : Parser ε α) [] a := fun _ => rfl

variable {a : α} {p : Parser ε α} {c d : List UInt8} {f : α → Parser ε β} {b : β} {n : Nat}
  {γ : Type}

/-- What is left to do after a reading step, whether it succeeds or not. -/
theorem run_bind (hp : Reads p c a) (f : α → Parser ε β) (rest : List UInt8) :
    (p >>= f).run (c ++ rest) = (f a).run rest := by
  rw [Parser.run_bind, hp rest]

theorem bind (hp : Reads p c a) (hf : Reads (f a) d b) : Reads (p >>= f) (c ++ d) b := by
  intro rest
  rw [append_assoc, hp.run_bind]
  exact hf rest

/-- A step that reads nothing, such as a check. -/
theorem skip (hp : Reads p [] a) (hf : Reads (f a) d b) : Reads (p >>= f) d b := bind hp hf

/-- The last step that reads something. -/
theorem last (hp : Reads p c a) (hf : Reads (f a) [] b) : Reads (p >>= f) c b := by
  have h := bind hp hf
  rwa [append_nil] at h

theorem map {f : α → β} (hp : Reads p c a) :
    Reads (p >>= fun x => Pure.pure (f x)) c (f a) := last hp (pure _)

theorem take (bs : ByteVec n) (e : ε) : Reads (take n e) bs.val bs := by
  obtain ⟨bs, rfl⟩ := bs
  intro rest
  have hfull : ¬ bs.length + rest.length < bs.length := by omega
  simp [take, hfull]

theorem byte (b : UInt8) (e : ε) : Reads (byte e) [b] b := fun _ => rfl

theorem uint {w : Nat} (h : n < 256 ^ w) (e : ε) : Reads (uint w e) (leBytes w n) n := by
  have hread : Reads (.uint w e) (leBytes w n) (leValue (leBytes w n)) :=
    map (take ⟨leBytes w n, length_leBytes w n⟩ e)
  rwa [leValue_leBytes w n h] at hread

theorem lift {r : Except ε α} (h : r = .ok a) : Reads (lift r) [] a := by
  subst h
  exact pure a

theorem require {c : Bool} (h : c = true) (e : ε) : Reads (require c e) [] () := by
  subst h
  exact pure ()

theorem timesFrom {p : Nat → Parser ε α} {encode : γ → List UInt8} {value : γ → α}
    {as : List γ} {i : Nat}
    (h : ∀ k (hk : k < as.length), Reads (p (i + k)) (encode as[k]) (value as[k])) :
    Reads (timesFrom p i as.length) (as.flatMap encode) (as.map value) := by
  induction as generalizing i with
  | nil => exact pure []
  | cons a rest ih =>
    refine bind (h 0 (by simp)) (map (ih fun k hk => ?_))
    have hnext := h (k + 1) (by simpa using hk)
    rwa [Nat.add_left_comm, Nat.add_comm] at hnext

/-- Elements that are read as something else than what was written. -/
theorem timesMap {encode : γ → List UInt8} {value : γ → α} {as : List γ}
    (h : ∀ a ∈ as, Reads p (encode a) (value a)) :
    Reads (times p as.length) (as.flatMap encode) (as.map value) :=
  timesFrom fun k hk => h as[k] (getElem_mem hk)

theorem times {encode : α → List UInt8} {as : List α} (h : ∀ a ∈ as, Reads p (encode a) a) :
    Reads (times p as.length) (as.flatMap encode) as := by
  have hread : Reads (.times p as.length) (as.flatMap encode) (as.map id) := timesMap h
  rwa [map_id] at hread

/-- The result on a complete input. -/
theorem runAll (h : Reads p c a) (e : α → Nat → ε) : runAll p e c = .ok a := by
  have hrun := h []
  rw [append_nil] at hrun
  simp [Parser.runAll, hrun]

/-- What follows a complete input is reported. -/
theorem runAll_append (h : Reads p c a) (hd : d ≠ []) (e : α → Nat → ε) :
    Parser.runAll p e (c ++ d) = .error (e a d.length) := by
  simp [Parser.runAll, h d, hd]

/-- A proper prefix of a complete input is refused. -/
theorem not_runAll {b : α} (h : Reads p (c ++ d) a) (hd : d ≠ []) (e : α → Nat → ε) :
    Parser.runAll p e c ≠ .ok b := by
  intro hrun
  obtain ⟨c', hc, hread⟩ := p.consumes _ _ _ (run_of_runAll hrun)
  rw [append_nil] at hc
  subst hc
  have hfull := h []
  rw [append_nil, hread d] at hfull
  cases hfull
  exact hd rfl

end Reads

/-! ## Postconditions -/

/-- Every result of `p` meets `Q`. -/
def Ensures (Q : α → Prop) : Prop :=
  ∀ bytes a rest, p.run bytes = .ok (a, rest) → Q a

namespace Ensures
variable {Q P : α → Prop} {p : Parser ε α} {f : α → Parser ε β}

theorem pure (h : Q a) : Ensures (Pure.pure a : Parser ε α) Q := by
  intro bytes b rest hrun
  cases hrun
  exact h

theorem fail (e : ε) : Ensures (fail e : Parser ε α) Q :=
  fun _ _ _ h => by cases h

theorem bind {Q : β → Prop} (hp : Ensures p P)
    (hf : ∀ a, P a → Ensures (f a) Q) : Ensures (p >>= f) Q := by
  intro bytes b rest h
  rw [run_bind] at h
  split at h
  · cases h
  · rename_i a mid hrun
    exact hf a (hp _ _ _ hrun) _ _ _ h

/-- A step whose result is of no interest. -/
theorem skip {Q : β → Prop} (hf : ∀ a, Ensures (f a) Q) : Ensures (p >>= f) Q :=
  bind (P := fun _ => True) (fun _ _ _ _ => trivial) fun a _ => hf a

theorem mono (hp : Ensures p P) (h : ∀ a, P a → Q a) :
    Ensures p Q := fun bytes a rest hrun => h a (hp bytes a rest hrun)

theorem uint (w : Nat) (e : ε) : Ensures (uint w e) fun n => n < 256 ^ w :=
  skip fun bs => pure (lt_of_lt_of_eq (leValue_lt bs.val) (congrArg _ bs.property))

theorem timesFrom {p : Nat → Parser ε α} (h : ∀ i, Ensures (p i) P) (i n : Nat) :
    Ensures (timesFrom p i n) fun as => as.length = n ∧ ∀ a ∈ as, P a := by
  induction n generalizing i with
  | zero => exact pure ⟨rfl, by simp⟩
  | succ n ih =>
    refine bind (h i) fun a ha => bind (ih (i + 1)) fun as has => pure ⟨by simp [has.1], ?_⟩
    exact forall_mem_cons.mpr ⟨ha, has.2⟩

theorem times (h : Ensures p P) (n : Nat) :
    Ensures (times p n) fun as => as.length = n ∧ ∀ a ∈ as, P a :=
  timesFrom (fun _ => h) 0 n

theorem runAll (h : Ensures p Q) (hrun : runAll p e bytes = .ok a) : Q a :=
  h _ _ _ (run_of_runAll hrun)

end Ensures
end Parser
end ArcGraph.Foundation
