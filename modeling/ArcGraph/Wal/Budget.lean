import ArcGraph.Foundation.System
import Mathlib.Algebra.Order.BigOperators.Group.List
import Mathlib.Algebra.Order.Ring.Nat

/-!
# The byte budget of the appends in flight

A caller reserves its payload's length before it sends its record. `fire` gives the
lengths of its batch back before it writes and syncs the batch, so the budget bounds what
waits for a fire, and not what an fsync under way has still to make durable
(`budget_exceeded`). It bounds both if no append is let in during a fire that takes more
than the batch leaves (`budget_kept`).
-/

namespace ArcGraph.Wal.Budget
open Foundation List

/-- `WalByteBudget` with its callers and the writer thread, each append as the length of its
payload; a T3 append differs from a T1 in when its caller is answered. Payloads in memory at
one time are below `2^64` bytes, so no sum saturates. -/
structure State where
  inFlight : Nat := 0
  dead : Bool := false
  /-- `run` is over and its receiver dropped. -/
  exited : Bool := false
  /-- Callers of `admit` about to look. -/
  checking : List Nat := []
  /-- Callers of `admit` waiting on `room`. -/
  parked : List Nat := []
  /-- Callers between `admit` and `send`. -/
  admitted : List Nat := []
  queue : List Nat := []
  pending : List Nat := []
  /-- The batch of the `fire` under way. -/
  firing : List Nat := []

inductive Action
  | append (len : Nat)
  | admitLen (i : Nat)
  | send (i : Nat)
  | recv (encodes : Bool)
  | fire
  | settle
  | exit
  | poison

namespace State
variable (budget : Nat) (s : State)

abbrev HasRoom (len : Nat) : Prop := s.inFlight + len ≤ budget ∨ s.inFlight = 0

-- Between the unlock and `notify_all` a parked caller cannot be told from a woken one
-- that has not run, so the two are one step.
def release (len : Nat) : State :=
  { s with inFlight := s.inFlight - len, checking := s.checking ++ s.parked, parked := [] }

/-- `WalByteBudget::admit`. -/
def admitLen (i : Nat) : Option State :=
  s.checking[i]?.map fun len =>
    let s := { s with checking := s.checking.eraseIdx i }
    if s.dead then s
    else if s.HasRoom budget len then
      { s with inFlight := s.inFlight + len, admitted := len :: s.admitted }
    else { s with parked := len :: s.parked }

def send (i : Nat) : Option State :=
  s.admitted[i]?.map fun len =>
    let s := { s with admitted := s.admitted.eraseIdx i }
    if s.exited then s.release len else { s with queue := s.queue ++ [len] }

def recv (encodes : Bool) : Option State :=
  s.queue.head?.map fun len =>
    let s := { s with queue := s.queue.tail }
    if encodes then { s with pending := s.pending ++ [len] } else s.release len

def fire : State :=
  let s' := if 0 < s.pending.sum then s.release s.pending.sum else s
  { s' with pending := [], firing := s.pending }

-- A full batch, the window's end, a flush and a shutdown fire; here any moment may. An
-- fsync that fails ends `run`, or the process.
def step : Action → Option State
  | .append len => some { s with checking := len :: s.checking }
  | .admitLen i => s.admitLen budget i
  | .send i => s.send i
  | .recv encodes => if s.firing = [] then s.recv encodes else none
  | .fire => if s.firing = [] then some s.fire else none
  | .settle => some { s with firing := [] }
  | .exit => some { s with exited := true, queue := [], pending := [], firing := [] }
  | .poison => if s.exited then some { s.release s.inFlight with dead := true } else none

/-- Admitted, and their fire not begun. -/
def unfired : List Nat := s.pending ++ (s.queue ++ s.admitted)

/-- Admitted, and neither fsynced nor failed. -/
def unsettled : List Nat := s.unfired ++ s.firing

/-- Nobody sleeps who could go on. -/
def Woken : Prop := ∀ len ∈ s.parked, s.dead = false ∧ ¬ s.HasRoom budget len

def Bounded : Prop := s.unsettled.sum ≤ budget ∨ ∃ len, s.unsettled = [len]

/-- What the budget promises. -/
def Kept : Prop := s.Bounded budget ∧ (s.unsettled = [] → s.inFlight = 0) ∧ s.Woken budget

/-- An append that is let in is not empty, and if a fire is under way then the append and
all that is not durable are within the budget. -/
def Careful : Action → Prop
  | .admitLen i => ∀ len ∈ s.checking[i]?, s.HasRoom budget len →
      0 < len ∧ (s.firing = [] ∨ s.unsettled.sum + len ≤ budget)
  | _ => True

instance : DecidablePred (s.Careful budget)
  | .admitLen i => match h : s.checking[i]? with
    | none => .isTrue (by simp [Careful, h])
    | some len => decidable_of_iff
        (s.HasRoom budget len → 0 < len ∧ (s.firing = [] ∨ s.unsettled.sum + len ≤ budget))
        (by simp [Careful, h])
  | .append _ | .send _ | .recv _ | .fire | .settle | .exit | .poison => .isTrue trivial

end State

def appends (budget : Nat) : System State Action := ⟨{}, State.step budget⟩

/-- The reservations cover the appends `l` that wait for a fire, exactly while the writer
runs. -/
def Accounts (budget : Nat) (s : State) (l : List Nat) : Prop :=
  (s.dead = false → l.sum ≤ s.inFlight) ∧ (s.exited = false → s.inFlight = l.sum) ∧
  (s.dead = true → s.inFlight = 0) ∧ s.Woken budget

/-- Appends with bytes, within the budget or one alone. -/
def Fits (budget : Nat) (l : List Nat) : Prop :=
  (l.sum ≤ budget ∨ l.length ≤ 1) ∧ ∀ len ∈ l, 0 < len

variable {budget : Nat} {s s' : State} {a : Action} {r l l' : List Nat}

theorem Fits.rest (h : Fits budget l) (hr : l ~ r ++ l') : Fits budget l' := by
  have hsum : l.sum = r.sum + l'.sum := hr.sum_nat.trans sum_append
  have hlen : l.length = r.length + l'.length := hr.length_eq.trans length_append
  exact ⟨h.1.imp (by omega) (by omega), fun len hmem =>
    h.2 len (hr.mem_iff.mpr (mem_append_right _ hmem))⟩

theorem Accounts.release (h : Accounts budget s l) (hr : l ~ r ++ l') :
    Accounts budget (s.release r.sum) l' := by
  obtain ⟨hcovered, hexact, hdead, -⟩ := h
  have hsum : l.sum = r.sum + l'.sum := hr.sum_nat.trans sum_append
  refine ⟨fun hd => ?_, fun hx => ?_, fun hd => ?_, forall_mem_nil _⟩
  · exact Nat.le_sub_of_add_le' (hsum ▸ hcovered hd)
  · exact Nat.sub_eq_of_eq_add' ((hexact hx).trans hsum)
  · exact Nat.sub_eq_zero_of_le ((hdead hd).le.trans (Nat.zero_le _))

/-- Appends that leave without giving bytes back have none, or the writer is gone. -/
theorem Accounts.drop (h : Accounts budget s l) (hr : l ~ r ++ l') {e : Bool}
    (he : e = false → s.exited = false ∧ r.sum = 0) :
    Accounts budget { s with exited := e } l' := by
  obtain ⟨hcovered, hexact, hdead, hwoken⟩ := h
  have hsum : l.sum = r.sum + l'.sum := hr.sum_nat.trans sum_append
  refine ⟨fun hd => ?_, fun hx => ?_, hdead, hwoken⟩
  · exact (hsum ▸ Nat.le_add_left ..).trans (hcovered hd)
  · obtain ⟨hx, hzero⟩ := he hx
    exact (hexact hx).trans (by omega)

theorem Accounts.perm (h : Accounts budget s l) (hp : l ~ l') : Accounts budget s l' :=
  h.drop (r := []) hp fun hx => ⟨hx, rfl⟩

theorem Accounts.admitLen {len : Nat} (h : Accounts budget s l) (hdead : ¬ s.dead = true) :
    Accounts budget { s with inFlight := s.inFlight + len } (len :: l) := by
  obtain ⟨hcovered, hexact, -, hwoken⟩ := h
  have hle := hcovered (eq_false_of_ne_true hdead)
  rw [Accounts, sum_cons]
  refine ⟨fun _ => by dsimp only; omega, fun hx => ?_, fun hd => absurd hd hdead, ?_⟩
  · exact (congrArg (· + len) (hexact hx)).trans (Nat.add_comm ..)
  · intro n hn
    obtain ⟨halive, hfull⟩ := hwoken n hn
    exact ⟨halive, by dsimp only [State.HasRoom] at hfull ⊢; omega⟩

theorem perm_unfired (pending queue admitted : List Nat) (len : Nat) :
    pending ++ (queue ++ len :: admitted) ~ len :: (pending ++ (queue ++ admitted)) :=
  (perm_middle.append_left pending).trans perm_middle

/-- A step keeps the accounts; it settles some appends, or lets one in. -/
theorem accounts_step (h : Accounts budget s s.unfired) (hs : s.step budget a = some s') :
    Accounts budget s' s'.unfired ∧ ((∃ r, s.unsettled ~ r ++ s'.unsettled) ∨
      ∃ i, a = .admitLen i ∧ ∃ len ∈ s.checking[i]?, s.dead = false ∧ s.HasRoom budget len ∧
        s'.unsettled ~ len :: s.unsettled) := by
  cases a with
  | append =>
    cases hs
    exact ⟨h, .inl ⟨[], .refl _⟩⟩
  | admitLen i =>
    obtain ⟨len, hi, rfl⟩ := Option.map_eq_some_iff.mp hs
    dsimp only
    split
    · exact ⟨h, .inl ⟨[], .refl _⟩⟩
    · rename_i hdead
      split
      · rename_i hroom
        exact ⟨(h.admitLen hdead).perm (perm_unfired ..).symm, .inr ⟨i, rfl, len, hi,
          eq_false_of_ne_true hdead, hroom, (perm_unfired ..).append_right _⟩⟩
      · rename_i hroom
        obtain ⟨hcovered, hexact, hzero, hwoken⟩ := h
        exact ⟨⟨hcovered, hexact, hzero, forall_mem_cons.mpr
          ⟨⟨eq_false_of_ne_true hdead, hroom⟩, hwoken⟩⟩, .inl ⟨[], .refl _⟩⟩
  | send i =>
    obtain ⟨len, hi, rfl⟩ := Option.map_eq_some_iff.mp hs
    obtain ⟨hlt, rfl⟩ := List.getElem?_eq_some_iff.mp hi
    have hp := ((getElem_cons_eraseIdx_perm hlt).symm.append_left s.queue).append_left s.pending
    dsimp only
    split
    · have hout := hp.trans (perm_unfired ..)
      exact ⟨h.release (r := [_]) hout, .inl ⟨[_], hout.append_right _⟩⟩
    · refine ⟨h.perm (by simpa [State.unfired] using hp), .inl ⟨[], ?_⟩⟩
      simpa [State.unsettled, State.unfired] using hp.append_right s.firing
  | recv =>
    obtain ⟨-, hs⟩ := Option.ite_none_right_eq_some.mp hs
    obtain ⟨len, hq, rfl⟩ := Option.map_eq_some_iff.mp hs
    obtain ⟨q, hq⟩ := head?_eq_some_iff.mp hq
    have hunfired : s.unfired = s.pending ++ (len :: q ++ s.admitted) := by rw [State.unfired, hq]
    rw [hunfired] at h
    rw [State.unsettled, hunfired, hq]
    dsimp only
    split
    · exact ⟨h.perm (by simp [State.unfired]), .inl ⟨[], by simp [State.unsettled, State.unfired]⟩⟩
    · exact ⟨h.release (r := [_]) perm_middle, .inl ⟨[_], perm_middle.append_right _⟩⟩
  | fire =>
    obtain ⟨hfiring, hs⟩ := Option.ite_none_right_eq_some.mp hs
    cases hs
    rw [State.unsettled, hfiring, append_nil]
    dsimp only [State.fire]
    split
    · exact ⟨h.release (.refl _), .inl ⟨[], perm_append_comm⟩⟩
    · exact ⟨h.drop (.refl _) fun hx => ⟨hx, by omega⟩, .inl ⟨[], perm_append_comm⟩⟩
  | settle =>
    cases hs
    refine ⟨h, .inl ⟨s.firing, ?_⟩⟩
    rw [State.unsettled, State.unsettled, append_nil]
    exact perm_append_comm
  | exit =>
    cases hs
    have hadmitted : s.unfired = (s.pending ++ s.queue) ++ s.admitted := (append_assoc ..).symm
    refine ⟨h.drop (.of_eq hadmitted) (by simp), .inl ⟨s.pending ++ s.queue ++ s.firing, ?_⟩⟩
    rw [State.unsettled, hadmitted, append_assoc, append_assoc _ s.firing, State.unsettled,
      append_nil]
    exact perm_append_comm.append_left _
  | poison =>
    obtain ⟨hx, hs⟩ := Option.ite_none_right_eq_some.mp hs
    cases hs
    exact ⟨⟨by simp, fun hx' => absurd hx (ne_true_of_eq_false hx'), fun _ => Nat.sub_self _,
      forall_mem_nil _⟩, .inl ⟨[], .refl _⟩⟩

theorem fits_step (h : Accounts budget s s.unfired) (hfits : Fits budget s.unsettled)
    (hok : s.Careful budget a) (hs : s.step budget a = some s') : Fits budget s'.unsettled := by
  obtain ⟨r, hr⟩ | ⟨i, rfl, len, hlen, halive, hroom, hp⟩ := (accounts_step h hs).2
  · exact hfits.rest hr
  · obtain ⟨hpos, hroom'⟩ := hok len hlen hroom
    refine .rest (r := []) ⟨?_, forall_mem_cons.mpr ⟨hpos, hfits.2⟩⟩ hp.symm
    rw [sum_cons, length_cons]
    obtain hfiring | hle := hroom'
    · have hle := h.1 halive
      have hunfired : s.unsettled = s.unfired := by rw [State.unsettled, hfiring, append_nil]
      rw [hunfired] at hfits ⊢
      obtain hroom | hzero := hroom
      · exact .inl (by omega)
      · -- every append in flight has bytes, so there is none
        have hall := List.sum_eq_zero_iff_forall_eq_nat.mp (Nat.le_zero.mp (hzero ▸ hle))
        have hnil : s.unfired = [] := eq_nil_iff_forall_not_mem.mpr fun n hn =>
          (hfits.2 n hn).ne' (hall n hn)
        exact .inr (by simp [hnil])
    · exact .inl (by omega)

/-- If appends are let in with care, what is not durable stays within the budget and nobody
sleeps who could go on. Nothing is reserved where nothing is in flight, but for the moment
between the end of the writer and its announcement. -/
theorem budget_kept (h : (appends budget).Reach (State.Careful budget) s) :
    s.Bounded budget ∧ s.Woken budget ∧
      ((s.exited = true → s.dead = true) → s.unsettled = [] → s.inFlight = 0) := by
  obtain ⟨⟨-, hexact, hdead, hwoken⟩, hfits⟩ :=
    h.invariant (P := fun s => Accounts budget s s.unfired ∧ Fits budget s.unsettled)
      (by simp [Accounts, Fits, appends, State.unsettled, State.unfired, State.Woken])
      fun _ _ _ hinv hok hs => ⟨(accounts_step hinv.1 hs).1, fits_step hinv.1 hinv.2 hok hs⟩
  refine ⟨?_, hwoken, fun hdeath hnil => ?_⟩
  · obtain hle | hone := hfits.1
    · exact .inl hle
    · cases hl : s.unsettled with
      | nil => exact .inl (by simp [hl])
      | cons len rest =>
        rw [hl, length_cons] at hone
        obtain rfl : rest = [] := length_eq_zero_iff.mp (by omega)
        exact .inr ⟨len, hl⟩
  · cases hx : s.exited with
    | false => rw [hexact hx, (append_eq_nil_iff.mp hnil).1, sum_nil]
    | true => exact hdead (hdeath hx)

/-- Two appends of a byte each, the second while the first is being synced. -/
def duringFsync : List Action :=
  [.append 1, .admitLen 0, .send 0, .recv true, .fire, .append 1, .admitLen 0]

/-- With a budget of two bytes the batch leaves room. -/
theorem budget_kept_duringFsync :
    ((appends 2).after (State.Careful 2) duringFsync).unsettled = [1, 1] ∧
      ((appends 2).after (State.Careful 2) duringFsync).Bounded 2 :=
  ⟨by decide, (budget_kept (.after (by decide))).1⟩

/-- With one byte the second append is let in all the same. And where the writer ends, what it
drops stays reserved until the end is announced. -/
theorem budget_exceeded :
    (∃ s, (appends 1).Reach (fun _ _ => True) s ∧ ¬ s.Kept 1) ∧
    ∃ s, (appends 1).Reach (State.Careful 1) s ∧ s.unsettled = [] ∧ s.inFlight = 1 := by
  refine ⟨⟨(appends 1).after _ duringFsync, .after rfl, fun h => ?_⟩,
    (appends 1).after _ [.append 1, .admitLen 0, .send 0, .exit], .after (by decide),
    by decide, by decide⟩
  obtain hle | ⟨len, hone⟩ := h.1
  · exact absurd hle (by decide)
  · have hlen : 2 = 1 := congrArg length hone
    omega

end ArcGraph.Wal.Budget
