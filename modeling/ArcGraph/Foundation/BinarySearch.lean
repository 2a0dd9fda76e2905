import Mathlib.Order.Lattice
import Mathlib.Tactic.Common

/-!
# Binary search

The two loops that sorted pages are searched with. Both halve an index range
`[lo, hi)`; `bisect` looks for the end of the part where a test holds, `search`
stops early at a match. Each is characterised by the cut it finds, in terms of
the test alone, so that a client says what its probe means and nothing else.
-/

namespace ArcGraph.Foundation
open List Option Nat

/-- The first index of `[lo, hi)` where the test fails. -/
def bisect (p : Nat → Bool) : Nat → Nat → Nat → Nat
  | 0, lo, _ => lo
  | fuel + 1, lo, hi =>
    if lo < hi then
      if p ((lo + hi) / 2) then bisect p fuel ((lo + hi) / 2 + 1) hi
      else bisect p fuel lo ((lo + hi) / 2)
    else lo

theorem bisect_eq {p : Nat → Bool} {cut fuel lo hi : Nat} (hfuel : hi - lo ≤ fuel)
    (hlo : lo ≤ cut) (hhi : cut ≤ hi) (hpos : ∀ i, lo ≤ i → i < cut → p i = true)
    (hneg : ∀ i, cut ≤ i → i < hi → p i = false) : bisect p fuel lo hi = cut := by
  induction fuel generalizing lo hi with
  | zero =>
    show lo = cut
    omega
  | succ _ ih =>
    rw [bisect]
    by_cases hlt : lo < hi
    · rw [if_pos hlt]
      rcases lt_or_ge ((lo + hi) / 2) cut with hmid | hmid
      · rw [if_pos (hpos _ (by omega) hmid)]
        exact ih (by omega) (by omega) hhi (fun i hi' => hpos i (by omega)) hneg
      · rw [hneg _ hmid (by omega), if_neg (by simp)]
        exact ih (by omega) hlo (by omega) hpos (fun i hi' hlt' => hneg i hi' (by omega))
    · rw [if_neg hlt]
      omega

/-- What a search for one key finds. -/
inductive Position
  | found (index : Nat)
  | absent (insertAt : Nat)
deriving DecidableEq

/-- Search for an index of `[lo, hi)` where the probe says `eq`. -/
def search (probe : Nat → Ordering) : Nat → Nat → Nat → Position
  | 0, lo, _ => .absent lo
  | fuel + 1, lo, hi =>
    if lo < hi then
      match probe ((lo + hi) / 2) with
      | .lt => search probe fuel ((lo + hi) / 2 + 1) hi
      | .gt => search probe fuel lo ((lo + hi) / 2)
      | .eq => .found ((lo + hi) / 2)
    else .absent lo

variable {i : Nat}

section
variable {probe : Nat → Ordering} {cut fuel lo hi : Nat}

theorem search_found (hfuel : hi - lo ≤ fuel) (hlo : lo ≤ cut) (hhi : cut < hi)
    (hlt : ∀ i, lo ≤ i → i < cut → probe i = .lt) (heq : probe cut = .eq)
    (hgt : ∀ i, cut < i → i < hi → probe i = .gt) : search probe fuel lo hi = .found cut := by
  induction fuel generalizing lo hi with
  | zero => omega
  | succ _ ih =>
    rw [search, if_pos (by omega)]
    rcases lt_trichotomy ((lo + hi) / 2) cut with hmid | hmid | hmid
    · rw [hlt _ (by omega) hmid]
      exact ih (by omega) (by omega) hhi (fun i hi' => hlt i (by omega)) hgt
    · rw [hmid, heq]
    · rw [hgt _ hmid (by omega)]
      exact ih (by omega) hlo hmid hlt (fun i hi' hlt' => hgt i hi' (by omega))

theorem search_absent (hfuel : hi - lo ≤ fuel) (hlo : lo ≤ cut) (hhi : cut ≤ hi)
    (hlt : ∀ i, lo ≤ i → i < cut → probe i = .lt)
    (hgt : ∀ i, cut ≤ i → i < hi → probe i = .gt) : search probe fuel lo hi = .absent cut := by
  induction fuel generalizing lo hi with
  | zero =>
    have hcut : lo = cut := by omega
    rw [search, hcut]
  | succ _ ih =>
    rw [search]
    by_cases hne : lo < hi
    · rw [if_pos hne]
      rcases lt_or_ge ((lo + hi) / 2) cut with hmid | hmid
      · rw [hlt _ (by omega) hmid]
        exact ih (by omega) (by omega) hhi (fun i hi' => hlt i (by omega)) hgt
      · rw [hgt _ hmid (by omega)]
        exact ih (by omega) hlo hmid hlt (fun i hi' hlt' => hgt i hi' (by omega))
    · rw [if_neg hne]
      congr
      omega

/-- Whatever the probes say, only an index that is equal is found. -/
theorem probe_of_search_found (h : search probe fuel lo hi = .found i) : probe i = .eq := by
  induction fuel generalizing lo hi with
  | zero => cases h
  | succ _ ih =>
    rw [search] at h
    split at h
    · cases hmid : probe ((lo + hi) / 2) with rw [hmid] at h
      | lt =>
        exact ih h
      | eq =>
        cases h
        exact hmid
      | gt =>
        exact ih h
    · cases h

end

theorem insertIdx_append {α : Type} (l₁ l₂ : List α) (x : α) :
    (l₁ ++ l₂).insertIdx l₁.length x = l₁ ++ x :: l₂ := by
  induction l₁ with
  | nil => rfl
  | cons _ _ ih =>
    rw [cons_append, length_cons, insertIdx_succ_cons, ih, cons_append]

/-! ## Lists sorted by a key -/

variable {α κ : Type} [LinearOrder κ] (key : α → κ) (l : List α)

/-- Strictly ascending keys. -/
def AscendingBy : Prop := l.Pairwise fun a b => key a < key b

/-- The entry of a key. -/
def findKey (k : κ) : Option α := l.find? fun a => key a = k

/-- The probe of a list at an index. Indices outside the list are not probed. -/
def probeAt (k : κ) (i : Nat) : Ordering :=
  match l[i]? with
  | some a => compare (key a) k
  | none => .gt

/-- Binary search in a list. -/
def searchIn (k : κ) : Position := search (probeAt key l k) l.length 0 l.length

variable {key} {l l₁ l₂ : List α} {k : κ} {x : α}

theorem ascendingBy_append : AscendingBy key (l₁ ++ l₂) ↔
    AscendingBy key l₁ ∧ AscendingBy key l₂ ∧ ∀ x ∈ l₁, ∀ y ∈ l₂, key x < key y :=
  pairwise_append

theorem ascendingBy_cons : AscendingBy key (x :: l) ↔
    (∀ y ∈ l, key x < key y) ∧ AscendingBy key l :=
  pairwise_cons

/-- A list below a key, the key and a list above it. -/
theorem ascendingBy_insert : AscendingBy key (l₁ ++ x :: l₂) ↔ AscendingBy key l₁ ∧
    AscendingBy key l₂ ∧ (∀ y ∈ l₁, key y < key x) ∧ (∀ y ∈ l₂, key x < key y) := by
  rw [ascendingBy_append, ascendingBy_cons]
  constructor
  · rintro ⟨h1, ⟨hx, h2⟩, hcross⟩
    exact ⟨h1, h2, fun y hy => hcross y hy x mem_cons_self, hx⟩
  · rintro ⟨h1, h2, hbelow, habove⟩
    refine ⟨h1, ⟨habove, h2⟩, fun y hy => forall_mem_cons.mpr ⟨hbelow y hy, fun z hz => ?_⟩⟩
    exact (hbelow y hy).trans (habove z hz)

/-- A key cuts a sorted list in two. -/
theorem AscendingBy.cut (h : AscendingBy key l) (k : κ) :
    ∃ a b, l = a ++ b ∧ (∀ x ∈ a, key x < k) ∧ ∀ x ∈ b, k ≤ key x := by
  induction l with
  | nil => exact ⟨[], [], rfl, by simp, by simp⟩
  | cons x rest ih =>
    obtain ⟨hx, hrest⟩ := ascendingBy_cons.mp h
    rcases lt_or_ge (key x) k with hlt | hge
    · obtain ⟨a, b, rfl, ha, hb⟩ := ih hrest
      exact ⟨x :: a, b, rfl, forall_mem_cons.mpr ⟨hlt, ha⟩, hb⟩
    · refine ⟨[], x :: rest, rfl, by simp, forall_mem_cons.mpr ⟨hge, fun y hy => ?_⟩⟩
      exact hge.trans (hx y hy).le

theorem probeAt_append_left (hi : i < l₁.length) (h : ∀ x ∈ l₁, key x < k) :
    probeAt key (l₁ ++ l₂) k i = .lt := by
  rw [probeAt, getElem?_append_left hi, getElem?_eq_getElem hi]
  exact compare_lt_iff_lt.mpr (h _ (getElem_mem hi))

theorem probeAt_append_right (hi : l₁.length ≤ i) (h : ∀ x ∈ l₂, k < key x) :
    probeAt key (l₁ ++ l₂) k i = .gt := by
  rw [probeAt, getElem?_append_right hi]
  cases hx : l₂[i - l₁.length]? with
  | none => rfl
  | some x => exact compare_gt_iff_gt.mpr (h x (mem_of_getElem? hx))

theorem searchIn_found (hx : key x = k) (h1 : ∀ y ∈ l₁, key y < k) (h2 : ∀ y ∈ l₂, k < key y) :
    searchIn key (l₁ ++ x :: l₂) k = .found l₁.length := by
  refine search_found (by simp) (zero_le _) (by simp) (fun i _ hi => probeAt_append_left hi h1)
    ?_ (fun i hi _ => ?_)
  · simp [probeAt, hx]
  · have hsplit : l₁ ++ x :: l₂ = (l₁ ++ [x]) ++ l₂ := by simp
    rw [hsplit]
    exact probeAt_append_right (by simpa using succ_le_of_lt hi) h2

theorem searchIn_absent (h1 : ∀ y ∈ l₁, key y < k) (h2 : ∀ y ∈ l₂, k < key y) :
    searchIn key (l₁ ++ l₂) k = .absent l₁.length :=
  search_absent (by simp) (zero_le _) (by simp) (fun _ _ hi => probeAt_append_left hi h1)
    (fun _ hi _ => probeAt_append_right hi h2)

/-- What binary search says about a sorted list. -/
theorem AscendingBy.searchIn_cases (h : AscendingBy key l) (k : κ) :
    (∃ a x b, l = a ++ x :: b ∧ key x = k ∧ (∀ y ∈ a, key y < k) ∧ (∀ y ∈ b, k < key y) ∧
      searchIn key l k = .found a.length) ∨
    (∃ a b, l = a ++ b ∧ (∀ y ∈ a, key y < k) ∧ (∀ y ∈ b, k < key y) ∧
      searchIn key l k = .absent a.length) := by
  obtain ⟨a, b, rfl, ha, hb⟩ := h.cut k
  cases b with
  | nil => exact .inr ⟨a, [], rfl, ha, by simp, searchIn_absent ha (by simp)⟩
  | cons x rest =>
    obtain ⟨hx, -⟩ := ascendingBy_cons.mp (ascendingBy_append.mp h).2.1
    rcases (hb x mem_cons_self).eq_or_lt with heq | hlt
    · have hrest : ∀ y ∈ rest, k < key y := fun y hy => heq ▸ hx y hy
      exact .inl ⟨a, x, rest, rfl, heq.symm, ha, hrest, searchIn_found heq.symm ha hrest⟩
    · have hrest : ∀ y ∈ x :: rest, k < key y := by
        refine forall_mem_cons.mpr ⟨hlt, fun y hy => ?_⟩
        exact hlt.trans (hx y hy)
      exact .inr ⟨a, x :: rest, rfl, ha, hrest, searchIn_absent ha hrest⟩

/-! ### Entries under their key -/

theorem findKey_append (l₁ l₂ : List α) (k : κ) :
    findKey key (l₁ ++ l₂) k = (findKey key l₁ k).or (findKey key l₂ k) := by
  simp [findKey, find?_append]

theorem findKey_cons_self (hx : key x = k) : findKey key (x :: l) k = some x := by
  simp [findKey, hx]

theorem findKey_cons_ne (hx : key x ≠ k) : findKey key (x :: l) k = findKey key l k := by
  simp [findKey, hx]

theorem findKey_eq_none (h : ∀ x ∈ l, key x ≠ k) : findKey key l k = none := by
  simpa [findKey] using h

theorem findKey_eq_none_of_lt (h : ∀ x ∈ l, key x < k) : findKey key l k = none :=
  findKey_eq_none fun x hx => (h x hx).ne

theorem findKey_eq_none_of_gt (h : ∀ x ∈ l, k < key x) : findKey key l k = none :=
  findKey_eq_none fun x hx => (h x hx).ne'

theorem findKey_found (h1 : ∀ x ∈ l₁, key x < k) (hx : key x = k) :
    findKey key (l₁ ++ x :: l₂) k = some x := by
  rw [findKey_append, findKey_eq_none_of_lt h1, none_or, findKey_cons_self hx]

theorem findKey_absent (h1 : ∀ x ∈ l₁, key x < k) (h2 : ∀ x ∈ l₂, k < key x) :
    findKey key (l₁ ++ l₂) k = none := by
  rw [findKey_append, findKey_eq_none_of_lt h1, findKey_eq_none_of_gt h2, none_or]

theorem AscendingBy.findKey_mem (h : AscendingBy key l) (hx : x ∈ l) :
    findKey key l (key x) = some x := by
  obtain ⟨_, _, rfl⟩ := append_of_mem hx
  exact findKey_found (ascendingBy_insert.mp h).2.2.1 rfl

variable {m m' : List α} {y : α}

/-- The part around a key answers for the whole list. -/
theorem findKey_middle (h1 : ∀ x ∈ l₁, key x < k) (h2 : ∀ x ∈ l₂, k < key x) :
    findKey key (l₁ ++ m ++ l₂) k = findKey key m k := by
  rw [findKey_append, findKey_append, findKey_eq_none_of_lt h1, findKey_eq_none_of_gt h2,
    or_none, none_or]

/-! ### A change under one key -/

/-- The sorted list `new` differs from `old` at most in the entry of `k`. -/
structure UpdatesAt (key : α → κ) (k : κ) (old new : List α) : Prop where
  ascending : AscendingBy key new
  keys : ∀ x ∈ new, key x = k ∨ x ∈ old
  others : ∀ k', k' ≠ k → findKey key new k' = findKey key old k'

namespace UpdatesAt

theorem refl (h : AscendingBy key l) : UpdatesAt key k l l :=
  ⟨h, fun _ hx => .inr hx, fun _ _ => rfl⟩

theorem replace (h : AscendingBy key (l₁ ++ x :: l₂)) (hx : key x = k)
    (hy : key y = k) : UpdatesAt key k (l₁ ++ x :: l₂) (l₁ ++ y :: l₂) where
  ascending := by
    obtain ⟨h1, h2, hbelow, habove⟩ := ascendingBy_insert.mp h
    rw [hx, ← hy] at hbelow habove
    exact ascendingBy_insert.mpr ⟨h1, h2, hbelow, habove⟩
  keys := by
    intro z hz
    simp only [mem_append, mem_cons] at hz ⊢
    grind
  others := by
    intro k' hk'
    rw [findKey_append, findKey_append, findKey_cons_ne (hx.trans_ne hk'.symm),
      findKey_cons_ne (hy.trans_ne hk'.symm)]

theorem insert (h : AscendingBy key (l₁ ++ l₂)) (h1 : ∀ z ∈ l₁, key z < k)
    (h2 : ∀ z ∈ l₂, k < key z) (hy : key y = k) : UpdatesAt key k (l₁ ++ l₂) (l₁ ++ y :: l₂) where
  ascending := by
    obtain ⟨hl1, hl2, -⟩ := ascendingBy_append.mp h
    exact ascendingBy_insert.mpr ⟨hl1, hl2, hy ▸ h1, hy ▸ h2⟩
  keys := by
    intro z hz
    simp only [mem_append, mem_cons] at hz ⊢
    grind
  others := by
    intro k' hk'
    rw [findKey_append, findKey_append, findKey_cons_ne (hy.trans_ne hk'.symm)]

/-- A change in a part of a list. -/
theorem append (l₁ l₂ : List α) (h : UpdatesAt key k m m')
    (hall : AscendingBy key (l₁ ++ (m ++ l₂))) (h1 : ∀ x ∈ l₁, key x < k)
    (h2 : ∀ x ∈ l₂, k < key x) :
    UpdatesAt key k (l₁ ++ (m ++ l₂)) (l₁ ++ (m' ++ l₂)) where
  ascending := by
    simp only [ascendingBy_append, mem_append] at hall ⊢
    obtain ⟨hl1, ⟨-, hl2, hup⟩, hdown⟩ := hall
    refine ⟨hl1, ⟨h.ascending, hl2, fun x hx y hy => ?_⟩, fun x hx y hy => ?_⟩
    · have := h.keys x hx
      grind
    · have := h.keys y
      grind
  keys := by
    intro x hx
    have := h.keys x
    simp only [mem_append] at hx ⊢
    grind
  others := by
    intro k' hk'
    simp only [findKey_append, h.others k' hk']

/-- A change below an entry in the middle. -/
theorem lower (hall : AscendingBy key (l₁ ++ x :: l₂)) (hk : k < key x)
    (h : UpdatesAt key k l₁ m') :
    UpdatesAt key k (l₁ ++ x :: l₂) (m' ++ x :: l₂) ∧ ∀ y ∈ m', key y < key x := by
  obtain ⟨-, -, hbelow, habove⟩ := ascendingBy_insert.mp hall
  refine ⟨h.append [] _ hall (by simp) ?_, fun y hy => ?_⟩
  · refine forall_mem_cons.mpr ⟨hk, fun y hy => ?_⟩
    exact hk.trans (habove y hy)
  · rcases h.keys y hy with heq | hold
    · exact heq ▸ hk
    · exact hbelow y hold

/-- A change at or above an entry in the middle. -/
theorem upper (hall : AscendingBy key (l₁ ++ x :: l₂)) (hk : key x ≤ k)
    (h : UpdatesAt key k (x :: l₂) m') :
    UpdatesAt key k (l₁ ++ x :: l₂) (l₁ ++ m') ∧ (∀ y ∈ m', key x ≤ key y) ∧
      ∀ y ∈ l₁, key y < k := by
  obtain ⟨-, -, hbelow, habove⟩ := ascendingBy_insert.mp hall
  have hl1 : ∀ y ∈ l₁, key y < k := fun y hy => (hbelow y hy).trans_le hk
  have hup := h.append l₁ [] (by simpa using hall) hl1 (by simp)
  refine ⟨by simpa using hup, fun y hy => ?_, hl1⟩
  rcases h.keys y hy with heq | hold
  · exact heq ▸ hk
  · rcases mem_cons.mp hold with rfl | hold
    · exact le_rfl
    · exact (habove y hold).le

end UpdatesAt
end ArcGraph.Foundation
