import ArcGraph.Foundation.System
import Mathlib.Data.Fintype.Card

/-!
# Ledgers of densely assigned places

A ledger maps keys to values, and every value has a place. The places are those of a
fixed sequence, handed out in order: a new key must come with the next one. Assigning
again what a key has already changes nothing.

The ledger is dense when its places are the first ones, each with one key. A run of
assignments can be repeated from any dense part of its result (`run_of_dense`).
-/

namespace ArcGraph.Foundation
open Function Option Nat
variable {κ ν ι : Type}

structure Ledger (κ ν : Type) where
  entries : κ → Option ν
  count : Nat

namespace Ledger

def empty : Ledger κ ν := ⟨fun _ => none, 0⟩

/-- Every entry of the first ledger is in the second. -/
def Sub (f g : κ → Option ν) : Prop := ∀ k v, f k = some v → g k = some v

variable {f g : κ → Option ν}

theorem Sub.antisymm (h : Sub f g) (h' : Sub g f) : f = g := by
  funext k
  cases hf : f k with
  | some v => exact (h k v hf).symm
  | none =>
    cases hg : g k with
    | none => rfl
    | some v => exact absurd ((h' k v hg).symm.trans hf) (by simp)

variable (slots : Nat → ι) (place : ν → ι)

structure Dense (L : Ledger κ ν) : Prop where
  numbered : ∀ {k v}, L.entries k = some v → ∃ i < L.count, place v = slots i
  unique : ∀ {k k' v v'}, L.entries k = some v → L.entries k' = some v' →
    place v = place v' → k = k'
  onto : ∀ i < L.count, ∃ k v, L.entries k = some v ∧ place v = slots i

theorem dense_empty : Dense slots place (empty : Ledger κ ν) where
  numbered h := nomatch h
  unique h := nomatch h
  onto i hi := absurd hi (not_lt_zero i)

variable {slots place} {L G F : Ledger κ ν} {k : κ} {v : ν}

/-- A dense ledger has no more places than keys. -/
theorem Dense.count_le (h : Dense slots place L) (hslots : Injective slots)
    (s : Finset κ) (hs : ∀ k v, L.entries k = some v → k ∈ s) : L.count ≤ s.card := by
  have hkey : ∀ i : Fin L.count, ∃ k : s, ∃ v, L.entries k = some v ∧ place v = slots i := by
    intro i
    obtain ⟨k, v, hk, hv⟩ := h.onto i i.isLt
    exact ⟨⟨k, hs k v hk⟩, v, hk, hv⟩
  choose key value hentry hplace using hkey
  have hinj : Injective key := by
    intro i j hij
    have hvalue : value i = value j := by
      have hi := hentry i
      rw [hij, hentry j] at hi
      exact (some.inj hi).symm
    have hslot : slots i = slots j := by
      rw [← hplace i, ← hplace j, hvalue]
    exact Fin.ext (hslots hslot)
  have hcard := Fintype.card_le_of_injective key hinj
  rwa [Fintype.card_fin, Fintype.card_coe] at hcard

section
variable (hL : Dense slots place L)
include hL

theorem Dense.count_le_of_sub (hG : Dense slots place G)
    (hslots : Injective slots) (hsub : Sub L.entries G.entries) : L.count ≤ G.count := by
  by_contra hlt
  obtain ⟨k, v, hk, hv⟩ := hL.onto G.count (by omega)
  obtain ⟨i, _, hvi⟩ := hG.numbered (hsub k v hk)
  have hcount : i = G.count := hslots (hvi.symm.trans hv)
  omega

theorem Dense.eq_of_entries (hG : Dense slots place G)
    (hslots : Injective slots) (h : L.entries = G.entries) : L = G := by
  have hLG := hL.count_le_of_sub hG hslots fun k v hk => h ▸ hk
  have hGL := hG.count_le_of_sub hL hslots fun k v hk => h ▸ hk
  cases L
  cases G
  simp only at h hLG hGL
  simp only [h, mk.injEq, true_and]
  omega

/-- The next place has no key in a dense ledger. -/
theorem Dense.place_ne (hslots : Injective slots)
    {w : ν} (hw : L.entries k = some w) : place w ≠ slots L.count := by
  intro heq
  obtain ⟨_, _, hwi⟩ := hL.numbered hw
  have hcount := hslots (hwi.symm.trans heq)
  omega

end

theorem sub_update [DecidableEq κ] (h : L.entries k = none) :
    Sub L.entries (update L.entries k (some v)) := by
  intro k' w hw
  have hne : k' ≠ k := fun heq => by simp [heq, h] at hw
  rw [update_of_ne hne, hw]

theorem Sub.update [DecidableEq κ] (h : Sub f g)
    (hk : g k = some v) : Sub (update f k (some v)) g := by
  intro k' w hw
  rcases of_update_eq hw with ⟨rfl, heq⟩ | ⟨-, hold⟩
  · exact heq ▸ hk
  · exact h k' w hold

variable [DecidableEq κ] [DecidableEq ν] [DecidableEq ι] (slots place)

/-- One assignment. -/
def assign (L : Ledger κ ν) (k : κ) (v : ν) : Option (Ledger κ ν) :=
  match L.entries k with
  | some w => if w = v then some L else none
  | none =>
    if place v = slots L.count then
      some ⟨update L.entries k (some v), L.count + 1⟩
    else none

def run (L : Ledger κ ν) (ops : List (κ × ν)) : Option (Ledger κ ν) :=
  ops.foldlM (fun L op => L.assign slots place op.1 op.2) L

variable {slots place} {k : κ} {v : ν} {ops : List (κ × ν)}

theorem assign_of_some (h : L.entries k = some v) : L.assign slots place k v = some L := by
  simp [assign, h]

theorem assign_of_none (h : L.entries k = none) (hv : place v = slots L.count) :
    L.assign slots place k v = some ⟨update L.entries k (some v), L.count + 1⟩ := by
  simp [assign, h, hv]

/-- What a successful assignment can do. -/
theorem assign_eq_some (h : L.assign slots place k v = some F) :
    (L.entries k = some v ∧ F = L) ∨ (L.entries k = none ∧ place v = slots L.count ∧
      F = ⟨update L.entries k (some v), L.count + 1⟩) := by
  unfold assign at h
  split at h
  · next w hw =>
      split at h
      · next heq =>
          subst heq
          exact .inl ⟨hw, (some.inj h).symm⟩
      · cases h
  · next hnone =>
      split at h
      · next hv => exact .inr ⟨hnone, hv, (some.inj h).symm⟩
      · cases h

/-- An assignment goes through for what is there and for the next place. -/
theorem isSome_assign : (L.assign slots place k v).isSome ↔
    L.entries k = some v ∨ (L.entries k = none ∧ place v = slots L.count) := by
  constructor
  · intro h
    obtain ⟨F, hF⟩ := isSome_iff_exists.mp h
    rcases assign_eq_some hF with ⟨hk, -⟩ | ⟨hk, hv, -⟩
    · exact .inl hk
    · exact .inr ⟨hk, hv⟩
  · intro h
    rcases h with hk | ⟨hk, hv⟩
    · simp [assign_of_some hk]
    · simp [assign_of_none hk hv]

theorem sub_assign (h : L.assign slots place k v = some F) : Sub L.entries F.entries := by
  rcases assign_eq_some h with ⟨-, rfl⟩ | ⟨hnone, -, rfl⟩
  · exact fun _ _ hw => hw
  · exact sub_update hnone

theorem entry_assign (h : L.assign slots place k v = some F) : F.entries k = some v := by
  rcases assign_eq_some h with ⟨hk, rfl⟩ | ⟨-, -, rfl⟩
  · exact hk
  · exact update_self ..

theorem sub_run (h : L.run slots place ops = some F) : Sub L.entries F.entries := by
  induction ops generalizing L with
  | nil =>
    cases h
    exact fun _ _ hw => hw
  | cons _ _ ih =>
    obtain ⟨_, hM, h⟩ := bind_eq_some_iff.mp h
    exact fun k v hk => ih h k v (sub_assign hM k v hk)

theorem Dense.assign (hL : Dense slots place L) (hslots : Injective slots)
    (h : L.assign slots place k v = some F) : Dense slots place F := by
  rcases assign_eq_some h with ⟨-, rfl⟩ | ⟨hnone, hv, rfl⟩
  · exact hL
  · constructor
    · intro k' w hw
      rcases of_update_eq hw with ⟨rfl, ⟨⟩⟩ | ⟨-, hold⟩
      · exact ⟨L.count, lt_succ_self _, hv⟩
      · obtain ⟨i, hi, hwi⟩ := hL.numbered hold
        exact ⟨i, lt_succ_of_lt hi, hwi⟩
    · intro k1 k2 w1 w2 h1 h2 heq
      by_cases hk1 : k1 = k
      · by_cases hk2 : k2 = k
        · exact hk1.trans hk2.symm
        · subst hk1
          simp only [update_self, some.injEq, update_of_ne hk2] at h1 h2
          exact absurd (heq.symm.trans (h1 ▸ hv)) (hL.place_ne hslots h2)
      · simp only [update_of_ne hk1] at h1
        by_cases hk2 : k2 = k
        · subst hk2
          simp only [update_self, some.injEq] at h2
          exact absurd (heq.trans (h2 ▸ hv)) (hL.place_ne hslots h1)
        · simp only [update_of_ne hk2] at h2
          exact hL.unique h1 h2 heq
    · intro i hi
      by_cases hlast : i = L.count
      · subst hlast
        exact ⟨k, v, update_self .., hv⟩
      · obtain ⟨k', w, hw, hwi⟩ := hL.onto i (lt_of_le_of_ne (le_of_lt_succ hi) hlast)
        exact ⟨k', w, sub_update hnone k' w hw, hwi⟩

theorem Dense.run (hL : Dense slots place L) (hslots : Injective slots)
    (h : L.run slots place ops = some F) : Dense slots place F := by
  induction ops generalizing L with
  | nil =>
    cases h
    exact hL
  | cons _ _ ih =>
    obtain ⟨_, hM, h⟩ := bind_eq_some_iff.mp h
    exact ih (hL.assign hslots hM) h

/-- The same run from a dense part of the result that has everything the run starts from. -/
theorem run_of_dense_sub (hslots : Injective slots) (hL : Dense slots place L)
    (hG : Dense slots place G) (hrun : L.run slots place ops = some F)
    (hLG : Sub L.entries G.entries) (hGF : Sub G.entries F.entries) :
    G.run slots place ops = some F := by
  induction ops generalizing L G with
  | nil =>
    have hend : L = F := some.inj hrun
    subst hend
    have heq : G.entries = L.entries := hGF.antisymm hLG
    rw [hG.eq_of_entries hL hslots heq]
    rfl
  | cons op _ ih =>
    obtain ⟨k, v⟩ := op
    obtain ⟨M, hM, hrest⟩ := bind_eq_some_iff.mp hrun
    replace hM : L.assign slots place k v = some M := hM
    have hF := hL.run hslots hrun
    have hFk : F.entries k = some v := sub_run hrest k v (entry_assign hM)
    have hMdense := hL.assign hslots hM
    cases hGk : G.entries k with
    | some w =>
      have hwv : w = v := some.inj ((hGF k w hGk).symm.trans hFk)
      subst hwv
      have hMG : Sub M.entries G.entries := by
        rcases assign_eq_some hM with ⟨-, rfl⟩ | ⟨-, -, rfl⟩
        · exact hLG
        · exact hLG.update hGk
      show (G.assign slots place k w).bind _ = _
      rw [assign_of_some hGk]
      exact ih hMdense hG hrest hMG hGF
    | none =>
      rcases assign_eq_some hM with ⟨hk, -⟩ | ⟨_, hv, hMeq⟩
      · exact absurd ((hLG k v hk).symm.trans hGk) (by simp)
      · -- A key with the next place of `L` would be `k` itself, so `G` ends there too.
        have hcount : G.count = L.count := by
          have hle := hL.count_le_of_sub hG hslots hLG
          by_contra hne
          obtain ⟨k', w, hw, hwi⟩ := hG.onto L.count (by omega)
          have hk : k' = k := hF.unique (hGF k' w hw) hFk (hwi.trans hv.symm)
          exact absurd ((hk ▸ hw).symm.trans hGk) (by simp)
        have hstep : G.assign slots place k v =
            some ⟨update G.entries k (some v), G.count + 1⟩ :=
          assign_of_none hGk (hcount ▸ hv)
        show (G.assign slots place k v).bind _ = _
        rw [hstep]
        refine ih hMdense (hG.assign hslots hstep) hrest ?_ (hGF.update hFk)
        rw [hMeq]
        apply Sub.update
        · exact fun k' w hw => sub_update hGk k' w (hLG k' w hw)
        · exact update_self ..

/-- A whole run, from a dense part of its result. -/
theorem run_of_dense (hslots : Injective slots) (hG : Dense slots place G)
    (hrun : empty.run slots place ops = some F) (hGF : Sub G.entries F.entries) :
    G.run slots place ops = some F :=
  run_of_dense_sub hslots (dense_empty slots place) hG hrun (fun _ _ h => nomatch h) hGF

end Ledger
end ArcGraph.Foundation
