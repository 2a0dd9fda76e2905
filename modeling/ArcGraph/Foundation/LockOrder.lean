import Mathlib.Data.List.Destutter
import ArcGraph.Foundation.Sorting

/-!
# Locks taken in one order

Threads that take the locks of a list in ascending order wait only for locks above those
they hold. Along a chain of waiting threads the awaited locks then ascend, and no chain
closes (`not_waits_cycle`).
-/

namespace ArcGraph.Foundation
variable {θ κ : Type} [LinearOrder κ] (keys : List κ)

/-- The keys of a request, sorted and with adjacent repetitions removed. -/
def lockOrder : List κ := (sortBy (fun k => k) keys).destutter (· ≠ ·)

theorem pairwise_lockOrder : (lockOrder keys).Pairwise (· < ·) := by
  have hsorted : (lockOrder keys).Pairwise (· ≤ ·) :=
    (pairwise_sortBy (fun k => k) keys).sublist (List.destutter_sublist _ _)
  have hne : (lockOrder keys).IsChain (· ≠ ·) := List.isChain_destutter _ _
  rw [← List.isChain_iff_pairwise, List.isChain_iff_getElem]
  intro i hi
  rw [List.isChain_iff_getElem] at hne
  exact lt_of_le_of_ne (List.pairwise_iff_getElem.mp hsorted i (i + 1) _ hi (by omega)) (hne i hi)

/-- `t` waits for a lock that `t'` holds. -/
def WaitsFor (awaits : θ → Option κ) (holder : κ → Option θ) (t t' : θ) : Prop :=
  ∃ k, awaits t = some k ∧ holder k = some t'

variable {awaits : θ → Option κ} {holder : κ → Option θ}

variable (hasc : ∀ t k k', holder k = some t → awaits t = some k' → k < k')
include hasc

/-- Where whoever holds a lock waits only for locks above it, the awaited locks ascend along
every chain of waiting threads. -/
theorem awaited_lt_of_chain {t t' : θ} {k k' : κ}
    (h : Relation.TransGen (WaitsFor awaits holder) t t') (hk : awaits t = some k)
    (hk' : awaits t' = some k') : k < k' := by
  induction h generalizing k' with
  | single hwaits =>
    obtain ⟨k1, hk1, hholder⟩ := hwaits
    cases hk.symm.trans hk1
    exact hasc _ k k' hholder hk'
  | tail _ hwaits ih =>
    obtain ⟨k1, hk1, hholder⟩ := hwaits
    exact lt_trans (ih hk1) (hasc _ k1 k' hholder hk')

theorem not_waits_cycle (t : θ) : ¬ Relation.TransGen (WaitsFor awaits holder) t t := by
  intro h
  obtain ⟨t', ⟨k, hk, -⟩, -⟩ := Relation.TransGen.head'_iff.mp h
  exact lt_irrefl k (awaited_lt_of_chain hasc h hk hk)

end ArcGraph.Foundation
