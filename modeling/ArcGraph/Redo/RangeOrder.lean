import ArcGraph.Redo.Apply

/-!
# Redo order

`sort_by_redo_range` sorts bundles by their redo range and then compares each range only with
the unique one before it. In sorted order that is enough: it accepts exactly the ranges of
which any two are equal or disjoint.
-/

namespace ArcGraph.Redo
open Foundation List

def redoKey (r : RedoLsnRange) : Nat ×ₗ Nat := toLex (r.base, r.end)

/-- Equal, or without a common LSN. -/
def Consistent (a b : RedoLsnRange) : Prop := a = b ∨ a.end < b.base ∨ b.end < a.base

/-- The ranges that begin behind a hole: another one lies below, and none ends right before. -/
def afterGap (ranges : Finset RedoLsnRange) : Finset RedoLsnRange :=
  ranges.filter fun r => (∃ q ∈ ranges, q.base < r.base) ∧ ∀ q ∈ ranges, q.end + 1 ≠ r.base

variable {p c : RedoLsnRange} {l : List RedoLsnRange}

theorem base_le_of_redoKey (h : redoKey p ≤ redoKey c) : p.base ≤ c.base := by
  rcases Prod.Lex.toLex_le_toLex.mp h with h | h
  · exact h.le
  · exact h.1.le

theorem card_afterGap_insert {ranges : Finset RedoLsnRange} (hp : p.end < c.base)
    (hc : c ∈ ranges) (hl : ∀ r ∈ ranges, r = c ∨ c.end < r.base) :
    (afterGap (insert p ranges)).card =
      (afterGap ranges).card + if p.end + 1 < c.base then 1 else 0 := by
  have hle := RedoLsnRange.base_le_end
  split
  · have heq : afterGap (insert p ranges) = insert c (afterGap ranges) := by
      ext r
      simp only [afterGap, Finset.mem_filter, Finset.mem_insert]
      grind
    rw [heq, Finset.card_insert_of_notMem]
    simp only [afterGap, Finset.mem_filter]
    grind
  · congr 1
    ext r
    simp only [afterGap, Finset.mem_filter, Finset.mem_insert]
    grind

/-- What the loop asks of a range and a later one. -/
def EqOrAfter (a b : RedoLsnRange) : Prop := b = a ∨ a.end < b.base

theorem eqOrAfter_of_checkRedoOrder {stats out : RedoOrderStats}
    (hsorted : (p :: l).Pairwise fun a b => redoKey a ≤ redoKey b)
    (h : checkRedoOrder id l (some p) stats = .ok out) : (p :: l).Pairwise EqOrAfter := by
  induction l generalizing p stats with
  | nil => exact pairwise_singleton _ _
  | cons c l ih =>
    obtain ⟨hle, htail⟩ := pairwise_cons.mp hsorted
    simp only [checkRedoOrder, id] at h
    split at h
    · rename_i hcp
      subst hcp
      have hrest := ih htail h
      exact pairwise_cons.mpr ⟨forall_mem_cons.mpr ⟨.inl rfl,
        (pairwise_cons.mp hrest).1⟩, hrest⟩
    · split at h
      · cases h
      · rename_i hlt
        refine pairwise_cons.mpr ⟨fun r hr => .inr ?_, ih htail h⟩
        have hcr : c.base ≤ r.base := by
          rcases mem_cons.mp hr with rfl | hr
          · exact le_rfl
          · exact base_le_of_redoKey ((pairwise_cons.mp htail).1 r hr)
        omega

theorem checkRedoOrder_of_eqOrAfter (stats : RedoOrderStats) (h : (p :: l).Pairwise EqOrAfter) :
    ∃ out, checkRedoOrder id l (some p) stats = .ok out ∧
      out.duplicateRanges + (p :: l).toFinset.card = stats.duplicateRanges + (p :: l).length ∧
      out.gaps = stats.gaps + (afterGap (p :: l).toFinset).card := by
  induction l generalizing p stats with
  | nil => exact ⟨stats, rfl, by simp, by simp [afterGap, Finset.filter_singleton]⟩
  | cons c l ih =>
    obtain ⟨hp, htail⟩ := pairwise_cons.mp h
    simp only [checkRedoOrder, id]
    split
    · rename_i hcp
      subst hcp
      obtain ⟨out, hout, hdup, hgaps⟩ := ih ⟨stats.duplicateRanges + 1, stats.gaps⟩ htail
      refine ⟨out, hout, ?_, ?_⟩
      · simp only [toFinset_cons, Finset.insert_idem, length_cons] at hdup ⊢
        omega
      · simpa using hgaps
    · rename_i hcp
      have hlt : p.end < c.base := (hp c mem_cons_self).resolve_left hcp
      have hc : ∀ r ∈ (c :: l).toFinset, r = c ∨ c.end < r.base := by
        intro r hr
        rcases mem_cons.mp (mem_toFinset.mp hr) with heq | hr
        · exact .inl heq
        · exact (pairwise_cons.mp htail).1 r hr
      have hnot : p ∉ (c :: l).toFinset := by
        intro hmem
        have := p.base_le_end
        have := c.base_le_end
        rcases hc p hmem with heq | hlt'
        · exact hcp heq.symm
        · omega
      obtain ⟨out, hout, hdup, hgaps⟩ := ih (if p.end + 1 < c.base then
        { stats with gaps := stats.gaps + 1 } else stats) htail
      rw [if_neg (by omega)]
      refine ⟨out, hout, ?_, ?_⟩
      · rw [toFinset_cons, Finset.card_insert_of_notMem hnot, length_cons]
        simp only [apply_ite RedoOrderStats.duplicateRanges, ite_self] at hdup
        omega
      · rw [toFinset_cons, card_afterGap_insert hlt (by simp) hc, hgaps]
        simp only [apply_ite RedoOrderStats.gaps]
        split <;> omega

section
variable (hsorted : l.Pairwise fun a b => redoKey a ≤ redoKey b)
include hsorted

theorem checkRedoOrder_none :
    ((∃ stats, checkRedoOrder id l none {} = .ok stats) ↔ l.Pairwise EqOrAfter) ∧
    ∀ stats, checkRedoOrder id l none {} = .ok stats →
      stats.duplicateRanges + l.toFinset.card = l.length ∧
      stats.gaps = (afterGap l.toFinset).card := by
  cases l with
  | nil => simp +contextual [checkRedoOrder, afterGap, eq_comm]
  | cons p l =>
    refine ⟨⟨fun ⟨_, h⟩ => eqOrAfter_of_checkRedoOrder hsorted h, fun h => ?_⟩, fun stats h => ?_⟩
    · obtain ⟨out, hout, -⟩ := checkRedoOrder_of_eqOrAfter {} h
      exact ⟨out, hout⟩
    · obtain ⟨out, hout, hcounts⟩ :=
        checkRedoOrder_of_eqOrAfter {} (eqOrAfter_of_checkRedoOrder hsorted h)
      cases h.symm.trans hout
      simpa using hcounts

theorem pairwise_eqOrAfter_iff : l.Pairwise EqOrAfter ↔ ∀ a ∈ l, ∀ b ∈ l, Consistent a b := by
  constructor
  · intro h
    have : Std.Symm Consistent := ⟨fun a b => .imp .symm .symm⟩
    refine fun a ha b hb => Pairwise.forall_of_forall (fun _ _ => .inl rfl) ?_ ha hb
    exact h.imp fun hab => hab.imp .symm .inl
  · intro h
    refine hsorted.imp_of_mem fun {a b} ha hb hle => ?_
    have hbase := base_le_of_redoKey hle
    have := b.base_le_end
    rcases h a ha b hb with heq | hlt | hlt
    · exact .inl heq.symm
    · exact .inr hlt
    · omega

end

variable {α : Type} (rangeOf : α → RedoLsnRange)

theorem checkRedoOrder_map (l : List α) (previous : Option RedoLsnRange) (stats : RedoOrderStats) :
    checkRedoOrder rangeOf l previous stats = checkRedoOrder id (l.map rangeOf) previous stats := by
  induction l generalizing previous stats with
  | nil => rfl
  | cons b l ih => cases previous <;> simp [checkRedoOrder, ih]

/-- The call succeeds exactly if any two ranges are equal or disjoint. It then returns the
bundles sorted by the start of their ranges, with the numbers of repeated ranges and of gaps. -/
theorem sortByRedoRange_ok_iff (bundles : List α) :
    ((∃ out, sortByRedoRange rangeOf bundles = .ok out) ↔
      ∀ a ∈ bundles, ∀ b ∈ bundles, Consistent (rangeOf a) (rangeOf b)) ∧
    ∀ stats sorted, sortByRedoRange rangeOf bundles = .ok (stats, sorted) →
      sorted.Perm bundles ∧
      sorted.Pairwise (fun a b => (rangeOf a).base ≤ (rangeOf b).base) ∧
      stats.duplicateRanges + (bundles.map rangeOf).toFinset.card = bundles.length ∧
      stats.gaps = (afterGap (bundles.map rangeOf).toFinset).card := by
  have hperm := perm_sortBy (fun b => redoKey (rangeOf b)) bundles
  have hsorted := pairwise_sortBy (fun b => redoKey (rangeOf b)) bundles
  have hranges : ((sortBy (fun b => redoKey (rangeOf b)) bundles).map rangeOf).Pairwise
      fun a b => redoKey a ≤ redoKey b := pairwise_map.mpr hsorted
  have hcall : ∀ stats sorted, sortByRedoRange rangeOf bundles = .ok (stats, sorted) ↔
      checkRedoOrder id ((sortBy (fun b => redoKey (rangeOf b)) bundles).map rangeOf) none {} =
        .ok stats ∧ sortBy (fun b => redoKey (rangeOf b)) bundles = sorted := by
    intro stats sorted
    rw [sortByRedoRange, bind_eq_ok, checkRedoOrder_map]
    simp [redoKey, pure_eq_ok]
  obtain ⟨hok, hstats⟩ := checkRedoOrder_none hranges
  refine ⟨?_, fun stats sorted h => ?_⟩
  · rw [pairwise_eqOrAfter_iff hranges] at hok
    simpa [hcall] using hok
  · obtain ⟨hcheck, rfl⟩ := (hcall stats sorted).mp h
    have hcounts := hstats stats hcheck
    rw [toFinset_eq_of_perm _ _ (hperm.map rangeOf), length_map, length_sortBy]
      at hcounts
    exact ⟨hperm, hsorted.imp base_le_of_redoKey, hcounts⟩

end ArcGraph.Redo
