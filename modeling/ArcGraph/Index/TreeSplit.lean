import ArcGraph.Index.TreeShape

/-!
# A split reaches an internal page

An internal page that is told of a split of one of its children takes the new
separator, and is split itself when it is full. `insertSplit_spec` says that the
node is whole again behind it, or in two halves with a separator for its own
parent. `Grows` and `Extends` say what any part of a write leaves alone: the pages
it did not touch, and the pages of the tree, to which only new ones are added.
-/

namespace ArcGraph.Index
open Foundation Function List Nat

/-! ## Pairs of an internal page -/

section
variable {K : Type} [LinearOrder K] {k : K} {left right pairs : List (K × Nat)}

theorem findChild_eq (first : Nat) (hleft : ∀ p ∈ left, p.1 ≤ k) (hright : ∀ p ∈ right, k < p.1) :
    findChild first (left ++ right) k = childBehind first left := by
  have hcut : bisect (fun i => (left ++ right)[i]?.any (·.1 ≤ k)) (left ++ right).length 0
      (left ++ right).length = left.length := by
    refine bisect_eq (le_refl _) (zero_le _) (by simp) (fun i _ hi => ?_)
      (fun i hi hlt => ?_)
    · rw [getElem?_append_left hi, getElem?_eq_getElem hi]
      simpa using hleft _ (getElem_mem hi)
    · rw [getElem?_append_right hi]
      have hi' : i - left.length < right.length := by
        simp only [length_append] at hlt
        omega
      rw [getElem?_eq_getElem hi']
      simpa using hright _ (getElem_mem hi')
  rw [findChild]
  simp only [hcut]
  rcases eq_nil_or_concat left with rfl | ⟨init, ⟨k', c⟩, rfl⟩
  · rfl
  · simp [childBehind_append]

def insertSorted (k : K) (c : Nat) : List (K × Nat) → List (K × Nat)
  | [] => [(k, c)]
  | p :: rest => if p.1 < k then p :: insertSorted k c rest else (k, c) :: p :: rest

variable (c : Nat)

theorem insertSorted_append (hleft : ∀ p ∈ left, p.1 < k) :
    insertSorted k c (left ++ right) = left ++ insertSorted k c right := by
  induction left with
  | nil => rfl
  | cons p _ ih =>
    rw [cons_append, insertSorted, if_pos (hleft p mem_cons_self),
      ih fun q hq => hleft q (mem_cons_of_mem _ hq), cons_append]

theorem insertSorted_cons_of_lt {p : K × Nat} (hp : k < p.1) :
    insertSorted k c (pairs ++ p :: right) = insertSorted k c pairs ++ p :: right := by
  induction pairs with
  | nil => simp [insertSorted, hp.not_gt]
  | cons _ _ ih =>
    simp only [cons_append, insertSorted]
    split
    · rw [ih, cons_append]
    · rfl

theorem insertSorted_of_lt (hright : ∀ p ∈ right, k < p.1) :
    insertSorted k c right = (k, c) :: right := by
  cases right with
  | nil => rfl
  | cons p => simp [insertSorted, (hright p mem_cons_self).not_gt]

theorem length_insertSorted : (insertSorted k c pairs).length = pairs.length + 1 := by
  induction pairs with
  | nil => rfl
  | cons _ _ ih =>
    rw [insertSorted]
    split
    · simp [ih]
    · simp

theorem pairPosition_absent (hne : ∀ p ∈ pairs, p.1 ≠ k) :
    ∃ pos, pairPosition pairs k = .absent pos ∧
      pairs.insertIdx pos (k, c) = insertSorted k c pairs := by
  induction pairs with
  | nil => exact ⟨0, rfl, rfl⟩
  | cons p _ ih =>
    obtain ⟨pos, hpos, hins⟩ := ih fun q hq => hne q (mem_cons_of_mem _ hq)
    rcases lt_or_gt_of_ne (hne p mem_cons_self) with hlt | hgt
    · refine ⟨pos + 1, ?_, ?_⟩
      · simp only [pairPosition, compare_lt_iff_lt.mpr hlt, hpos]
      · rw [insertIdx_succ_cons, hins, insertSorted, if_pos hlt]
    · refine ⟨0, ?_, ?_⟩
      · simp only [pairPosition, compare_gt_iff_gt.mpr hgt]
      · rw [insertIdx_zero, insertSorted, if_neg hgt.not_gt]

theorem insertPair_ok (cfg : TreeConfig K) (id c : Nat) (hlen : pairs.length < cfg.internalCapacity)
    (hne : ∀ p ∈ pairs, p.1 ≠ k) : insertPair cfg id pairs k c = .ok (insertSorted k c pairs) := by
  obtain ⟨_, hpos, hins⟩ := pairPosition_absent c hne
  simp only [insertPair, if_neg (not_le.mpr hlen), hpos, hins]

omit [LinearOrder K] in
theorem splitInternal_ok (id : Nat) (hlen : 2 ≤ pairs.length) :
    ∃ left p right, pairs = left ++ p :: right ∧ left.length = pairs.length / 2 ∧
      splitInternal id pairs = .ok ⟨left, p.1, p.2, right⟩ := by
  have hdrop : pairs.drop (pairs.length / 2) ≠ [] := by
    intro hnil
    have := drop_eq_nil_iff.mp hnil
    omega
  obtain ⟨p, right, hp⟩ := exists_cons_of_ne_nil hdrop
  refine ⟨pairs.take (pairs.length / 2), p, right, ?_, ?_, ?_⟩
  · rw [← hp, take_append_drop]
  · rw [length_take]
    omega
  · rw [splitInternal, hp]
    simp only [if_neg (not_lt.mpr hlen)]

omit [LinearOrder K] in
theorem splitLeaf_ok {E : Type} {entries : List E} (key : E → K) (id : Nat)
    (hlen : 2 ≤ entries.length) :
    ∃ left mid right, entries = left ++ mid :: right ∧ left.length = entries.length / 2 ∧
      splitLeaf key id entries = .ok ⟨left, key mid, mid :: right⟩ := by
  have hdrop : entries.drop (entries.length / 2) ≠ [] := by
    intro hnil
    have := drop_eq_nil_iff.mp hnil
    omega
  obtain ⟨mid, right, hmid⟩ := exists_cons_of_ne_nil hdrop
  refine ⟨entries.take (entries.length / 2), mid, right, ?_, ?_, ?_⟩
  · rw [← hmid, take_append_drop]
  · rw [length_take]
    omega
  · rw [splitLeaf, hmid]
    simp only [if_neg (not_lt.mpr hlen)]

end

/-! ## How the store grows -/

section
variable {P σ : Type} {s s' s'' : IndexState P σ} {i : Nat}

/-- No page is mapped at an id that is still to be allocated. -/
def IndexState.Fresh (s : IndexState P σ) : Prop := ∀ i, s.nextPage ≤ i → s.pages i = none

theorem IndexState.Fresh.lt (hs : s.Fresh) {page : P} (hi : s.pages i = some page) :
    i < s.nextPage := by
  by_contra hlt
  simp [hs i (by omega)] at hi

/-- The states agree on all but the mutation log and the staged images. -/
structure SameTree (s s' : IndexState P σ) : Prop where
  pages : s'.pages = s.pages
  rootCache : s'.rootCache = s.rootCache
  rootChanges : s'.log.rootChanges = s.log.rootChanges
  nextPage : s'.nextPage = s.nextPage
  extra : s'.extra = s.extra

theorem SameTree.refl (s : IndexState P σ) : SameTree s s := ⟨rfl, rfl, rfl, rfl, rfl⟩

theorem SameTree.trans (h1 : SameTree s s') (h2 : SameTree s' s'') : SameTree s s'' :=
  ⟨h2.pages.trans h1.pages, h2.rootCache.trans h1.rootCache, h2.rootChanges.trans h1.rootChanges,
    h2.nextPage.trans h1.nextPage, h2.extra.trans h1.extra⟩

theorem captureFromGuard_same {K : Type} (id : Nat) (page : P) (s : IndexState P σ) :
    ∃ s', captureFromGuard (K := K) id page s = .ok () s' ∧ SameTree s s' := by
  rw [captureFromGuard]
  split
  · exact ⟨s, rfl, .refl s⟩
  · exact ⟨_, rfl, ⟨rfl, rfl, rfl, rfl, rfl⟩⟩

/-- A part of a write: of the pages there were, only the touched ones may differ. -/
structure Edits (touched : List Nat) (s s' : IndexState P σ) : Prop where
  kept : ∀ i, i < s.nextPage → i ∉ touched → s'.pages i = s.pages i
  fresh : s'.Fresh
  nextPage : s.nextPage ≤ s'.nextPage
  rootCache : s'.rootCache = s.rootCache
  rootChanges : s'.log.rootChanges = s.log.rootChanges

variable {a b newIds ids : List Nat}

theorem Edits.trans (h1 : Edits a s s') (h2 : Edits b s' s'') : Edits (a ++ b) s s'' where
  kept := by
    intro i hi hnot
    have hmem := mem_append.not.mp hnot
    rw [h2.kept i (lt_of_lt_of_le hi h1.nextPage) fun h => hmem (.inr h),
      h1.kept i hi fun h => hmem (.inl h)]
  fresh := h2.fresh
  nextPage := le_trans h1.nextPage h2.nextPage
  rootCache := h2.rootCache.trans h1.rootCache
  rootChanges := h2.rootChanges.trans h1.rootChanges

theorem Edits.mono (h : Edits a s s') (hsub : ∀ i ∈ a, i ∈ b) : Edits b s s' :=
  { h with kept := fun i hi hnot => h.kept i hi fun ha => hnot (hsub i ha) }

theorem Edits.of_pages {touched : List Nat} (hs : s.Fresh)
    (htouched : ∀ i ∈ touched, i < s.nextPage)
    (hkept : ∀ i, i ∉ touched → i < s.nextPage ∨ s'.nextPage ≤ i → s'.pages i = s.pages i)
    (hnext : s.nextPage ≤ s'.nextPage) (hroot : s'.rootCache = s.rootCache)
    (hchanges : s'.log.rootChanges = s.log.rootChanges) : Edits touched s s' where
  kept i hlt hnot := hkept i hnot (.inl hlt)
  fresh := by
    intro i hle
    have hnot : i ∉ touched := fun hmem => by
      have := htouched i hmem
      omega
    rw [hkept i hnot (.inr hle), hs i (hnext.trans hle)]
  nextPage := hnext
  rootCache := hroot
  rootChanges := hchanges

/-- A part of a write that only the tree is concerned with. -/
structure Grows (touched : List Nat) (s s' : IndexState P σ) : Prop extends Edits touched s s' where
  extra : s'.extra = s.extra

theorem Grows.refl (touched : List Nat) (hs : s.Fresh) : Grows touched s s :=
  ⟨⟨fun _ _ _ => rfl, hs, le_refl _, rfl, rfl⟩, rfl⟩

theorem Grows.trans (h1 : Grows a s s') (h2 : Grows b s' s'') : Grows (a ++ b) s s'' :=
  ⟨h1.toEdits.trans h2.toEdits, h2.extra.trans h1.extra⟩

theorem Grows.mono (h : Grows a s s') (hsub : ∀ i ∈ a, i ∈ b) : Grows b s s' :=
  ⟨h.toEdits.mono hsub, h.extra⟩

theorem SameTree.grows (h : SameTree s s') (hs : s.Fresh) : Grows [] s s' :=
  ⟨⟨fun _ _ _ => by rw [h.pages], fun i hi => by rw [h.pages]; exact hs i (h.nextPage ▸ hi),
    h.nextPage.ge, h.rootCache, h.rootChanges⟩, h.extra⟩

/-- The pages of a tree behind a write: those it had and newly allocated ones. -/
def Extends (s s' : IndexState P σ) (ids newIds : List Nat) : Prop :=
  ∃ fresh : List Nat, newIds.Perm (ids ++ fresh) ∧ fresh.Nodup ∧
    ∀ i ∈ fresh, s.nextPage ≤ i ∧ i < s'.nextPage

theorem Extends.refl (s s' : IndexState P σ) (ids : List Nat) : Extends s s' ids ids :=
  ⟨[], by simp, nodup_nil, by simp⟩

theorem Extends.one (h : newIds.Perm (ids ++ [s.nextPage]))
    (hnext : s'.nextPage = s.nextPage + 1) : Extends s s' ids newIds :=
  ⟨[s.nextPage], h, by simp, by simp [hnext]⟩

section
variable (h : Extends s s' ids newIds)
include h

theorem Extends.nodup (hids : ids.Nodup) (hlt : ∀ i ∈ ids, i < s.nextPage) : newIds.Nodup := by
  obtain ⟨_, hperm, hnodup, hfresh⟩ := h
  rw [hperm.nodup_iff, nodup_append]
  refine ⟨hids, hnodup, fun i hi j hj hij => ?_⟩
  have := hlt i hi
  have := (hfresh j hj).1
  omega

theorem Extends.mem (hi : i ∈ newIds) : i ∈ ids ∨ s.nextPage ≤ i ∧ i < s'.nextPage := by
  obtain ⟨_, hperm, -, hfresh⟩ := h
  rcases mem_append.mp (hperm.mem_iff.mp hi) with hi | hi
  · exact .inl hi
  · exact .inr (hfresh i hi)

theorem Extends.wrap (l r : List Nat) : Extends s s' (l ++ ids ++ r) (l ++ newIds ++ r) := by
  obtain ⟨fresh, hperm, hfresh⟩ := h
  refine ⟨fresh, ?_, hfresh⟩
  rw [perm_iff_count] at hperm ⊢
  intro i
  have := hperm i
  simp only [count_append] at this ⊢
  omega

end

theorem Extends.trans {c : List Nat} (h1 : Extends s s' a b) (h2 : Extends s' s'' b c)
    (hle1 : s.nextPage ≤ s'.nextPage) (hle2 : s'.nextPage ≤ s''.nextPage) : Extends s s'' a c := by
  obtain ⟨fresh1, hperm1, hnodup1, hfresh1⟩ := h1
  obtain ⟨fresh2, hperm2, hnodup2, hfresh2⟩ := h2
  refine ⟨fresh1 ++ fresh2, ?_, ?_, ?_⟩
  · rw [← append_assoc]
    exact hperm2.trans (hperm1.append_right _)
  · refine nodup_append.mpr ⟨hnodup1, hnodup2, fun i hi j hj => ?_⟩
    have := hfresh1 i hi
    have := hfresh2 j hj
    omega
  · refine forall_mem_append.mpr ⟨fun i hi => ?_, fun i hi => ?_⟩
    · have := hfresh1 i hi
      omega
    · have := hfresh2 i hi
      omega

end

/-! ## A split reaches an internal page -/

variable {K E X σ : Type} [LinearOrder K] {cfg : TreeConfig K} {key : E → K}
  {s : IndexState (Page K E X) σ} {id first c h : Nat} {lo hi : Option K} {sep : K}
  {pairs left right : List (K × Nat)} {es : List E} {ids : List Nat}

/-- A node behind an operation under it: whole, or in two with a separator for the
parent. -/
def Outcome (cfg : TreeConfig K) (key : E → K) (pages : Nat → Option (Page K E X)) (h : Nat)
    (lo hi : Option K) (id : Nat) (es : List E) (ids : List Nat) : Option (SplitInfo K) → Prop
  | none => Subtree cfg key pages h lo hi id es ids
  | some split => Separates lo hi split.promotedKey ∧ ∃ es₁ es₂ ids₁ ids₂,
      es = es₁ ++ es₂ ∧ ids = ids₁ ++ ids₂ ∧
      Subtree cfg key pages h lo (some split.promotedKey) id es₁ ids₁ ∧
      Subtree cfg key pages h (some split.promotedKey) hi split.newRightPage es₂ ids₂

theorem insertSplit_room (hpage : s.pages id = some (.internal first pairs))
    (hlen : pairs.length < cfg.internalCapacity) (hne : ∀ p ∈ pairs, p.1 ≠ sep) :
    insertSplit cfg id ⟨sep, c⟩ s = .ok none { s with
      pages := update s.pages id (some (.internal first (insertSorted sep c pairs)))
      staged := s.staged ++ [(id, .internal first (insertSorted sep c pairs))] } := by
  simp only [insertSplit, bind_apply, latch_of_some hpage, if_neg (not_le.mpr hlen),
    insertPair_ok cfg id c hlen hne, liftExcept_ok, writePage_apply, stageEmit_apply, pure_apply]

def withPair (sep : K) (c : Nat) (left : List (K × Nat)) (p : K × Nat) (right : List (K × Nat)) :
    List (K × Nat) × List (K × Nat) :=
  if sep < p.1 then (insertSorted sep c left, right) else (left, insertSorted sep c right)

theorem insertSorted_withPair {p : K × Nat} (hleft : ∀ q ∈ left, q.1 < p.1) (hne : p.1 ≠ sep) :
    insertSorted sep c (left ++ p :: right) =
      (withPair sep c left p right).1 ++ p :: (withPair sep c left p right).2 := by
  rcases lt_or_gt_of_ne hne with hgt | hlt
  · have hbelow : ∀ q ∈ left ++ [p], q.1 < sep := by
      refine forall_mem_append.mpr ⟨fun q hq => ?_, forall_mem_singleton.mpr hgt⟩
      exact (hleft q hq).trans hgt
    rw [withPair, if_neg hgt.not_gt, append_cons, insertSorted_append c hbelow,
      append_assoc, singleton_append]
  · rw [withPair, if_pos hlt, insertSorted_cons_of_lt c hlt]

theorem length_withPair (sep : K) (c : Nat) (left : List (K × Nat)) (p : K × Nat)
    (right : List (K × Nat)) : (withPair sep c left p right).1.length ≤ left.length + 1 ∧
      (withPair sep c left p right).2.length ≤ right.length + 1 := by
  rw [withPair]
  split <;> simp [length_insertSorted]

theorem insertSplit_full {p : K × Nat} (hpage : s.pages id = some (.internal first pairs))
    (hlen : cfg.internalCapacity ≤ pairs.length)
    (hsplit : splitInternal id pairs = .ok ⟨left, p.1, p.2, right⟩)
    (hleft : left.length < cfg.internalCapacity) (hright : right.length < cfg.internalCapacity)
    (hneLeft : ∀ q ∈ left, q.1 ≠ sep) (hneRight : ∀ q ∈ right, q.1 ≠ sep)
    (hfree : s.pages s.nextPage = none) (hid : id ≠ s.nextPage) :
    insertSplit cfg id ⟨sep, c⟩ s = .ok (some ⟨p.1, s.nextPage⟩) { s with
      pages := update
        (update s.pages id (some (.internal first (withPair sep c left p right).1)))
        s.nextPage (some (.internal p.2 (withPair sep c left p right).2))
      nextPage := s.nextPage + 1
      log := { s.log with newPages := s.log.newPages ++ [s.nextPage] }
      staged := s.staged ++ [(s.nextPage, .internal p.2 (withPair sep c left p right).2),
        (id, .internal first (withPair sep c left p right).1)] } := by
  have hfree' : ∀ page, update s.pages id (some page) s.nextPage = none := by
    intro page
    rw [update_of_ne hid.symm, hfree]
  by_cases hlt : sep < p.1
  · simp only [insertSplit, bind_apply, latch_of_some hpage, if_pos hlen, alloc_apply, hsplit,
      liftExcept_ok, writePage_apply, if_pos hlt, insertPair_ok cfg id c hleft hneLeft,
      stageEmit_apply, withPair, update_idem, installForTxn_of_none, hfree', pure_apply,
      append_assoc, cons_append, nil_append]
  · simp only [insertSplit, bind_apply, latch_of_some hpage, if_pos hlen, alloc_apply, hsplit,
      liftExcept_ok, writePage_apply, if_neg hlt, insertPair_ok cfg s.nextPage c hright hneRight,
      stageEmit_apply, withPair, installForTxn_of_none, hfree', pure_apply,
      append_assoc, cons_append, nil_append]

/-- An internal page takes the separator of a child that was split. -/
theorem insertSplit_spec (hfresh : s.Fresh)
    (hpage : s.pages id = some (.internal first (left ++ right)))
    (hlen : (left ++ right).length ≤ cfg.internalCapacity)
    (hchain : Chain (Subtree cfg key s.pages h) lo hi first (left ++ (sep, c) :: right) es ids)
    (hid : id ∉ ids) :
    ∃ s' pending newIds, insertSplit cfg id ⟨sep, c⟩ s = .ok pending s' ∧ Grows [id] s s' ∧
      Outcome cfg key s'.pages (h + 1) lo hi id es newIds pending ∧
      Extends s s' (id :: ids) newIds ∧
      ((left ++ right).length < cfg.internalCapacity → pending = none) := by
  obtain ⟨hleftAsc, hrightAsc, hbelow, habove⟩ := ascendingBy_insert.mp hchain.ascending
  have hpairs : AscendingBy Prod.fst (left ++ right) :=
    ascendingBy_append.mpr ⟨hleftAsc, hrightAsc, fun x hx y hy => (hbelow x hx).trans (habove y hy)⟩
  have hinsert : insertSorted sep c (left ++ right) = left ++ (sep, c) :: right := by
    rw [insertSorted_append c hbelow, insertSorted_of_lt c habove]
  have hne : ∀ p ∈ left ++ right, p.1 ≠ sep := by
    refine forall_mem_append.mpr ⟨fun p hp => ?_, fun p hp => ?_⟩
    · exact (hbelow p hp).ne
    · exact (habove p hp).ne'
  have hidlt : id < s.nextPage := hfresh.lt hpage
  have hidslt : ∀ i ∈ ids, i < s.nextPage := hchain.forall_ids fun hc i hi => by
    obtain ⟨_, hi⟩ := hc.mapped i hi
    exact hfresh.lt hi
  rcases lt_or_ge (left ++ right).length cfg.internalCapacity with hroom | hfull
  · refine ⟨_, _, id :: ids, insertSplit_room hpage hroom hne, ?_, ?_, .refl _ _ _, fun _ => rfl⟩
    · refine ⟨.of_pages hfresh (by simpa using hidlt) (fun i hnot _ => ?_) (le_refl _) rfl rfl, rfl⟩
      exact update_of_ne (by simpa using hnot) _ _
    · refine ⟨first, _, ids, update_self .., ?_, ?_, rfl⟩
      · rw [length_insertSorted]
        omega
      · rw [hinsert]
        refine hchain.mono fun hc hsub => hc.frame fun i hi => ?_
        exact update_of_ne (fun h : i = id => hid (h ▸ hsub i hi)) _ _
  · have htwo : 2 ≤ (left ++ right).length := cfg.two_le_internal.trans hfull
    obtain ⟨L, p, R, hLR, _, hsplit⟩ := splitInternal_ok id htwo
    have hRlen : L.length + R.length + 1 = (left ++ right).length := by
      rw [hLR]
      simp only [length_append, length_cons]
      omega
    obtain ⟨-, -, hLp, -⟩ := ascendingBy_insert.mp (hLR ▸ hpairs)
    rw [hLR] at hne
    have hneL : ∀ q ∈ L, q.1 ≠ sep := fun q hq => hne q (mem_append_left _ hq)
    have hneR : ∀ q ∈ R, q.1 ≠ sep := fun q hq =>
      hne q (mem_append_right _ (mem_cons_of_mem _ hq))
    have hrun := insertSplit_full (c := c) hpage hfull hsplit (by omega) (by omega) hneL hneR
      (hfresh _ (le_refl _)) hidlt.ne
    rw [← hinsert, hLR, insertSorted_withPair hLp (hne p (by simp))] at hchain
    obtain ⟨es1, es2, ids1, ids2, hsep, hchain1, hchain2, rfl, rfl⟩ := chain_append.mp hchain
    have hlens := length_withPair sep c L p R
    generalize withPair sep c L p R = halves at hrun hchain1 hchain2 hlens
    have hkept : ∀ i ∈ ids1 ++ ids2, update (update s.pages id
        (some (.internal first halves.1))) s.nextPage (some (.internal p.2 halves.2)) i =
          s.pages i := by
      intro i hmem
      rw [update_of_ne (hidslt i hmem).ne, update_of_ne]
      exact fun h => hid (h ▸ hmem)
    refine ⟨_, _, (id :: ids1) ++ (s.nextPage :: ids2), hrun, ?_, ?_, ?_, fun h => by omega⟩
    · refine ⟨.of_pages hfresh (by simpa using hidlt) (fun i hnot hlt => ?_) (le_succ _)
        rfl rfl, rfl⟩
      have hne : i ≠ s.nextPage := by
        have hlt' : i < s.nextPage ∨ s.nextPage + 1 ≤ i := hlt
        omega
      exact (update_of_ne hne _ _).trans (update_of_ne (by simpa using hnot) _ _)
    · refine ⟨hsep, es1, es2, _, _, rfl, rfl, ⟨first, halves.1, ids1, ?_, by omega, ?_, rfl⟩,
        ⟨p.2, halves.2, ids2, update_self .., by omega, ?_, rfl⟩⟩
      · exact (update_of_ne hidlt.ne _ _).trans (update_self ..)
      · exact hchain1.mono fun hc hsub => hc.frame fun i hi =>
          hkept i (mem_append_left _ (hsub i hi))
      · exact hchain2.mono fun hc hsub => hc.frame fun i hi =>
          hkept i (mem_append_right _ (hsub i hi))
    · refine .one (perm_iff_count.mpr fun i => ?_) rfl
      simp only [count_append, count_cons, count_nil]
      omega

end ArcGraph.Index
