import ArcGraph.Index.Secondary
import ArcGraph.Index.TreeSplit

/-!
# Overflow chains

A chain of overflow pages holds a list of slots. Every page but the last is full, so
an append goes to the end of the list wherever in the chain its search starts
(`appendAtOrPastTail_spec`): a cached tail may be stale as long as it points into the chain.
-/

namespace ArcGraph.Index.Secondary
open Function List Nat

/-- The chain from page `head` on: its pages and their slots in order. -/
inductive ChainAt (pages : Nat → Option SecondaryPage) : Nat → List Nat → List NodeId → Prop
  | nil : ChainAt pages 0 [] []
  | cons {id : Nat} {o : OverflowPage} {ids : List Nat} {nodes : List NodeId} (hid : id ≠ 0)
      (hpage : pages id = some (.overflow o))
      (hfull : o.next ≠ 0 → overflowSlotsPerPage ≤ o.slots.length)
      (hrest : ChainAt pages o.next ids nodes) : ChainAt pages id (id :: ids) (o.slots ++ nodes)

variable {pages pages' : Nat → Option SecondaryPage} {head id t fuel : Nat} {ids : List Nat}
  {nodes : List NodeId} {s : State} {node : NodeId} {o : OverflowPage}

namespace ChainAt

theorem frame (hc : ChainAt pages head ids nodes) (hpages : ∀ i ∈ ids, pages' i = pages i) :
    ChainAt pages' head ids nodes := by
  induction hc with
  | nil => exact .nil
  | cons hid hpage hfull _ ih =>
    refine .cons hid ((hpages _ mem_cons_self).trans hpage) hfull ?_
    exact ih fun i hi => hpages i (mem_cons_of_mem _ hi)

theorem mapped (hc : ChainAt pages head ids nodes) :
    ∀ i ∈ ids, i ≠ 0 ∧ ∃ o, pages i = some (.overflow o) := by
  induction hc with
  | nil => simp
  | cons hid hpage _ _ ih => exact forall_mem_cons.mpr ⟨⟨hid, _, hpage⟩, ih⟩

theorem lt_nextPage (hc : ChainAt s.pages head ids nodes) (hs : s.Fresh) :
    ∀ i ∈ ids, i < s.nextPage := by
  intro i hi
  obtain ⟨-, o, hpage⟩ := hc.mapped i hi
  exact hs.lt hpage

theorem length_le (hc : ChainAt s.pages head ids nodes) (hs : s.Fresh)
    (hids : ids.Nodup) : ids.length ≤ s.nextPage := by
  have hsub : ids ⊆ range s.nextPage := fun i hi =>
    mem_range.mpr (hc.lt_nextPage hs i hi)
  simpa using hids.length_le_of_subset hsub

theorem eq_cons (hc : ChainAt pages head ids nodes) (hhead : head ≠ 0) :
    ∃ rest, ids = head :: rest := by
  cases hc with
  | nil => exact absurd rfl hhead
  | cons => exact ⟨_, rfl⟩

theorem head_mem (hc : ChainAt pages head ids nodes) (hhead : head ≠ 0) : head ∈ ids := by
  obtain ⟨_, rfl⟩ := hc.eq_cons hhead
  exact mem_cons_self

theorem head_eq (hc : ChainAt pages head (id :: ids) nodes) : id ≠ 0 ∧ head = id := by
  cases hc with
  | cons hid => exact ⟨hid, rfl⟩

theorem head_zero (hc : ChainAt pages 0 ids nodes) : ids = [] ∧ nodes = [] := by
  generalize hzero : 0 = head at hc
  cases hc with
  | nil => exact ⟨rfl, rfl⟩
  | cons hid => exact absurd hzero.symm hid

theorem split (hc : ChainAt pages head ids nodes) (ht : t ∈ ids) :
    ∃ before after nodesBefore nodesAfter, ids = before ++ after ∧
      nodes = nodesBefore ++ nodesAfter ∧ ChainAt pages t after nodesAfter ∧
      ∀ {pages' : Nat → Option SecondaryPage} {after' : List Nat} {nodesAfter' : List NodeId},
        (∀ i ∈ before, pages' i = pages i) → ChainAt pages' t after' nodesAfter' →
        ChainAt pages' head (before ++ after') (nodesBefore ++ nodesAfter') := by
  induction hc with
  | nil => simp at ht
  | @cons id o ids nodes hid hpage hfull hrest ih =>
    by_cases heq : t = id
    · subst heq
      exact ⟨[], _, [], _, rfl, rfl, .cons hid hpage hfull hrest, fun _ hc' => hc'⟩
    · obtain ⟨before, after, nodesBefore, nodesAfter, rfl, rfl, hat, hex⟩ :=
        ih ((mem_cons.mp ht).resolve_left heq)
      refine ⟨id :: before, after, o.slots ++ nodesBefore, nodesAfter, rfl,
        (append_assoc ..).symm, hat, fun hsame hc' => ?_⟩
      rw [append_assoc]
      exact .cons hid ((hsame id mem_cons_self).trans hpage) hfull
        (hex (fun i hi => hsame i (mem_cons_of_mem _ hi)) hc')

end ChainAt

def TailHasRoom (pages : Nat → Option SecondaryPage) (ids : List Nat) : Prop :=
  ∀ t ∈ ids, ∀ o, pages t = some (.overflow o) → o.next = 0 →
    o.slots.length < overflowSlotsPerPage

/-! ## The loops over a chain -/

theorem latchOverflow_spec (hpage : s.pages id = some (.overflow o)) :
    ∃ s', latchOverflow id s = .ok o s' ∧ SameTree s s' := by
  obtain ⟨s', hrun, hsame⟩ := captureFromGuard_same (K := SecondaryKey) id
    (.overflow o : SecondaryPage) s
  refine ⟨s', ?_, hsame⟩
  simp [latchOverflow, latch_of_some hpage, hrun]

theorem collectChain_spec (hc : ChainAt s.pages head ids nodes)
    (hfuel : ids.length ≤ fuel) : collectChain fuel head s = .ok (nodes.filter (· ≠ 0)) s := by
  generalize hpages : s.pages = pages at hc
  induction hc generalizing fuel with
  | nil => cases fuel <;> rfl
  | @cons id o ids nodes hid hpage _ _ ih =>
    obtain ⟨fuel, rfl⟩ : ∃ n, fuel = n + 1 := ⟨fuel - 1, by simp at hfuel; omega⟩
    rw [collectChain, if_neg hid]
    simp only [bind_apply, latch_of_some ((congrFun hpages id).trans hpage),
      ih (le_of_succ_le_succ hfuel), pure_apply, filter_append]

section
variable {s₁ : State} {o : OverflowPage} {id owner fuel : Nat}

variable (node owner fuel) in
theorem appendAtOrPastTail_room (hlatch : latchOverflow id s = .ok o s₁)
    (hroom : o.slots.length < overflowSlotsPerPage) :
    appendAtOrPastTail owner node (fuel + 1) id s = .ok () { s₁ with
      pages := update s₁.pages id (some (.overflow (o.append node)))
      staged := s₁.staged ++ [(id, .overflow (o.append node))]
      extra := { s₁.extra with
        overflowTailCache := update s₁.extra.overflowTailCache owner (some id) } } := by
  simp [appendAtOrPastTail, hlatch, if_pos hroom, cacheTail]

theorem appendAtOrPastTail_walk (hlatch : latchOverflow id s = .ok o s₁)
    (hfull : ¬o.slots.length < overflowSlotsPerPage) (hnext : o.next ≠ 0) :
    appendAtOrPastTail owner node (fuel + 1) id s =
      appendAtOrPastTail owner node fuel o.next s₁ := by
  simp only [appendAtOrPastTail, bind_apply, hlatch, if_neg hfull, if_pos hnext]

variable (node owner fuel) in
theorem appendAtOrPastTail_grow (hlatch : latchOverflow id s = .ok o s₁)
    (hfull : ¬o.slots.length < overflowSlotsPerPage) (hnext : o.next = 0)
    (hfree : s₁.pages s₁.nextPage = none) :
    appendAtOrPastTail owner node (fuel + 1) id s = .ok () { s₁ with
      pages := update (update s₁.pages s₁.nextPage (some (.overflow ⟨[node], 0⟩)))
        id (some (.overflow { o with next := s₁.nextPage }))
      nextPage := s₁.nextPage + 1
      log := { s₁.log with newPages := s₁.log.newPages ++ [s₁.nextPage] }
      staged := s₁.staged ++ [(s₁.nextPage, .overflow ⟨[node], 0⟩),
        (id, .overflow { o with next := s₁.nextPage })]
      extra := { s₁.extra with
        overflowTailCache :=
          update s₁.extra.overflowTailCache owner (some s₁.nextPage) } } := by
  simp [appendAtOrPastTail, hlatch, if_neg hfull, hnext, installForTxn_of_none, hfree, cacheTail]

end

/-- A new node goes to the end of the chain, wherever in it the search starts. The chain
gets no new page as long as its last one has room. -/
theorem appendAtOrPastTail_spec (owner : Nat) (node : NodeId)
    (hc : ChainAt s.pages t ids nodes) (ht : t ≠ 0) (hids : ids.Nodup) (hfuel : ids.length ≤ fuel)
    (hs : s.Fresh) :
    ∃ s' ids' tail, appendAtOrPastTail owner node fuel t s = .ok () s' ∧ Edits ids s s' ∧
      ChainAt s'.pages t ids' (nodes ++ [node]) ∧ Extends s s' ids ids' ∧
      (TailHasRoom s.pages ids → ids' = ids) ∧ tail ∈ ids' ∧ s'.extra = { s.extra with
        overflowTailCache := update s.extra.overflowTailCache owner (some tail) } := by
  generalize hpages : s.pages = pages at hc
  induction hc generalizing fuel s with
  | nil => exact absurd rfl ht
  | @cons id o ids nodes hid hpage hfull hrest ih =>
    obtain ⟨fuel, rfl⟩ : ∃ n, fuel = n + 1 := ⟨fuel - 1, by simp at hfuel; omega⟩
    have hpage' := (congrFun hpages id).trans hpage
    obtain ⟨s1, hlatch, hsame⟩ := latchOverflow_spec hpage'
    have hidlt : id < s.nextPage := hs.lt hpage'
    have hs1 : s1.Fresh := (hsame.grows hs).fresh
    by_cases hroom : o.slots.length < overflowSlotsPerPage
    · -- only the last page has room
      have hnext : o.next = 0 := by
        by_contra hne
        have := hfull hne
        omega
      rw [hnext] at hrest
      obtain ⟨rfl, rfl⟩ := hrest.head_zero
      refine ⟨_, [id], id, appendAtOrPastTail_room _ _ _ hlatch hroom, ?_, ?_, .refl _ _ _,
        fun _ => rfl, mem_cons_self, ?_⟩
      · refine .of_pages hs (by simpa using hidlt) (fun i hi _ => ?_) hsame.nextPage.ge
          hsame.rootCache hsame.rootChanges
        show update s1.pages id _ i = s.pages i
        rw [update_of_ne (by simpa using hi), hsame.pages]
      · have hchain : ChainAt (update s1.pages id (some (.overflow (o.append node)))) id
            [id] ((o.append node).slots ++ []) :=
          .cons hid (update_self ..) (fun h => absurd hnext h)
            (by rw [OverflowPage.append, hnext]; exact .nil)
        simpa [OverflowPage.append] using hchain
      · simp only [hsame.extra]
    · by_cases hnext : o.next = 0
      · rw [hnext] at hrest
        obtain ⟨rfl, rfl⟩ := hrest.head_zero
        have hne : s1.nextPage ≠ id := by
          rw [hsame.nextPage]
          omega
        refine ⟨_, [id, s1.nextPage], s1.nextPage,
          appendAtOrPastTail_grow _ _ _ hlatch hroom hnext (hs1 _ (le_refl _)), ?_, ?_, ?_,
          fun htail => ?_, by simp, ?_⟩
        · refine .of_pages hs (by simpa using hidlt) (fun i hi hlt => ?_) ?_ hsame.rootCache
            hsame.rootChanges
          · have hlt' : i < s.nextPage ∨ s1.nextPage + 1 ≤ i := hlt
            have hne' : i ≠ s1.nextPage := by
              rw [hsame.nextPage] at hlt' ⊢
              omega
            show update (update s1.pages s1.nextPage _) id _ i = s.pages i
            rw [update_of_ne (by simpa using hi), update_of_ne hne', hsame.pages]
          · show s.nextPage ≤ s1.nextPage + 1
            rw [hsame.nextPage]
            omega
        · have hpos : s1.nextPage ≠ 0 := by
            rw [hsame.nextPage]
            omega
          have hlast : ChainAt (update (update s1.pages s1.nextPage
              (some (.overflow ⟨[node], 0⟩))) id (some (.overflow { o with next := s1.nextPage })))
              s1.nextPage [s1.nextPage] ([node] ++ []) :=
            .cons hpos ((update_of_ne hne _ _).trans (update_self ..))
              (fun h => absurd rfl h) .nil
          have hchain := ChainAt.cons (o := { o with next := s1.nextPage }) hid
            (update_self ..) (fun _ => not_lt.mp hroom) hlast
          simpa using hchain
        · refine ⟨[s1.nextPage], by simp, by simp, forall_mem_singleton.mpr ?_⟩
          exact ⟨hsame.nextPage.ge, lt_succ_self _⟩
        · exact absurd (htail id mem_cons_self o hpage hnext) hroom
        · simp only [hsame.extra]
      · obtain ⟨hnot, hids'⟩ := nodup_cons.mp hids
        obtain ⟨s', ids', tail, hrun, hedits, hchain, hext, hsameIds, htail, hextra⟩ := ih
          (s := s1) hnext hids' (le_of_succ_le_succ hfuel) hs1 (hsame.pages.trans hpages)
        have hedits' := (hsame.grows hs).toEdits.trans hedits
        refine ⟨s', id :: ids', tail, ?_, hedits'.mono ?_, ?_, ?_, fun hroom' => ?_,
          mem_cons_of_mem _ htail, ?_⟩
        · rw [appendAtOrPastTail_walk hlatch hroom hnext, hrun]
        · intro i hi
          exact mem_cons_of_mem _ hi
        · rw [append_assoc]
          refine .cons hid ?_ hfull hchain
          rw [hedits'.kept id hidlt (by simpa using hnot), hpage']
        · have hext' := (Extends.refl s s1 ids).trans hext hsame.nextPage.ge hedits.nextPage
          simpa using hext'.wrap [id] []
        · rw [hsameIds fun i hi => hroom' i (mem_cons_of_mem _ hi)]
        · rw [hextra, hsame.extra]

/-! ### Removal -/

theorem tombstone_append (slots slots' : List NodeId) :
    tombstone node (slots ++ slots') = tombstone node slots ++ tombstone node slots' :=
  map_append

theorem length_tombstone (slots : List NodeId) : (tombstone node slots).length = slots.length :=
  length_map _

theorem tombstone_eq_self {slots : List NodeId}
    (h : (decide (node ≠ 0) && slots.contains node) = false) : tombstone node slots = slots := by
  refine (map_congr_left fun slot hslot => ?_).trans (map_id _)
  by_cases heq : slot = node
  · subst heq
    have hzero : slot = 0 := by simpa [hslot] using h
    simp [hzero]
  · simp [heq]

theorem removeFromChain_step (node : NodeId) (fuel : Nat) (hid : id ≠ 0)
    (hpage : s.pages id = some (.overflow o)) :
    ∃ s₁ : State, s₁.pages = update s.pages id
        (some (.overflow { o with slots := tombstone node o.slots })) ∧
      s₁.nextPage = s.nextPage ∧ s₁.rootCache = s.rootCache ∧
      s₁.log.rootChanges = s.log.rootChanges ∧ s₁.extra = s.extra ∧
      removeFromChain node (fuel + 1) id s = (do
        let rest ← removeFromChain node fuel o.next
        return (decide (node ≠ 0) && o.slots.contains node) || rest : SecondaryM Bool) s₁ := by
  obtain ⟨s0, hlatch, hsame⟩ := latchOverflow_spec hpage
  by_cases hchanged : (decide (node ≠ 0) && o.slots.contains node) = true
  · refine ⟨{ s0 with
      pages := update s0.pages id (some (.overflow { o with slots := tombstone node o.slots }))
      staged := s0.staged ++ [(id, .overflow { o with slots := tombstone node o.slots })] },
      by simp only [hsame.pages], hsame.nextPage, hsame.rootCache, hsame.rootChanges,
      hsame.extra, ?_⟩
    rw [removeFromChain, if_neg hid]
    simp only [bind_apply, hlatch, if_pos hchanged, writePage_apply, stageEmit_apply]
  · refine ⟨s0, ?_, hsame.nextPage, hsame.rootCache, hsame.rootChanges, hsame.extra, ?_⟩
    · rw [tombstone_eq_self (Bool.not_eq_true _ ▸ hchanged), hsame.pages]
      exact (update_eq_self_iff.mpr hpage.symm).symm
    · rw [removeFromChain, if_neg hid]
      simp only [bind_apply, hlatch, if_neg hchanged, pure_apply]

theorem removeFromChain_spec (node : NodeId) (hc : ChainAt s.pages head ids nodes)
    (hids : ids.Nodup) (hfuel : ids.length ≤ fuel) (hs : s.Fresh) :
    ∃ s', removeFromChain node fuel head s =
        .ok (decide (node ≠ 0) && nodes.contains node) s' ∧ Grows ids s s' ∧
      ChainAt s'.pages head ids (tombstone node nodes) ∧ s'.nextPage = s.nextPage := by
  -- a step changes its own page, so the states of the induction agree on the rest of the chain
  generalize hpages : s.pages = pages at hc
  replace hpages : ∀ i ∈ ids, s.pages i = pages i := fun i _ => congrFun hpages i
  induction hc generalizing fuel s with
  | nil =>
    refine ⟨s, ?_, .refl _ hs, .nil, rfl⟩
    cases fuel <;> simp [removeFromChain]
  | @cons id o ids nodes hid hpage hfull hrest ih =>
    obtain ⟨fuel, rfl⟩ : ∃ n, fuel = n + 1 := ⟨fuel - 1, by simp at hfuel; omega⟩
    obtain ⟨hnot, hids'⟩ := nodup_cons.mp hids
    have hpage' := (hpages id mem_cons_self).trans hpage
    obtain ⟨s1, hpages1, hnext, hroot, hchanges, hextra, hstep⟩ :=
      removeFromChain_step node fuel hid hpage'
    have hlt : id < s.nextPage := hs.lt hpage'
    have hgrows1 : Grows [id] s s1 := by
      refine ⟨.of_pages hs (by simpa using hlt) (fun i hi _ => ?_) hnext.ge hroot hchanges, hextra⟩
      rw [hpages1, update_of_ne (by simpa using hi)]
    have hagree : ∀ i ∈ ids, s1.pages i = pages i := by
      intro i hi
      rw [hpages1, update_of_ne fun h : i = id => hnot (h ▸ hi)]
      exact hpages i (mem_cons_of_mem _ hi)
    obtain ⟨s', hrun, hgrows, hchain, hnext'⟩ :=
      ih hids' (le_of_succ_le_succ hfuel) hgrows1.fresh hagree
    refine ⟨s', ?_, hgrows1.trans hgrows, ?_, hnext'.trans hnext⟩
    · rw [hstep]
      simp [hrun, Bool.and_or_distrib_left]
    · rw [tombstone_append]
      refine .cons (o := { o with slots := tombstone node o.slots }) hid ?_ (fun h => ?_) hchain
      · rw [hgrows.kept id (hnext ▸ hlt) hnot, hpages1, update_self]
      · exact (length_tombstone o.slots).ge.trans' (hfull h)

end ArcGraph.Index.Secondary
