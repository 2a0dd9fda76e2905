import ArcGraph.Index.OverflowChain
import ArcGraph.Index.TreeWrite

/-!
# The slots of a key

The nodes of a key stand in slots: four of them inline in its leaf entry, the rest on
its chain. `Stores` says which slots the index has for each key, and that the chains
share no page with each other or with the tree. An operation under one key therefore
changes the slots of that key only (`Stores.update`).

The tail cache is part of it: what it says about a chain is a page of that chain.
-/

namespace ArcGraph.Index.Secondary
open Foundation Function

structure Slots where
  inline : List NodeId
  chain : List NodeId
deriving DecidableEq

def Slots.empty : Slots := ⟨[0, 0, 0, 0], []⟩

variable (sl : Slots) (node : NodeId)

/-- A node takes the first empty inline slot, else a new one at the end of the chain. -/
def Slots.insert : Slots :=
  match sl.inline.findIdx? (· = 0) with
  | some pos => { sl with inline := sl.inline.set pos node }
  | none => { sl with chain := sl.chain ++ [node] }

def Slots.Full : Prop := sl.inline.findIdx? (· = 0) = none

def Slots.remove : Slots :=
  ⟨tombstone node sl.inline, tombstone node sl.chain⟩

def Slots.has : Bool := (sl.inline ++ sl.chain).contains node

def Slots.live : List NodeId := (sl.inline ++ sl.chain).filter (· ≠ 0)

/-! ## Slots on pages -/

/-- The slots `sl` as the inline array of an entry and a chain on the pages `cids`. -/
structure EntryHolds (s : State) (e : LeafEntry) (cids : List Nat) (sl : Slots) : Prop where
  inline : e.inline = sl.inline
  chain : ChainAt s.pages e.overflowHead cids sl.chain
  cached : ∀ t, s.extra.overflowTailCache e.overflowHead = some t → e.overflowHead ≠ 0 → t ∈ cids

def Under (s : State) (cids : List Nat) (sl : Slots) : Option LeafEntry → Prop
  | none => cids = [] ∧ sl = .empty
  | some e => EntryHolds s e cids sl

structure Stores (s : State) (es : List LeafEntry) (ids : List Nat)
    (chains : SecondaryKey → List Nat) (m : SecondaryKey → Slots) : Prop where
  under : ∀ k, Under s (chains k) (m k) (findKey LeafEntry.key es k)
  encodable : ∀ k, findKey LeafEntry.key es k ≠ none → k.Encodable
  nodup : ∀ k, (chains k).Nodup
  apart : ∀ k k', k ≠ k' → ∀ i ∈ chains k, i ∉ chains k'
  tree : ∀ k, ∀ i ∈ chains k, i ∉ ids
  bounded : ∀ k, ∀ i ∈ chains k, i < s.nextPage

section
variable {s s' : State} {es es' : List LeafEntry} {ids ids' cids : List Nat}
  {chains : SecondaryKey → List Nat} {m : SecondaryKey → Slots} {sl : Slots} {k : SecondaryKey}
  {e : LeafEntry} {found : Option LeafEntry}

theorem EntryHolds.frame (h : EntryHolds s e cids sl) (hpages : ∀ i ∈ cids, s'.pages i = s.pages i)
    (hcache : ∀ i ∈ cids, s'.extra.overflowTailCache i = s.extra.overflowTailCache i) :
    EntryHolds s' e cids sl := by
  refine ⟨h.inline, h.chain.frame hpages, fun t ht hne => h.cached t ?_ hne⟩
  rw [← hcache _ (h.chain.head_mem hne), ht]

theorem Under.frame (h : Under s cids sl found) (hpages : ∀ i ∈ cids, s'.pages i = s.pages i)
    (hcache : ∀ i ∈ cids, s'.extra.overflowTailCache i = s.extra.overflowTailCache i) :
    Under s' cids sl found := by
  cases found with
  | none => exact h
  | some => exact .frame h hpages hcache

theorem Stores.frame (hst : Stores s es ids chains m) (hnext : s.nextPage ≤ s'.nextPage)
    (hpages : ∀ i, i < s.nextPage → i ∉ ids → s'.pages i = s.pages i)
    (hcache : s'.extra.overflowTailCache = s.extra.overflowTailCache)
    (hids : ∀ i ∈ ids', i ∈ ids ∨ s.nextPage ≤ i) : Stores s' es ids' chains m where
  under k := (hst.under k).frame
    (fun i hi => hpages i (hst.bounded k i hi) (hst.tree k i hi)) fun i _ => by rw [hcache]
  encodable := hst.encodable
  nodup := hst.nodup
  apart := hst.apart
  tree := by
    intro k i hi hmem
    have := hst.bounded k i hi
    rcases hids i hmem with hold | hnew
    · exact hst.tree k i hi hold
    · omega
  bounded k i hi := (hst.bounded k i hi).trans_le hnext

variable (cids) in
theorem Stores.update (hst : Stores s es ids chains m)
    (hothers : ∀ k', k' ≠ k → findKey LeafEntry.key es' k' = findKey LeafEntry.key es k')
    (hnext : s.nextPage ≤ s'.nextPage)
    (hpages : ∀ i, i < s.nextPage → i ∉ ids → i ∉ chains k → s'.pages i = s.pages i)
    (hcache : ∀ i, i ∉ cids → s'.extra.overflowTailCache i = s.extra.overflowTailCache i)
    (hunder : Under s' cids sl (findKey LeafEntry.key es' k))
    (hk : findKey LeafEntry.key es' k ≠ none → k.Encodable) (hext : Extends s s' (chains k) cids)
    (hids : ∀ i ∈ ids', i ∉ cids ∧ (i ∈ ids ∨ s.nextPage ≤ i)) :
    Stores s' es' ids' (update chains k cids) (update m k sl) := by
  have hapart : ∀ k', k' ≠ k → ∀ i ∈ chains k', i ∉ cids := by
    intro k' hk' i hi hmem
    have := hst.bounded k' i hi
    rcases hext.mem hmem with hold | hnew
    · exact hst.apart k' k hk' i hi hold
    · omega
  refine ⟨fun k' => ?_, fun k' hfound => ?_, fun k' => ?_, fun k1 k2 hne i hi => ?_,
    fun k' i hi hmem => ?_, fun k' i hi => ?_⟩
  · by_cases hk' : k' = k
    · subst hk'
      simpa only [update_self] using hunder
    · rw [update_of_ne hk', update_of_ne hk', hothers k' hk']
      exact (hst.under k').frame (fun i hi => hpages i (hst.bounded k' i hi) (hst.tree k' i hi)
        (hst.apart k' k hk' i hi)) fun i hi => hcache i (hapart k' hk' i hi)
  · by_cases hk' : k' = k
    · subst hk'
      exact hk hfound
    · exact hst.encodable k' (hothers k' hk' ▸ hfound)
  · by_cases hk' : k' = k
    · subst hk'
      rw [update_self]
      exact hext.nodup (hst.nodup k') (hst.bounded k')
    · rw [update_of_ne hk']
      exact hst.nodup k'
  · by_cases h1 : k1 = k
    · subst h1
      rw [update_self] at hi
      rw [update_of_ne (Ne.symm hne)]
      exact fun h2 => hapart k2 (.symm hne) i h2 hi
    · rw [update_of_ne h1] at hi
      by_cases h2 : k2 = k
      · subst h2
        rw [update_self]
        exact hapart k1 h1 i hi
      · rw [update_of_ne h2]
        exact hst.apart k1 k2 hne i hi
  · obtain ⟨hnot, hold⟩ := hids i hmem
    by_cases hk' : k' = k
    · subst hk'
      rw [update_self] at hi
      exact hnot hi
    · rw [update_of_ne hk'] at hi
      have := hst.bounded k' i hi
      rcases hold with hold | hnew
      · exact hst.tree k' i hi hold
      · omega
  · by_cases hk' : k' = k
    · subst hk'
      rw [update_self] at hi
      rcases hext.mem hi with hold | hnew
      · exact (hst.bounded k' i hold).trans_le hnext
      · exact hnew.2
    · rw [update_of_ne hk'] at hi
      exact (hst.bounded k' i hi).trans_le hnext

end

/-! ## A node that has no room inline -/

variable {s : State} {e : LeafEntry} {cids : List Nat} {sl : Slots} {node : NodeId}

theorem appendToOverflowChain_newHead (hhead : e.overflowHead = 0) (hs : s.Fresh) :
    appendToOverflowChain e node s = .ok (some s.nextPage) { s with
      pages := update s.pages s.nextPage (some (.overflow ⟨[node], 0⟩))
      nextPage := s.nextPage + 1
      log := { s.log with newPages := s.log.newPages ++ [s.nextPage] }
      staged := s.staged ++ [(s.nextPage, .overflow ⟨[node], 0⟩)]
      extra := { s.extra with
        overflowTailCache :=
          update s.extra.overflowTailCache s.nextPage (some s.nextPage) } } := by
  have hfree := hs _ (Nat.le_refl s.nextPage)
  rw [appendToOverflowChain, if_pos hhead]
  simp only [bind_apply, alloc_apply, stageEmit_apply, installForTxn_of_none, hfree, cacheTail,
    modify_apply, pure_apply]

theorem appendToOverflowChain_spec (node : NodeId) (he : EntryHolds s e cids sl)
    (hids : cids.Nodup) (hs : s.Fresh) (hpos : 0 < s.nextPage) :
    ∃ s' newHead cids', appendToOverflowChain e node s = .ok newHead s' ∧ Edits cids s s' ∧
      Extends s s' cids cids' ∧ (e.overflowHead ≠ 0 → TailHasRoom s.pages cids → cids' = cids) ∧
      EntryHolds s' { e with overflowHead := newHead.getD e.overflowHead } cids'
        { sl with chain := sl.chain ++ [node] } ∧
      ∀ i, i ∉ cids' → s'.extra.overflowTailCache i = s.extra.overflowTailCache i := by
  by_cases hhead : e.overflowHead = 0
  · have hchain := he.chain
    rw [hhead] at hchain
    obtain ⟨rfl, hempty⟩ := hchain.head_zero
    refine ⟨_, _, [s.nextPage], appendToOverflowChain_newHead hhead hs, ?_, ?_,
      fun h => absurd hhead h, ⟨he.inline, ?_, ?_⟩, fun i hi => ?_⟩
    · refine .of_pages hs (by simp) (fun i _ hi => ?_) (Nat.le_succ _) rfl rfl
      have hi' : i < s.nextPage ∨ s.nextPage + 1 ≤ i := hi
      exact update_of_ne (by omega) _ _
    · exact .one (.refl _) rfl
    · have hlast : ChainAt (update s.pages s.nextPage (some (.overflow ⟨[node], 0⟩)))
          s.nextPage [s.nextPage] ([node] ++ []) :=
        .cons hpos.ne' (update_self ..) (fun h => absurd rfl h) .nil
      simpa [hempty] using hlast
    · intro t ht _
      cases (update_self ..).symm.trans ht
      exact List.mem_singleton_self _
    · exact update_of_ne (by simpa using hi) _ _
  · -- the search starts somewhere in the chain
    obtain ⟨t, ht, htail⟩ : ∃ t ∈ cids,
        (s.extra.overflowTailCache e.overflowHead).getD e.overflowHead = t := by
      cases hcache : s.extra.overflowTailCache e.overflowHead with
      | none => exact ⟨_, he.chain.head_mem hhead, rfl⟩
      | some t => exact ⟨t, he.cached t hcache hhead, rfl⟩
    obtain ⟨before, _, _, _, hsplit, hnodes, hat, hrefill⟩ := he.chain.split ht
    have hnodup := hids
    rw [hsplit] at hnodup
    obtain ⟨-, hafter, hdisjoint⟩ := List.nodup_append.mp hnodup
    have hlt : ∀ i ∈ cids, i < s.nextPage := he.chain.lt_nextPage hs
    obtain ⟨s', after', tail, hrun, hedits, hchain, hext, hsame, htail', hextra⟩ :=
      appendAtOrPastTail_spec e.overflowHead node hat (he.chain.mapped t ht).1 hafter
        (hat.length_le hs hafter) hs
    have hbefore : ∀ i ∈ before, s'.pages i = s.pages i := by
      intro i hi
      refine hedits.kept i (hlt i (by simp [hsplit, hi])) fun hmem => ?_
      exact hdisjoint i hi i hmem rfl
    have hwhole := hrefill hbefore hchain
    have hext' : Extends s s' cids (before ++ after') := by
      simpa [hsplit] using hext.wrap before []
    refine ⟨s', none, before ++ after', ?_, hedits.mono fun i hi => by simp [hsplit, hi], hext',
      fun _ hroom => ?_, ⟨he.inline, ?_, ?_⟩, ?_⟩
    · rw [appendToOverflowChain, if_neg hhead]
      simp only [bind_apply, get_apply, htail, hrun, pure_apply]
    · rw [hsame fun i hi => hroom i (by simp [hsplit, hi]), hsplit]
    · simpa [hnodes] using hwhole
    · intro t' ht' _
      rw [hextra] at ht'
      cases (update_self ..).symm.trans ht'
      exact List.mem_append_right _ htail'
    · intro i hi
      have hne : i ≠ e.overflowHead := by
        rintro rfl
        exact hi (hwhole.head_mem hhead)
      rw [hextra]
      exact update_of_ne hne _ _

end ArcGraph.Index.Secondary
