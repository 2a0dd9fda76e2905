import ArcGraph.Index.SecondarySlots

/-!
# The operations of the secondary index at a leaf

An operation reaches the leaf of its key with the tree as it was. What it leaves
behind is a `LeafResult`: the tree is ready for the way back up, and the slots of its
key are what `Slots.insert` or `Slots.remove` makes of them.
-/

namespace ArcGraph.Index.Secondary
open Foundation Function List Option Slots

/-! ## Leaf pages -/

section
variable {entries : List LeafEntry} {k : SecondaryKey} {node : NodeId} {leafId : Nat}

theorem insertEntry_fresh (leafId : Nat) (node : NodeId) (hk : k.Encodable)
    (h : AscendingBy LeafEntry.key entries) (hnone : findKey LeafEntry.key entries k = none)
    (hroom : entries.length < leafCapacity) :
    ∃ new, insertEntry leafId entries (.fresh k node) = (new, none) ∧
      UpdatesAt LeafEntry.key k entries new ∧
      findKey LeafEntry.key new k = some (.fresh k node) ∧ new.length = entries.length + 1 := by
  rcases findInLeaf_cases h k with ⟨_, _, _, -, -, -, -, hfind⟩ | ⟨a, b, rfl, ha, hb, habsent, -⟩
  · simp [hfind] at hnone
  · refine ⟨a ++ .fresh k node :: b, ?_, .insert h ha hb rfl, findKey_found ha rfl, ?_⟩
    · have hencode : k.encode = .ok k := hk
      simp only [insertEntry, LeafEntry.fresh, habsent, insertAt, if_neg (Nat.not_le.mpr hroom),
        hencode, insertIdx_append]
    · simp only [length_append, length_cons]
      omega

end

/-! ## What a leaf operation leaves behind -/

variable {s s₁ : State} {h : Nat} {es : List LeafEntry} {ids cids : List Nat} {k : SecondaryKey}
  {node : NodeId} {p : Place SecondaryKey LeafEntry} {lo hi : Option SecondaryKey} {id : Nat}
  {chains : SecondaryKey → List Nat} {m : SecondaryKey → Slots} {sl : Slots}
  {newEs a b : List LeafEntry} {e e' : LeafEntry}

/-- The tree is ready for the way back up, and the slots are those of `m`. -/
def LeafResult (s s₁ : State) (p : Place SecondaryKey LeafEntry)
    (pending : Option (SplitInfo SecondaryKey)) (chains : SecondaryKey → List Nat)
    (m : SecondaryKey → Slots) : Prop :=
  ∃ newEs newIds, LeafDone config LeafEntry.key s s₁ p newEs newIds pending ∧
    Stores s₁ (p.before ++ newEs ++ p.after) (p.idsBefore ++ newIds ++ p.idsAfter) chains m

theorem Stores.found (hst : Stores s es ids chains m)
    (hl : Leads config LeafEntry.key s.pages k h lo hi id es ids p)
    (hentries : p.entries = a ++ e :: b) (hk : e.key = k) (ha : ∀ y ∈ a, y.key < k) :
    EntryHolds s e (chains k) (m k) := by
  have hunder := hst.under k
  rw [hl.findKey_eq, hentries, findKey_found ha hk] at hunder
  exact hunder

theorem writeEntry_grows {leafId : Nat} (hleaf : leafId < s.nextPage) (hs : s.Fresh)
    (a b : List LeafEntry) (e e' : LeafEntry) :
    ∃ s₁, writeEntry leafId (a ++ e :: b) a.length e' s = .ok () s₁ ∧ Grows [leafId] s s₁ ∧
      s₁.pages leafId = some (.leaf (a ++ e' :: b)) := by
  refine ⟨_, rfl, ⟨.of_pages hs (by simpa using hleaf) (fun i hi _ => ?_) le_rfl rfl rfl, rfl⟩, ?_⟩
  · exact update_of_ne (by simpa using hi) _ _
  · simp

theorem Stores.absent (hst : Stores s es ids chains m)
    (hl : Leads config LeafEntry.key s.pages k h lo hi id es ids p)
    (hnone : findKey LeafEntry.key p.entries k = none) : chains k = [] ∧ m k = .empty := by
  have hunder := hst.under k
  rw [hl.findKey_eq, hnone] at hunder
  exact hunder

theorem under_fresh (s : State) (k : SecondaryKey) (node : NodeId) :
    Under s [] (empty.insert node) (some (.fresh k node)) :=
  ⟨rfl, .nil, fun _ _ h => absurd rfl h⟩

section
variable {entries left right new : List LeafEntry} {mid : LeafEntry} {leafId : Nat}
  (hsplit : splitLeaf LeafEntry.key leafId entries = .ok ⟨left, mid.key, mid :: right⟩)
  (hfree : s.pages s.nextPage = none) (hne : leafId ≠ s.nextPage)
include hsplit hfree hne

theorem splitAndInsert_lower (hk : k < mid.key)
    (hinsert : insertEntry leafId left (.fresh k node) = (new, none)) :
    splitAndInsert leafId entries (.fresh k node) s = .ok ⟨mid.key, s.nextPage⟩
      (s.afterSplit leafId new (mid :: right)) := by
  have hfree' := s.update_nextPage hfree hne
  have hk' : (LeafEntry.fresh k node).key < mid.key := hk
  simp only [splitAndInsert, bind_apply, alloc_apply, hsplit, liftExcept_ok, writePage_apply,
    if_pos hk', insertInPlace, hinsert, stageEmit_apply, update_idem,
    installForTxn_of_none, hfree', pure_apply, IndexState.afterSplit, append_assoc,
    cons_append, nil_append]

theorem splitAndInsert_upper (hk : ¬k < mid.key)
    (hinsert : insertEntry s.nextPage (mid :: right) (.fresh k node) = (new, none)) :
    splitAndInsert leafId entries (.fresh k node) s = .ok ⟨mid.key, s.nextPage⟩
      (s.afterSplit leafId left new) := by
  have hfree' := s.update_nextPage hfree hne
  have hk' : ¬(LeafEntry.fresh k node).key < mid.key := hk
  simp only [splitAndInsert, bind_apply, alloc_apply, hsplit, liftExcept_ok, writePage_apply,
    if_neg hk', hinsert, stageEmit_apply, installForTxn_of_none, hfree', pure_apply,
    IndexState.afterSplit, append_assoc, cons_append, nil_append]

end

theorem LeafResult.split {left right : List LeafEntry} {split : SplitInfo SecondaryKey}
    (hst : Stores s es ids chains m) (hl : Leads config LeafEntry.key s.pages k h lo hi id es ids p)
    (hk : k.Encodable) (hnone : findKey LeafEntry.key p.entries k = none)
    (hupd : UpdatesAt LeafEntry.key k p.entries (left ++ right))
    (hfind : findKey LeafEntry.key (left ++ right) k = some (.fresh k node))
    (hdone : LeafDone config LeafEntry.key s (s.afterSplit p.leaf left right) p (left ++ right)
      [p.leaf, s.nextPage] (some split)) :
    LeafResult s (s.afterSplit p.leaf left right) p (some split)
      (update chains k (chains k)) (update m k ((m k).insert node)) := by
  obtain ⟨hchain, hslots⟩ := hst.absent hl hnone
  obtain ⟨hself, hrest⟩ := hl.updates hupd
  refine ⟨_, _, hdone, hst.update (chains k) hrest (Nat.le_succ _) (fun i hi hnot _ => ?_)
    (fun _ _ => rfl) ?_ (fun _ => hk) (.refl _ _ _)
    fun i hi => ⟨by simp [hchain], ?_⟩⟩
  · have hleaf : i ≠ p.leaf := by
      rintro rfl
      exact hnot (by simp [hl.ids_eq])
    exact (update_of_ne hi.ne _ _).trans (update_of_ne hleaf _ _)
  · rw [hself, hfind, hslots, hchain]
    exact under_fresh _ k node
  · rw [hl.ids_eq]
    simp only [mem_append, mem_cons, not_mem_nil, or_false] at hi ⊢
    grind

/-- The entry of a key is as good after a write to a page off its chain. -/
theorem EntryHolds.grows {i : Nat} (he : EntryHolds s e cids sl) (hgrows : Grows [i] s s₁)
    (hlt : ∀ j ∈ cids, j < s.nextPage) (hi : i ∉ cids) : EntryHolds s₁ e cids sl := by
  refine he.frame (fun j hj => hgrows.kept j (hlt j hj) fun hmem => ?_)
    fun _ _ => by rw [hgrows.extra]
  exact hi (mem_singleton.mp hmem ▸ hj)

/-! ## The operations at the leaf of a tree -/

variable (hs : Holds config LeafEntry.key s h es ids) (hst : Stores s es ids chains m)
  (hl : Leads config LeafEntry.key s.pages k h lo hi id es ids p)
include hs hst hl

variable (cids) in
theorem LeafResult.inPlace
    (hedits : Edits (p.leaf :: chains k) s s₁) (hupd : UpdatesAt LeafEntry.key k p.entries newEs)
    (hpage : s₁.pages p.leaf = some (.leaf newEs)) (hlen : newEs.length ≤ leafCapacity)
    (hcache : ∀ i, i ∉ cids → s₁.extra.overflowTailCache i = s.extra.overflowTailCache i)
    (hunder : Under s₁ cids sl (findKey LeafEntry.key newEs k))
    (hk : findKey LeafEntry.key newEs k ≠ none → k.Encodable)
    (hext : Extends s s₁ (chains k) cids) :
    LeafResult s s₁ p none (update chains k cids) (update m k sl) := by
  obtain ⟨-, hleaf, _, hothers⟩ := hl.nodup hs
  obtain ⟨hself, hrest⟩ := hl.updates hupd
  have hids : p.idsBefore ++ [p.leaf] ++ p.idsAfter = ids := by simp [hl.ids_eq]
  have hothers' : ∀ i ∈ p.others, i ∈ ids := by
    intro i hi
    rw [← hids]
    exact Place.mem_ids.mpr (.inr hi)
  refine ⟨newEs, [p.leaf], .inPlace hs hl hedits.rootCache hedits.rootChanges
    hedits.nextPage hupd.ascending (hl.inBounds hupd) hlen hedits.fresh (fun i hi => ?_) hpage,
    hst.update cids hrest hedits.nextPage (fun i hi hnot hchain => ?_) hcache (hself ▸ hunder)
      (hself ▸ hk) hext fun i hi => ?_⟩
  · refine hedits.kept i (hothers i hi) fun hmem => ?_
    rcases mem_cons.mp hmem with rfl | hmem
    · exact hleaf hi
    · exact hst.tree k i hmem (hothers' i hi)
  · refine hedits.kept i hi fun hmem => ?_
    rcases mem_cons.mp hmem with rfl | hmem
    · exact hnot (by simp [hl.ids_eq])
    · exact hchain hmem
  · rw [hids] at hi
    refine ⟨fun hmem => ?_, .inl hi⟩
    rcases hext.mem hmem with hold | hnew
    · exact hst.tree k i hold hi
    · have := hs.lt_nextPage hi
      omega

/-! ### A key that is not there -/

theorem applyLeafInsert_absent
    (hk : k.Encodable) {pos : Nat} (hfind : find p.entries k = .absent pos)
    (hnone : findKey LeafEntry.key p.entries k = none) :
    ∃ s₁ pending, applyLeafInsert p.leaf p.entries k node s = .ok (⟨false, true⟩, pending) s₁ ∧
      LeafResult s s₁ p pending (update chains k (chains k)) (update m k ((m k).insert node)) := by
  have hasc : AscendingBy LeafEntry.key p.entries := hl.leaf_spec.1.2.2.1
  obtain ⟨-, -, hlt, -⟩ := hl.nodup hs
  by_cases hfull : leafCapacity ≤ p.entries.length
  · obtain ⟨_, mid, _, hentries, hsplit, hleft, hright, hlower, hupper⟩ := hl.halves hs hfull
    have hfree := hs.fresh _ (Nat.le_refl s.nextPage)
    have hparts := hnone
    rw [hentries] at hasc hparts
    rw [findKey_append, or_eq_none_iff] at hparts
    obtain ⟨hascLeft, hascRight, -⟩ := ascendingBy_append.mp hasc
    by_cases hmid : k < mid.key
    · obtain ⟨new, hinsert, hnew, hfound, hlen⟩ :=
        insertEntry_fresh p.leaf node hk hascLeft hparts.1 hleft
      obtain ⟨hupd, hdone⟩ := hlower new hmid hnew hlen.le
      refine ⟨_, _, ?_, LeafResult.split hst hl hk hnone hupd ?_ hdone⟩
      · simp only [applyLeafInsert, hfind, if_pos hfull, bind_apply,
          splitAndInsert_lower hsplit hfree hlt.ne hmid hinsert, pure_apply]
      · rw [findKey_append, hfound, some_or]
    · have hmid' := not_lt.mp hmid
      obtain ⟨new, hinsert, hnew, hfound, hlen⟩ :=
        insertEntry_fresh s.nextPage node hk hascRight hparts.2 hright
      obtain ⟨hupd, hdone⟩ := hupper new hmid' hnew hlen.le
      refine ⟨_, _, ?_, LeafResult.split hst hl hk hnone hupd ?_ hdone⟩
      · simp only [applyLeafInsert, hfind, if_pos hfull, bind_apply,
          splitAndInsert_upper hsplit hfree hlt.ne hmid hinsert, pure_apply]
      · rw [findKey_append, hparts.1, hfound, none_or]
  · obtain ⟨hchain, hslots⟩ := hst.absent hl hnone
    obtain ⟨new, hinsert, hnew, hfound, hlen⟩ :=
      insertEntry_fresh p.leaf node hk hasc hnone (Nat.not_le.mp hfull)
    refine ⟨{ s with
      pages := update s.pages p.leaf (some (.leaf new))
      staged := s.staged ++ [(p.leaf, .leaf new)] }, none, ?_,
      LeafResult.inPlace (chains k) hs hst hl ?_ hnew (update_self ..) (by omega)
        (fun _ _ => rfl) ?_ (fun _ => hk) (Extends.refl _ _ _)⟩
    · simp only [applyLeafInsert, hfind, if_neg hfull, bind_apply, insertInPlace, hinsert,
        writePage_apply, stageEmit_apply, pure_apply]
    · refine Edits.of_pages hs.fresh (fun i hi => ?_) (fun i hi _ => ?_) le_rfl rfl rfl
      · rw [hchain] at hi
        exact mem_singleton.mp hi ▸ hlt
      · exact update_of_ne (fun h : i = p.leaf => hi (h ▸ mem_cons_self)) _ _
    · rw [hfound, hslots, hchain]
      exact under_fresh _ k node

theorem applyLeafRemove_absent {pos : Nat} (hfind : find p.entries k = .absent pos)
    (hnone : findKey LeafEntry.key p.entries k = none) :
    ∃ s₁ removed, applyLeafRemove p.leaf p.entries k node s = .ok (⟨removed, false⟩, none) s₁ ∧
      (node ≠ 0 → removed = (m k).has node) ∧ LeafResult s s₁ p none (update chains k (chains k))
        (update m k ((m k).remove node)) := by
  obtain ⟨hchain, hslots⟩ := hst.absent hl hnone
  have hremove : (m k).remove node = .empty := by
    simp [hslots, Slots.remove, Slots.empty, tombstone]
  refine ⟨s, false, ?_, fun hnode => ?_, .inPlace (chains k) hs hst hl
    ⟨fun _ _ _ => rfl, hs.fresh, le_rfl, rfl, rfl⟩ (.refl hl.leaf_spec.1.2.2.1)
    hl.leaf_spec.1.1 hl.leaf_spec.1.2.2.2.2 (fun _ _ => rfl) ?_
    (fun h => absurd hnone h) (.refl _ _ _)⟩
  · simp only [applyLeafRemove, hfind, pure_apply]
  · simp [hslots, has, empty, hnode]
  · rw [hnone]
    exact ⟨hchain, hremove⟩

/-! ### A key that is there -/

variable (hentries : p.entries = a ++ e :: b) (hk : e.key = k) (ha : ∀ y ∈ a, y.key < k)
include hentries hk ha

variable (e') in
theorem LeafResult.replace (hk' : e'.key = k) (hedits : Edits (p.leaf :: chains k) s s₁)
    (hpage : s₁.pages p.leaf = some (.leaf (a ++ e' :: b)))
    (hcache : ∀ i, i ∉ cids → s₁.extra.overflowTailCache i = s.extra.overflowTailCache i)
    (he' : EntryHolds s₁ e' cids sl) (hext : Extends s s₁ (chains k) cids) :
    LeafResult s s₁ p none (update chains k cids) (update m k sl) := by
  have hasc : AscendingBy LeafEntry.key p.entries := hl.leaf_spec.1.2.2.1
  have hcap : p.entries.length ≤ leafCapacity := hl.leaf_spec.1.2.2.2.2
  have hold : findKey LeafEntry.key es k ≠ none := by
    rw [hl.findKey_eq, hentries, findKey_found ha hk]
    exact some_ne_none _
  refine LeafResult.inPlace cids hs hst hl hedits ?_ hpage ?_ hcache ?_
    (fun _ => hst.encodable k hold) hext
  · rw [hentries] at hasc ⊢
    exact UpdatesAt.replace hasc hk hk'
  · simpa [hentries] using hcap
  · rw [findKey_found ha hk']
    exact he'

theorem applyLeafInsert_found (hfind : find p.entries k = .found a.length e) :
    ∃ s₁ cids, applyLeafInsert p.leaf p.entries k node s = .ok (⟨false, false⟩, none) s₁ ∧
      (chains k ≠ [] → ((m k).Full → TailHasRoom s.pages (chains k)) → cids = chains k) ∧
      LeafResult s s₁ p none (update chains k cids) (update m k ((m k).insert node)) := by
  obtain ⟨-, -, hlt, -⟩ := hl.nodup hs
  have he := hst.found hl hentries hk ha
  have hleaf : p.leaf ∉ chains k := fun h => hst.tree k _ h (by simp [hl.ids_eq])
  cases hslot : e.firstEmptyInline with
  | some pos =>
    obtain ⟨s₁, hrun, hgrows, hpage⟩ := writeEntry_grows hlt hs.fresh a b e
      { e with inline := e.inline.set pos node }
    have hinsert : (m k).insert node = { m k with inline := (m k).inline.set pos node } := by
      have hslot' : (m k).inline.findIdx? (· = 0) = some pos := he.inline ▸ hslot
      simp only [Slots.insert, hslot']
    have he1 := he.grows hgrows (hst.bounded k) hleaf
    rw [hinsert]
    refine ⟨s₁, chains k, ?_, fun _ _ => rfl,
      .replace { e with inline := e.inline.set pos node } hs hst hl hentries hk ha hk
      (hgrows.toEdits.mono fun i hi => mem_singleton.mp hi ▸ mem_cons_self)
      hpage (fun i _ => by rw [hgrows.extra]) ⟨by rw [he.inline], he1.chain, he1.cached⟩
      (.refl _ _ _)⟩
    rw [← hentries] at hrun
    simp only [applyLeafInsert, hfind, hslot, bind_apply, hrun, pure_apply]
  | none =>
    obtain ⟨s₁, newHead, cids, hrun, hedits, hext, hsame, he1, hcache⟩ :=
      appendToOverflowChain_spec node he (hst.nodup k) hs.fresh (by omega)
    have hslot' : (m k).inline.findIdx? (· = 0) = none := he.inline ▸ hslot
    have hinsert : (m k).insert node = { m k with chain := (m k).chain ++ [node] } := by
      simp only [Slots.insert, hslot']
    have hsame' : chains k ≠ [] → ((m k).Full → TailHasRoom s.pages (chains k)) →
        cids = chains k := by
      refine fun hne hroom => hsame (fun hhead => hne ?_) (hroom hslot')
      have hchain := he.chain
      rw [hhead] at hchain
      exact hchain.head_zero.1
    rw [hinsert]
    cases newHead with
    | none =>
      have hpage : s₁.pages p.leaf = some (.leaf (a ++ e :: b)) := by
        rw [hedits.kept p.leaf hlt hleaf, hl.leaf_spec.1.1, hentries]
      refine ⟨s₁, cids, ?_, hsame', .replace e hs hst hl hentries hk ha hk
        (hedits.mono fun i hi => mem_cons_of_mem _ hi) hpage hcache he1 hext⟩
      simp only [applyLeafInsert, hfind, hslot, bind_apply, hrun, pure_apply]
    | some newHead =>
      obtain ⟨s2, hrun2, hgrows, hpage⟩ := writeEntry_grows (hlt.trans_le hedits.nextPage)
        hedits.fresh a b e { e with overflowHead := newHead }
      have hleaf' : p.leaf ∉ cids := by
        intro hmem
        rcases hext.mem hmem with hold | hnew
        · exact hleaf hold
        · omega
      have he2 := he1.grows hgrows (he1.chain.lt_nextPage hedits.fresh) hleaf'
      refine ⟨s2, cids, ?_, hsame',
        .replace { e with overflowHead := newHead } hs hst hl hentries hk ha hk
        ((hedits.trans hgrows.toEdits).mono fun i hi => ?_) hpage
        (fun i hi => by rw [hgrows.extra, hcache i hi]) he2
        (hext.trans (.refl _ _ _) hedits.nextPage hgrows.nextPage)⟩
      · rw [← hentries] at hrun2
        simp only [applyLeafInsert, hfind, hslot, bind_apply, hrun, hrun2, pure_apply]
      · simp only [mem_append, mem_cons, not_mem_nil, or_false] at hi ⊢
        exact hi.symm

theorem applyLeafRemove_found (hfind : find p.entries k = .found a.length e) :
    ∃ s₁ removed, applyLeafRemove p.leaf p.entries k node s = .ok (⟨removed, false⟩, none) s₁ ∧
      (node ≠ 0 → removed = (m k).has node) ∧ LeafResult s s₁ p none (update chains k (chains k))
        (update m k ((m k).remove node)) := by
  obtain ⟨-, -, hlt, -⟩ := hl.nodup hs
  have he := hst.found hl hentries hk ha
  have hleaf : p.leaf ∉ chains k := fun h => hst.tree k _ h (by simp [hl.ids_eq])
  -- the entry is rewritten only if the node was on it, but tombstoning is right either way
  obtain ⟨s₁, hrun1, hgrows1, hpage1⟩ : ∃ s₁, applyLeafRemove p.leaf p.entries k node s = (do
        let chainChanged ← removeFromChain node (← get).nextPage e.overflowHead
        return (⟨e.inline.contains node || chainChanged, false⟩, none) : SecondaryM _) s₁ ∧
      Grows [p.leaf] s s₁ ∧
      s₁.pages p.leaf = some (.leaf (a ++ { e with inline := tombstone node e.inline } :: b)) := by
    by_cases hcontains : e.inline.contains node = true
    · obtain ⟨s₁, hwrite, hgrows, hpage⟩ := writeEntry_grows hlt hs.fresh a b e
        { e with inline := tombstone node e.inline }
      rw [← hentries] at hwrite
      refine ⟨s₁, ?_, hgrows, hpage⟩
      simp only [applyLeafRemove, hfind, if_pos hcontains, bind_apply, hwrite]
    · have hself : tombstone node e.inline = e.inline := by
        rw [Bool.not_eq_true] at hcontains
        exact tombstone_eq_self (by rw [hcontains, Bool.and_false])
      refine ⟨s, ?_, .refl _ hs.fresh, ?_⟩
      · simp only [applyLeafRemove, hfind, if_neg hcontains]
      · rw [hl.leaf_spec.1.1, hentries, hself]
  have he1 := he.grows hgrows1 (hst.bounded k) hleaf
  obtain ⟨s2, hrun2, hgrows2, hchain, -⟩ := removeFromChain_spec node he1.chain
    (hst.nodup k) (he1.chain.length_le hgrows1.fresh (hst.nodup k)) hgrows1.fresh
  have hgrows := hgrows1.trans hgrows2
  refine ⟨s2, e.inline.contains node || (decide (node ≠ 0) && (m k).chain.contains node), ?_,
    fun hnode => ?_, .replace { e with inline := tombstone node e.inline } hs hst hl
      hentries hk ha hk hgrows.toEdits ?_ (fun i _ => by rw [hgrows.extra])
      ⟨by rw [Slots.remove, he.inline], hchain, fun t ht => ?_⟩ (.refl _ _ _)⟩
  · simp only [hrun1, bind_apply, get_apply, hrun2, pure_apply]
  · simp [has, he.inline, hnode]
  · rw [hgrows2.kept p.leaf (hlt.trans_le hgrows1.nextPage) hleaf, hpage1]
  · refine he1.cached t ?_
    rw [← hgrows2.extra]
    exact ht

end ArcGraph.Index.Secondary
