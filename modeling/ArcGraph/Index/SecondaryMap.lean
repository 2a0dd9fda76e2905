import ArcGraph.Index.SecondaryLeaf
import Mathlib.Data.Multiset.Filter

/-!
# The secondary index refines a multimap

A write changes the slots of its key as `Slots.insert` and `Slots.remove` say, and a
lookup returns the nodes in the slots of its key. The multimap is what the slots hold
without their order.
-/

namespace ArcGraph.Index.Secondary
open Foundation Function List Slots
variable (s : State)

/-- The index is a well-formed tree with the slots `m`, and the chains of the keys are
on the pages `chains`. -/
def RepresentsOn (chains : SecondaryKey → List Nat) (m : SecondaryKey → Slots) : Prop :=
  ∃ h es ids, Holds config LeafEntry.key s h es ids ∧ Stores s es ids chains m

/-- The index is a well-formed tree with the slots `m`. -/
def Represents (m : SecondaryKey → Slots) : Prop := ∃ chains, RepresentsOn s chains m

theorem visits_capture : Visits (captureFromGuard : Nat → SecondaryPage → SecondaryM Unit) :=
  fun id page s => captureFromGuard_same id page s

theorem applies_insertSplit : Applies (X := OverflowPage) (σ := Extra) (E := LeafEntry) config
    (insertSplit config) :=
  fun _ _ _ s _ => ⟨s, .refl s, rfl⟩

section
variable {s s' : State} {h : Nat} {es : List LeafEntry} {ids : List Nat} {k : SecondaryKey}
  {node : NodeId} {chains : SecondaryKey → List Nat} {m : SecondaryKey → Slots}

theorem Stores.same (hst : Stores s es ids chains m) (hsame : SameTree s s') :
    Stores s' es ids chains m :=
  hst.frame hsame.nextPage.ge (fun _ _ _ => by rw [hsame.pages]) (by rw [hsame.extra])
    fun _ hi => .inl hi

/-- A write reaches the leaf of its key with the tree as it was; what is left to do
is the operation there and the way back up. -/
theorem writeDeferred_reaches (hs : Holds config LeafEntry.key s h es ids) (k : SecondaryKey)
    (node : Option NodeId) (op : WriteOp) :
    ∃ p path s1, SameTree s s1 ∧
      Leads config LeafEntry.key s1.pages k h none none s1.rootCache es ids p ∧
      writeDeferred k node op s = (do
        let (outcome, leafSplit) ← applyOp p.leaf p.entries k node op
        absorb config (insertSplit config) publishRoot path leafSplit
        return (outcome, (← get).staged) : SecondaryM _) s1 ∧
      ∀ s2 pending chains m, LeafResult s1 s2 p pending chains m →
        ∃ s3, absorb config (insertSplit config) publishRoot path pending s2 = .ok () s3 ∧
          RepresentsOn s3 chains m ∧ RootStep config s s3 := by
  obtain ⟨rootPage, hroot⟩ := hs.tree.mapped _ hs.tree.root_mem
  obtain ⟨s0, hcapture, hsame0⟩ := captureFromGuard_same (K := SecondaryKey) s.rootCache rootPage
    { s with staged := [] }
  have hclear : SameTree s { s with staged := [] } := ⟨rfl, rfl, rfl, rfl, rfl⟩
  have hstart : SameTree s s0 := hclear.trans hsame0
  obtain ⟨p, path, hleads, ⟨s1, hsame1, hdesc⟩, hup⟩ :=
    (hs.same hstart).write visits_capture applies_insertSplit publishRoot k
  have hleaf : s1.pages p.leaf = some (.leaf p.entries) := by
    rw [hsame1.pages]
    exact hleads.leaf_spec.1.1
  refine ⟨p, path, s1, hstart.trans hsame1, ?_, ?_, fun s2 pending chains m hres => ?_⟩
  · rw [hsame1.pages, hsame1.rootCache]
    exact hleads
  · have hroot0 : latch (K := SecondaryKey) s.rootCache { s with staged := [] } =
        .ok rootPage { s with staged := [] } := latch_of_some hroot
    rw [hstart.rootCache] at hdesc
    simp [writeDeferred, hroot0, hcapture, hdesc, applyLeafOp, latch_of_some hleaf]
  · obtain ⟨newEs, newIds, hdone, hst⟩ := hres
    obtain ⟨s3, h', ids', habsorb, hholds, hkept, hext, hnext, hroots, hextra⟩ :=
      hup s2 pending newEs newIds (hdone.of_same hsame1)
    refine ⟨s3, habsorb, ⟨h', _, ids', hholds, hst.frame hnext (fun i hi hnot => ?_) ?_
      fun i hi => (hext.mem hi).imp_right And.left⟩, hroots.of_same hstart⟩
    · exact hkept i hi fun hmem => hnot (Place.mem_ids.mpr (.inr hmem))
    · rcases hextra with hextra | ⟨id, hextra⟩
      · rw [hextra]
      · rw [hextra, publishRoot]

/-- An insert changes the slots of its key. The chain of the key gets no new page as long
as its last one has room or is not needed. -/
theorem writeDeferred_insert (hs : RepresentsOn s chains m) (hk : k.Encodable) (node : NodeId) :
    ∃ s' outcome staged cids, writeDeferred k (some node) .insert s = .ok (outcome, staged) s' ∧
      (chains k ≠ [] → ((m k).Full → TailHasRoom s.pages (chains k)) → cids = chains k) ∧
      RepresentsOn s' (update chains k cids) (update m k ((m k).insert node)) ∧
      RootStep config s s' := by
  obtain ⟨_, _, _, hs, hst⟩ := hs
  obtain ⟨p, _, s1, hsame, hleads, hwrite, hup⟩ := writeDeferred_reaches hs k (some node) .insert
  have hs1 := hs.same hsame
  have hst1 := hst.same hsame
  obtain ⟨s2, outcome, pending, cids, hrun, hcids, hres⟩ : ∃ s2 outcome pending cids,
      applyLeafInsert p.leaf p.entries k node s1 = .ok (outcome, pending) s2 ∧
      (chains k ≠ [] → ((m k).Full → TailHasRoom s.pages (chains k)) → cids = chains k) ∧
      LeafResult s1 s2 p pending (update chains k cids)
        (update m k ((m k).insert node)) := by
    rcases findInLeaf_cases hleads.leaf_spec.1.2.2.1 k with
      ⟨a, _, b, hentries, hek, ha, hfind, -⟩ | ⟨a, b, -, -, -, hfind, hnone⟩
    · obtain ⟨s2, cids, hrun, hcids, hres⟩ :=
        applyLeafInsert_found hs1 hst1 hleads hentries hek ha hfind
      exact ⟨s2, _, none, cids, hrun, hsame.pages ▸ hcids, hres⟩
    · obtain ⟨s2, pending, hrun, hres⟩ := applyLeafInsert_absent hs1 hst1 hleads hk hfind hnone
      exact ⟨s2, _, pending, chains k, hrun, fun _ _ => rfl, hres⟩
  obtain ⟨s3, habsorb, hrep, hroots⟩ := hup s2 pending _ _ hres
  refine ⟨s3, outcome, s3.staged, cids, ?_, hcids, hrep, hroots⟩
  simp only [hwrite, applyOp, bind_apply, hrun, habsorb, get_apply, pure_apply]

theorem writeDeferred_remove (hs : RepresentsOn s chains m) (k : SecondaryKey) (node : NodeId) :
    ∃ s' removed staged, writeDeferred k (some node) .remove s = .ok (⟨removed, false⟩, staged) s' ∧
      (node ≠ 0 → removed = (m k).has node) ∧
      RepresentsOn s' chains (update m k ((m k).remove node)) ∧
      s'.rootCache = s.rootCache ∧ s'.log.rootChanges = s.log.rootChanges := by
  obtain ⟨_, _, _, hs, hst⟩ := hs
  obtain ⟨p, _, s1, hsame, hleads, hwrite, hup⟩ := writeDeferred_reaches hs k (some node) .remove
  have hs1 := hs.same hsame
  have hst1 := hst.same hsame
  obtain ⟨s2, removed, hrun, hremoved, hres⟩ : ∃ s2 removed,
      applyLeafRemove p.leaf p.entries k node s1 = .ok (⟨removed, false⟩, none) s2 ∧
      (node ≠ 0 → removed = (m k).has node) ∧
      LeafResult s1 s2 p none (update chains k (chains k))
        (update m k ((m k).remove node)) := by
    rcases findInLeaf_cases hleads.leaf_spec.1.2.2.1 k with
      ⟨a, _, b, hentries, hek, ha, hfind, -⟩ | ⟨a, b, -, -, -, hfind, hnone⟩
    · exact applyLeafRemove_found hs1 hst1 hleads hentries hek ha hfind
    · exact applyLeafRemove_absent hs1 hst1 hleads hfind hnone
  obtain ⟨s3, habsorb, hrep, -⟩ := hup s2 none _ _ hres
  -- nothing goes back up
  obtain rfl : s2 = s3 := by
    rw [absorb_none] at habsorb
    cases habsorb
    rfl
  obtain ⟨_, _, hdone, -⟩ := hres
  rw [update_eq_self] at hrep
  refine ⟨s2, removed, s2.staged, ?_, hremoved, hrep, hdone.rootCache.trans hsame.rootCache,
    hdone.rootChanges.trans hsame.rootChanges⟩
  simp only [hwrite, applyOp, bind_apply, hrun, habsorb, get_apply, pure_apply]

theorem lookup_spec (hs : Represents s m) (k : SecondaryKey) : lookup k s = .ok (m k).live s := by
  obtain ⟨_, _, _, _, hs, hst⟩ := hs
  obtain ⟨_, hread, hasc, hfind⟩ := hs.read k
  have hunder := hst.under k
  rw [← hfind] at hunder
  rcases findInLeaf_cases hasc k with ⟨a, _, b, -, -, -, hfound, hkey⟩ | ⟨a, b, -, -, -, habsent, hkey⟩
  · rw [hkey] at hunder
    have hchain := collectChain_spec hunder.chain (hunder.chain.length_le hs.fresh (hst.nodup k))
    simp only [lookup, bind_apply, root_apply, get_apply, hread, hfound, hchain, pure_apply,
      LeafEntry.liveInline, hunder.inline, live, filter_append]
  · rw [hkey] at hunder
    simp only [lookup, bind_apply, root_apply, get_apply, hread, habsent, pure_apply, hunder.2]
    rfl

end

/-! ## The nodes in the slots -/

section
variable {sl : Slots} {node : NodeId}

def Slots.contents (sl : Slots) : Multiset NodeId := sl.live

theorem filter_set_empty {slots : List NodeId} {pos : Nat} (hnode : node ≠ 0)
    (hpos : slots.findIdx? (· = 0) = some pos) :
    ((slots.set pos node).filter (· ≠ 0)).Perm (node :: slots.filter (· ≠ 0)) := by
  obtain ⟨hlt, hzero, -⟩ := findIdx?_eq_some_iff_getElem.mp hpos
  have hslots : slots = slots.take pos ++ slots[pos] :: slots.drop (pos + 1) := by simp
  have hset : slots.set pos node = slots.take pos ++ node :: slots.drop (pos + 1) :=
    set_eq_take_append_cons_drop .. |>.trans (if_pos hlt)
  rw [decide_eq_true_eq] at hzero
  rw [hzero] at hslots
  rw [hset]
  nth_rewrite 3 [hslots]
  simp only [filter_append, filter_cons, hnode, ne_eq, not_false_eq_true, decide_true,
    if_true, not_true_eq_false, decide_false]
  exact perm_middle

theorem Slots.contents_insert (hnode : node ≠ 0) :
    (sl.insert node).contents = node ::ₘ sl.contents := by
  refine Multiset.coe_eq_coe.mpr ?_
  rw [insert]
  cases hpos : sl.inline.findIdx? (· = 0) with
  | some =>
    simp only [live, filter_append]
    exact (filter_set_empty hnode hpos).append_right _
  | none =>
    have hone : [node].filter (· ≠ 0) = [node] := by simp [hnode]
    simp only [live, filter_append, hone, ← append_assoc]
    exact perm_append_singleton _ _

theorem filter_tombstone (slots : List NodeId) :
    (tombstone node slots).filter (· ≠ 0) = (slots.filter (· ≠ 0)).filter (· ≠ node) := by
  induction slots with
  | nil => rfl
  | cons slot _ ih =>
    rw [tombstone] at ih ⊢
    by_cases hslot : slot = node
    · by_cases hzero : slot = 0
      · simpa [hslot, hslot ▸ hzero] using ih
      · simpa [hslot, hslot ▸ hzero] using ih
    · by_cases hzero : slot = 0
      · simpa [hslot, hzero] using ih
      · simpa [hslot, hzero] using ih

theorem Slots.contents_remove : (sl.remove node).contents = sl.contents.filter (· ≠ node) := by
  rw [contents, contents, live, live, Multiset.filter_coe, remove,
    ← tombstone_append, filter_tombstone]

theorem Slots.has_eq (hnode : node ≠ 0) : sl.has node = decide (node ∈ sl.contents) := by
  simp [has, contents, live, hnode]

end

/-! ## The multimap -/

/-- Page `t` is on the chain that starts at page `head`. -/
inductive InChain (pages : Nat → Option SecondaryPage) : Nat → Nat → Prop
  | here {t : Nat} {o : OverflowPage} (hpage : pages t = some (.overflow o)) : InChain pages t t
  | behind {head t : Nat} {o : OverflowPage} (hpage : pages head = some (.overflow o))
      (hnext : o.next ≠ 0) (h : InChain pages o.next t) : InChain pages head t

variable {pages : Nat → Option SecondaryPage} {t : Nat} {ids : List Nat} {nodes : List NodeId}

theorem ChainAt.mem_of_inChain {head : Nat} (hc : ChainAt pages head ids nodes) (hhead : head ≠ 0)
    (h : InChain pages head t) : t ∈ ids := by
  induction h generalizing ids nodes with
  | here => exact hc.head_mem hhead
  | behind hpage hnext _ ih =>
    cases hc with
    | nil => exact absurd rfl hhead
    | cons _ hpage' _ hrest =>
      cases Page.overflow.inj (Option.some.inj (hpage.symm.trans hpage'))
      exact mem_cons_of_mem _ (ih hrest hnext)

theorem ChainAt.inChain {head : Nat} (hc : ChainAt pages head ids nodes) (ht : t ∈ ids) :
    InChain pages head t := by
  induction hc with
  | nil => cases ht
  | @cons id o ids nodes _ hpage _ hrest ih =>
    rcases mem_cons.mp ht with rfl | ht
    · exact .here hpage
    · refine .behind hpage (fun hzero => ?_) (ih ht)
      rw [hzero] at hrest
      rw [hrest.head_zero.1] at ht
      cases ht

/-- The calls of the index. `setTails` stands for whatever else the tail cache may
hold: it is a hint that is not persisted. -/
inductive Op
  | insert (key : SecondaryKey) (node : NodeId)
  | remove (key : SecondaryKey) (node : NodeId)
  | lookup (key : SecondaryKey)
  | setTails (cache : Nat → Option Nat)

inductive Answer
  | done
  | removed (present : Bool)
  | found (nodes : Multiset NodeId)

def Op.run : Op → SecondaryM Answer
  | .insert key node => do
      Secondary.insert key node
      return .done
  | .remove key node => return .removed (← Secondary.remove key node)
  | .lookup key => return .found (← Secondary.lookup key)
  | .setTails cache => do
      modify fun s => { s with extra := { s.extra with overflowTailCache := cache } }
      return .done

def runOps : List Op → SecondaryM (List Answer)
  | [] => return []
  | op :: rest => do
      let answer ← op.run
      let answers ← runOps rest
      return answer :: answers

/-- Keys that can be encoded, nodes that are not the empty slot, and cached tails that
point into the chain they are for. -/
def Op.Allowed : Op → Prop
  | .insert key node => key.Encodable ∧ node ≠ 0
  | .remove _ node => node ≠ 0
  | .lookup _ => True
  | .setTails cache => ∀ head t, cache head = some t → InChain s.pages head t

def AllAllowed : State → List Op → Prop
  | _, [] => True
  | s, op :: rest => op.Allowed s ∧ ∀ answer s', op.run s = .ok answer s' → AllAllowed s' rest

abbrev Multimap := SecondaryKey → Multiset NodeId

variable (m : Multimap)

def Op.answer : Op → Answer
  | .insert _ _ => .done
  | .remove key node => .removed (decide (node ∈ m key))
  | .lookup key => .found (m key)
  | .setTails _ => .done

def Op.applySlots (m : SecondaryKey → Slots) : Op → SecondaryKey → Slots
  | .insert key node => update m key ((m key).insert node)
  | .remove key node => update m key ((m key).remove node)
  | .lookup _ => m
  | .setTails _ => m

def Op.apply : Op → Multimap
  | .insert key node => update m key (node ::ₘ m key)
  | .remove key node => update m key ((m key).filter (· ≠ node))
  | .lookup _ => m
  | .setTails _ => m

def answers (m : Multimap) : List Op → List Answer
  | [] => []
  | op :: rest => op.answer m :: answers (op.apply m) rest

def applyAll (ops : List Op) : Multimap := ops.foldl Op.apply m

variable {s : State} {m : SecondaryKey → Slots} {k : SecondaryKey} {node : NodeId}

theorem represents_new (allocated : Nat) : Represents (new allocated) fun _ => .empty := by
  refine ⟨fun _ => [], 0, [], [allocated + 1], ⟨?_, ?_, by simp⟩, ?_⟩
  · intro i hi
    have hi' : allocated + 2 ≤ i := hi
    have hne : i ≠ allocated + 1 := by omega
    simp [new, update_of_ne hne]
  · exact ⟨by simp [new], rfl, Pairwise.nil, by simp, Nat.zero_le _⟩
  · exact ⟨fun _ => ⟨rfl, rfl⟩, fun _ h => absurd rfl h, by simp, by simp, by simp, by simp⟩

theorem RepresentsOn.same {s' : State} {chains : SecondaryKey → List Nat}
    (hs : RepresentsOn s chains m) (hpages : s'.pages = s.pages)
    (hroot : s'.rootCache = s.rootCache) (hnext : s.nextPage ≤ s'.nextPage)
    (hcache : s'.extra.overflowTailCache = s.extra.overflowTailCache) :
    RepresentsOn s' chains m := by
  obtain ⟨h, es, ids, hs, hst⟩ := hs
  refine ⟨h, es, ids, ⟨fun i hi => ?_, ?_, hs.nodup⟩,
    hst.frame hnext (fun _ _ _ => by rw [hpages]) hcache fun _ hi => .inl hi⟩
  · rw [hpages]
    exact hs.fresh i (hnext.trans hi)
  · rw [hpages, hroot]
    exact hs.tree

theorem Represents.setTails (hs : Represents s m) {cache : Nat → Option Nat}
    (hcache : ∀ head t, cache head = some t → InChain s.pages head t) :
    Represents { s with extra := { s.extra with overflowTailCache := cache } } m := by
  obtain ⟨chains, h, es, ids, hs, hst⟩ := hs
  refine ⟨chains, h, es, ids, ⟨hs.fresh, hs.tree, hs.nodup⟩, fun k => ?_, hst.encodable,
    hst.nodup, hst.apart, hst.tree, hst.bounded⟩
  have hunder := hst.under k
  cases hfind : findKey LeafEntry.key es k with rw [hfind] at hunder
  | none =>
    exact hunder
  | some =>
    exact ⟨hunder.inline, hunder.chain, fun t ht hne =>
      hunder.chain.mem_of_inChain hne (hcache _ t ht)⟩

theorem insert_spec (hs : Represents s m) (hk : k.Encodable) (node : NodeId) :
    ∃ s', insert k node s = .ok () s' ∧ Represents s' (update m k ((m k).insert node)) := by
  obtain ⟨chains, hs⟩ := hs
  have hstart : RepresentsOn { s with log := {} } chains m := hs.same rfl rfl le_rfl rfl
  obtain ⟨s1, _, _, _, hrun, -, hs1, -⟩ := writeDeferred_insert hstart hk node
  refine ⟨{ s1 with extra := { s1.extra with pendingRoot := 0 } }, ?_, _,
    hs1.same rfl rfl le_rfl rfl⟩
  simp only [insert, write, bind_apply, modify_apply, hrun, pure_apply]

theorem remove_spec (hs : Represents s m) (k : SecondaryKey) (node : NodeId) :
    ∃ s' removed, remove k node s = .ok removed s' ∧ (node ≠ 0 → removed = (m k).has node) ∧
      Represents s' (update m k ((m k).remove node)) := by
  obtain ⟨chains, hs⟩ := hs
  have hstart : RepresentsOn { s with log := {} } chains m := hs.same rfl rfl le_rfl rfl
  obtain ⟨s1, removed, _, hrun, hremoved, hs1, -⟩ := writeDeferred_remove hstart k node
  refine ⟨{ s1 with extra := { s1.extra with pendingRoot := 0 } }, removed, ?_, hremoved, _,
    hs1.same rfl rfl le_rfl rfl⟩
  simp only [remove, write, bind_apply, modify_apply, hrun, pure_apply]

theorem contents_update (m : SecondaryKey → Slots) (k : SecondaryKey) (sl : Slots) :
    (fun k' => (update m k sl k').contents) =
      update (fun k' => (m k').contents) k sl.contents := by
  funext k'
  by_cases hk' : k' = k
  · subst hk'
    simp
  · simp [update_of_ne hk']

theorem contents_applySlots (op : Op) (hop : op.Allowed s) :
    (fun k => (op.applySlots m k).contents) = op.apply fun k => (m k).contents := by
  cases op with
  | insert => rw [Op.applySlots, contents_update, contents_insert hop.2, Op.apply]
  | remove => rw [Op.applySlots, contents_update, contents_remove, Op.apply]
  | lookup => rfl
  | setTails => rfl

/-- One operation on the index is one operation on the slots, and answers as the multimap
does. -/
theorem run_spec (hs : Represents s m) (op : Op) (hop : op.Allowed s) :
    ∃ s', op.run s = .ok (op.answer fun k => (m k).contents) s' ∧ Represents s' (op.applySlots m) := by
  cases op with
  | insert _ node =>
    obtain ⟨s', hrun, hs'⟩ := insert_spec hs hop.1 node
    refine ⟨s', ?_, hs'⟩
    simp [Op.run, hrun, Op.answer]
  | remove k node =>
    obtain ⟨s', _, hrun, hremoved, hs'⟩ := remove_spec hs k node
    refine ⟨s', ?_, hs'⟩
    simp [Op.run, hrun, Op.answer, hremoved hop, has_eq hop]
  | lookup =>
    refine ⟨s, ?_, hs⟩
    simp [Op.run, lookup_spec hs, Op.answer, contents]
  | setTails => exact ⟨_, rfl, hs.setTails hop⟩

theorem runOps_spec (hs : Represents s m) (ops : List Op) (hops : AllAllowed s ops) :
    ∃ s', runOps ops s = .ok (answers (fun k => (m k).contents) ops) s' ∧
      Represents s' (ops.foldl Op.applySlots m) ∧
      (fun k => (ops.foldl Op.applySlots m k).contents) =
        applyAll (fun k => (m k).contents) ops := by
  induction ops generalizing s m with
  | nil => exact ⟨s, rfl, hs, rfl⟩
  | cons op _ ih =>
    obtain ⟨s1, hrun, hs1⟩ := run_spec hs op hops.1
    obtain ⟨s2, hrest, hs2, hm2⟩ := ih hs1 (hops.2 _ s1 hrun)
    rw [contents_applySlots op hops.1] at hrest hm2
    refine ⟨s2, ?_, hs2, hm2⟩
    simp only [runOps, bind_apply, hrun, hrest, pure_apply, answers]

/-- Every operation answers as the multimap does, and afterwards a lookup of any key
finds the nodes that the multimap holds under it. A prefix of allowed operations is
allowed, so this holds after each of them. -/
theorem secondary_refines_multimap (allocated : Nat) (ops : List Op)
    (hops : AllAllowed (new allocated) ops) :
    ∃ s, runOps ops (new allocated) = .ok (answers (fun _ => 0) ops) s ∧
      ∀ k, ∃ nodes, lookup k s = .ok nodes s ∧
        (nodes : Multiset NodeId) = applyAll (fun _ => 0) ops k := by
  obtain ⟨s, hrun, hs, hm⟩ := runOps_spec (represents_new allocated) ops hops
  refine ⟨s, hrun, fun k => ⟨_, lookup_spec hs k, ?_⟩⟩
  exact congrFun hm k

theorem secondary_refines_multimap_twoCopies :
    ∃ s, runOps [.insert ⟨1, 2, 3, .u32 4⟩ 5, .insert ⟨1, 2, 3, .u32 4⟩ 5, .setTails fun _ => none,
        .remove ⟨1, 2, 3, .u32 4⟩ 5] (new 0) = .ok [.done, .done, .done, .removed true] s ∧
      ∀ k, ∃ nodes, lookup k s = .ok nodes s ∧
        (nodes : Multiset NodeId) = applyAll (fun _ => 0) [.insert ⟨1, 2, 3, .u32 4⟩ 5,
          .insert ⟨1, 2, 3, .u32 4⟩ 5, .setTails fun _ => none, .remove ⟨1, 2, 3, .u32 4⟩ 5] k :=
  secondary_refines_multimap 0 _ ⟨⟨rfl, by decide⟩, fun _ _ _ => ⟨⟨rfl, by decide⟩, fun _ _ _ =>
    ⟨fun _ _ h => (by cases h), fun _ _ _ => ⟨show (5 : NodeId) ≠ 0 by decide,
      fun _ _ _ => trivial⟩⟩⟩⟩

end ArcGraph.Index.Secondary
