import ArcGraph.Index.Rollback
import ArcGraph.Index.SecondaryReject

/-!
# Rollback of the secondary index

A transaction records its deferred writes in one log, and a rollback drains it. The
pages are as they were then (`rollback_pages`), but the index is more than its pages: the
cached root is restored by the last root change of the log, and the tail cache is not
restored at all. So the writes have to leave both usable (`DeferredOp.Undoable`): the
root grows at most once, and no chain that was there before gets a new page. In such a
transaction the chains that were there stay on their pages (`Running`), and after the
rollback the index has the slots it had (`Represents.aborted`).
-/

namespace ArcGraph.Index.Secondary
open Foundation Function List Nat

/-! ## The write path keeps the log -/

section
variable {s : State} {leafId : Nat} {entries : List LeafEntry} {key : SecondaryKey} {node : NodeId}

theorem tracked_latchOverflow (id : Nat) :
    Tracked s (latchOverflow id) fun _ s' => s'.Logged id := by
  refine tracked_latch_capture id fun page s1 hlogged => ?_
  cases page with
  | leaf => exact tracked_throw _ _
  | internal => exact tracked_throw _ _
  | overflow => exact tracked_pure _ hlogged

theorem tracked_cacheTail (head tail : Nat) : Tracked s (cacheTail head tail) fun _ _ => True :=
  (tracked_modify _ (.of_same rfl rfl rfl le_rfl)).mono fun _ _ _ _ => trivial

theorem tracked_appendAtOrPastTail (head : Nat) (node : NodeId) (fuel current : Nat) :
    Tracked s (appendAtOrPastTail head node fuel current) fun _ _ => True := by
  induction fuel generalizing s current with
  | zero => exact tracked_throw _ _
  | succ _ ih =>
    refine (tracked_latchOverflow current).bind fun o s1 h1 hlogged => ?_
    refine .ite (fun _ => ?_) fun _ => ?_
    · refine (tracked_writePage hlogged _).bind fun _ s2 h2 _ => ?_
      refine (tracked_stageEmit _ _).bind fun _ s3 h3 _ => ?_
      exact tracked_cacheTail _ _
    · refine .ite (fun _ => ih _) fun _ => ?_
      refine tracked_alloc.bind fun newTail s2 h2 _ => ?_
      refine (tracked_stageEmit _ _).bind fun _ s3 h3 _ => ?_
      refine (tracked_installForTxn _ _ _).bind fun _ s4 h4 _ => ?_
      have hlogged4 := h4.logged _ (h3.logged _ (h2.logged _ hlogged))
      refine (tracked_writePage hlogged4 _).bind fun _ s5 h5 _ => ?_
      refine (tracked_stageEmit _ _).bind fun _ s6 h6 _ => ?_
      exact tracked_cacheTail _ _

theorem tracked_appendToOverflowChain (entry : LeafEntry) (node : NodeId) :
    Tracked s (appendToOverflowChain entry node) fun _ _ => True := by
  refine .ite (fun _ => ?_) fun _ => ?_
  · refine tracked_alloc.bind fun newHead s1 h1 _ => ?_
    refine (tracked_stageEmit _ _).bind fun _ s2 h2 _ => ?_
    refine (tracked_installForTxn _ _ _).bind fun _ s3 h3 _ => ?_
    exact (tracked_cacheTail _ _).map
  · refine tracked_get.bind fun s1 s2 h2 _ => ?_
    exact (tracked_appendAtOrPastTail _ _ _ _).map

section
variable (hleaf : s.Logged leafId)
include hleaf

variable (entries : List LeafEntry)

theorem tracked_writeEntry (index : Nat)
    (entry : LeafEntry) : Tracked s (writeEntry leafId entries index entry) fun _ _ => True :=
  (tracked_writePage hleaf _).bind fun _ _ _ _ => tracked_stageEmit _ _

theorem tracked_insertInPlace
    (entry : LeafEntry) : Tracked s (insertInPlace leafId entries entry) fun _ _ => True := by
  unfold insertInPlace
  generalize insertEntry leafId entries entry = result
  obtain ⟨_, error⟩ := result
  refine (tracked_writePage hleaf _).bind fun _ s1 h1 _ => ?_
  cases error with
  | some => exact tracked_throw _ _
  | none => exact tracked_pure _ trivial

theorem tracked_splitAndInsert
    (entry : LeafEntry) : Tracked s (splitAndInsert leafId entries entry) fun _ _ => True := by
  refine tracked_alloc.bind fun newId s1 h1 _ => ?_
  refine (tracked_liftExcept _).bind fun halves s2 h2 _ => ?_
  have hleaf2 := h2.logged _ (h1.logged _ hleaf)
  refine (tracked_writePage hleaf2 _).bind fun _ s3 h3 hleaf3 => ?_
  refine .ite (fun _ => ?_) fun _ => ?_
  · refine (tracked_insertInPlace hleaf3 _ _).bind fun left s4 h4 _ => ?_
    exact tracked_emitSplit _ _ _ _ _ _
  · generalize insertEntry newId halves.right entry = result
    obtain ⟨_, error⟩ := result
    cases error with
    | some => exact tracked_throw _ _
    | none =>
      exact tracked_emitSplit _ _ _ _ _ _

theorem tracked_applyLeafInsert (key : SecondaryKey) (node : NodeId) :
    Tracked s (applyLeafInsert leafId entries key node) fun _ _ => True := by
  rw [applyLeafInsert]
  cases find entries key with
  | found _ entry =>
    cases hslot : entry.firstEmptyInline with simp only [hslot]
    | some =>
      exact (tracked_writeEntry hleaf _ _ _).map
    | none =>
      refine (tracked_appendToOverflowChain _ _).bind fun newHead s1 h1 _ => ?_
      cases newHead with
      | none => exact tracked_pure _ trivial
      | some =>
        exact (tracked_writeEntry (h1.logged _ hleaf) _ _ _).map
  | absent =>
    refine .ite (fun _ => (tracked_splitAndInsert hleaf _ _).map) fun _ => ?_
    refine (tracked_insertInPlace hleaf _ _).bind fun entries s1 h1 _ => ?_
    exact (tracked_stageEmit _ _).map

end

theorem tracked_removeFromChain (node : NodeId) (fuel next : Nat) :
    Tracked s (removeFromChain node fuel next) fun _ _ => True := by
  induction fuel generalizing s next with
  | zero =>
    exact .ite (fun _ => tracked_pure _ trivial) fun _ => tracked_throw _ _
  | succ _ ih =>
    refine .ite (fun _ => tracked_pure _ trivial) fun _ => ?_
    refine (tracked_latchOverflow next).bind fun o s1 h1 hlogged => ?_
    refine .ite (fun _ => ?_) fun _ => (ih _).map
    refine (tracked_writePage hlogged _).bind fun _ s2 h2 _ => ?_
    refine (tracked_stageEmit _ _).bind fun _ s3 h3 _ => ?_
    exact (ih _).map

theorem tracked_applyLeafRemove (hleaf : s.Logged leafId) (entries : List LeafEntry)
    (key : SecondaryKey) (node : NodeId) :
    Tracked s (applyLeafRemove leafId entries key node) fun _ _ => True := by
  rw [applyLeafRemove]
  cases find entries key with
  | found _ entry =>
    refine .ite (fun _ => ?_) fun _ => ?_
    · refine (tracked_writeEntry hleaf _ _ _).bind fun _ s1 h1 _ => ?_
      refine tracked_get.bind fun s2 s3 h3 _ => ?_
      exact (tracked_removeFromChain _ _ _).map
    · refine tracked_get.bind fun s1 s2 h2 _ => ?_
      exact (tracked_removeFromChain _ _ _).map
  | absent => exact tracked_pure _ trivial

theorem tracked_applyLeafOp (hleaf : s.Logged leafId) (key : SecondaryKey) (node : Option NodeId)
    (op : WriteOp) : Tracked s (applyLeafOp leafId key node op) fun _ _ => True := by
  refine (tracked_latch leafId).bind fun page s1 h1 _ => ?_
  have hleaf1 := h1.logged _ hleaf
  cases page with
  | internal => exact tracked_throw _ _
  | overflow => exact tracked_throw _ _
  | leaf entries =>
    cases node with
    | none => cases op <;> exact tracked_throw _ _
    | some node =>
      cases op with
      | insert => exact tracked_applyLeafInsert hleaf1 entries key node
      | remove => exact tracked_applyLeafRemove hleaf1 entries key node

theorem tracked_writeDeferred (key : SecondaryKey) (node : Option NodeId) (op : WriteOp) :
    Tracked s (writeDeferred key node op) fun _ _ => True := by
  have hmono : ∀ (s s' : State) (i : Nat), Tracks s s' → s.Logged i → s'.Logged i :=
    fun s s' i h hi => h.logged i hi
  refine (tracked_modify _ (.of_same rfl rfl rfl le_rfl)).bind fun _ s1 h1 _ => ?_
  refine tracked_root.bind fun rootId s2 h2 _ => ?_
  refine tracked_latch_capture rootId fun rootPage s3 hlogged => ?_
  refine tracked_get.bind fun s5 s6 h6 _ => ?_
  refine (tracked_descendWrite (Q := IndexState.Logged) hmono
    (fun s id page hpage => tracked_capture hpage) key _ _ [] (h6.logged _ hlogged)
    (by simp)).bind fun r s7 h7 hpath => ?_
  refine (tracked_applyLeafOp hpath.1 key node op).bind fun outcome s8 h8 _ => ?_
  refine (tracked_absorb (Q := IndexState.Logged) hmono
    (fun s id split hid => tracked_insertSplit config hid split) config publishRoot r.2 outcome.2
    (fun i hi => h8.logged i (hpath.2 i hi))).bind fun _ s9 h9 _ => ?_
  exact tracked_get.map

end

/-! ## A transaction that is rolled back -/

inductive DeferredOp
  | insert (key : SecondaryKey) (node : NodeId)
  | remove (key : SecondaryKey) (node : NodeId)

def DeferredOp.run : DeferredOp → SecondaryM Unit
  | .insert key node => do
      let _ ← insertDeferred key node
  | .remove key node => do
      let _ ← removeDeferred key node

/-- The deferred writes of a transaction, up to the first that is refused. The loops of
`crud.rs` log a refusal and go on; what a write behind a refused one does is not modelled. -/
def runDeferred : List DeferredOp → SecondaryM Unit
  | [] => return ()
  | op :: rest => do
      op.run
      runDeferred rest

/-- `rollback_restore_root` also drops the pending root. -/
def clearPending (extra : Extra) : Extra := { extra with pendingRoot := 0 }

/-- The index behind a transaction with these writes, recorded in one log that was then
drained. -/
def aborted (ops : List DeferredOp) (s : State) : State :=
  match runDeferred ops { s with log := {} } with
  | .ok _ s' => rollback clearPending s'
  | .error _ s' => rollback clearPending s'

variable (s : State)

/-- A chain that is older than the transaction gets no new page: the tail cache would go on
pointing to it. -/
def ChainReady (key : SecondaryKey) : Prop :=
  ∀ e ∈ leafOf s key, e.key = key → e.firstEmptyInline = none → e.overflowHead ∉ s.log.newPages →
    ∀ t o, InChain s.pages e.overflowHead t → s.pages t = some (.overflow o) → o.next = 0 →
      o.slots.length < overflowSlotsPerPage

def DeferredOp.Undoable : DeferredOp → Prop
  | .insert key _ => (key.Encodable ∨ ∃ v, key.Overflows v) ∧ RootReady config s ∧ ChainReady s key
  | .remove _ _ => True

def AllUndoable : State → List DeferredOp → Prop
  | _, [] => True
  | s, op :: rest => op.Undoable s ∧ ∀ s', op.run s = .ok () s' → AllUndoable s' rest

section
variable {b s s' : State} {chains chains' : SecondaryKey → List Nat}
  {m m' : SecondaryKey → Slots} {k : SecondaryKey} {node : NodeId}

theorem RepresentsOn.entry (hs : RepresentsOn s chains m) (hk : chains k ≠ []) :
    ∃ e ∈ leafOf s k, e.key = k ∧ EntryHolds s e (chains k) (m k) := by
  obtain ⟨_, es, _, hs, hst⟩ := hs
  obtain ⟨_, hread, -, hfind⟩ := hs.read k
  have hunder := hst.under k
  cases hfound : findKey LeafEntry.key es k with
  | none =>
    rw [hfound] at hunder
    exact absurd hunder.1 hk
  | some e =>
    rw [hfound] at hunder hfind
    refine ⟨e, ?_, by simpa using find?_some hfind, hunder⟩
    rw [leafOf, hread]
    exact mem_of_find?_eq_some hfind

/-- The log of `s` leads back to the index `b` with these chains. -/
structure Abortable (b s : State) (chains : SecondaryKey → List Nat) : Prop where
  undo : Undo b s
  root : RestoresRoot b.rootCache s
  nextPage : b.nextPage ≤ s.nextPage
  cached : ∀ k i rest, chains k = i :: rest →
    ∀ t, s.extra.overflowTailCache i = some t → t ∈ chains k

theorem overflowTailCache_clearPending (roots : List Nat) (extra : Extra) :
    (roots.foldl (fun extra _ => clearPending extra) extra).overflowTailCache =
      extra.overflowTailCache := by
  induction roots generalizing extra with
  | nil => rfl
  | cons _ _ ih => exact ih (clearPending extra)

theorem Abortable.rollback (hb : RepresentsOn b chains m) (ha : Abortable b s chains) :
    RepresentsOn (rollback clearPending s) chains m := by
  have hpages := rollback_pages clearPending ha.undo
  obtain ⟨-, hnext, hextra⟩ := rollback_fields clearPending s
  have hcache : (Index.rollback clearPending s).extra.overflowTailCache =
      s.extra.overflowTailCache := by
    rw [hextra, overflowTailCache_clearPending]
  obtain ⟨h, es, ids, hb, hst⟩ := hb
  refine ⟨h, es, ids, ⟨fun i hi => ?_, ?_, hb.nodup⟩, fun k => ?_, hst.encodable, hst.nodup,
    hst.apart, hst.tree, fun k i hi => ?_⟩
  · rw [hpages]
    exact hb.fresh i (ha.nextPage.trans (hnext ▸ hi))
  · rw [hpages, ha.root.rollback]
    exact hb.tree
  · have hunder := hst.under k
    cases hfound : findKey LeafEntry.key es k with rw [hfound] at hunder
    | none =>
      exact hunder
    | some =>
      refine ⟨hunder.inline, ?_, fun t ht hne => ?_⟩
      · rw [hpages]
        exact hunder.chain
      · rw [hcache] at ht
        obtain ⟨rest, hrest⟩ := hunder.chain.eq_cons hne
        exact ha.cached k _ rest hrest t ht
  · rw [hnext]
    exact (hst.bounded k i hi).trans_le ha.nextPage

/-- While the transaction runs: the index is well formed, and the chains that were there
are on the pages they were on. -/
structure Running (b s : State) (chains : SecondaryKey → List Nat) : Prop where
  undo : Undo b s
  root : RestoresRoot b.rootCache s
  nextPage : b.nextPage ≤ s.nextPage
  now : ∃ chains' m', RepresentsOn s chains' m' ∧ ∀ k, chains k ≠ [] → chains' k = chains k

section
variable (h : Running b s chains)
include h

namespace Running

theorem abortable : Abortable b s chains := by
  refine ⟨h.undo, h.root, h.nextPage, fun k i rest hk t ht => ?_⟩
  obtain ⟨chains', _, hs, hkept⟩ := h.now
  have hchain : chains' k = i :: rest := (hkept k (by simp [hk])).trans hk
  obtain ⟨_, -, -, hentry⟩ := hs.entry (k := k) (by simp [hchain])
  obtain ⟨hne, hhead⟩ := (hchain ▸ hentry.chain).head_eq
  rw [hk, ← hchain]
  exact hentry.cached t (by rw [hhead, ht]) (by rw [hhead]; exact hne)

theorem head_notMem (hb : RepresentsOn b chains m)
    {i : Nat} {rest : List Nat} (hk : chains k = i :: rest) : i ∉ s.log.newPages := by
  intro hnew
  obtain ⟨e, -, -, hentry⟩ := hb.entry (k := k) (by simp [hk])
  obtain ⟨-, o, hpage⟩ := hentry.chain.mapped i (by simp [hk])
  rw [h.undo.new i hnew] at hpage
  cases hpage

theorem insert (hb : RepresentsOn b chains m)
    (hk : k.Encodable) (hroot : RootReady config s) (hchain : ChainReady s k) (node : NodeId) :
    ∃ s', (DeferredOp.insert k node).run s = .ok () s' ∧ Running b s' chains := by
  obtain ⟨_, m', hs, hkept⟩ := h.now
  obtain ⟨s', _, _, _, hrun, hcids, hs', hroots⟩ := writeDeferred_insert hs hk node
  have htracks := (tracked_writeDeferred _ _ _).of_ok hrun
  refine ⟨s', ?_, htracks.undo b h.undo, h.root.step hroot hroots,
    h.nextPage.trans htracks.nextPage, _, _, hs', fun k' hk' => ?_⟩
  · simp only [DeferredOp.run, insertDeferred, bind_apply, hrun, pure_apply]
  by_cases heq : k' = k
  · subst heq
    have hold := hkept k' hk'
    obtain ⟨e, hmem, hek, hentry⟩ := hs.entry (k := k') (by rw [hold]; exact hk')
    obtain ⟨i, rest, hcons⟩ := exists_cons_of_ne_nil hk'
    obtain ⟨-, hhead⟩ := (show ChainAt s.pages e.overflowHead (i :: rest) (m' k').chain by
      rw [← hcons, ← hold]
      exact hentry.chain).head_eq
    rw [update_self, ← hold]
    refine hcids (by rw [hold]; exact hk') fun hfull t ht o hpage hlast => ?_
    refine hchain e hmem hek ?_ ?_ t o (hentry.chain.inChain ht) hpage hlast
    · rw [LeafEntry.firstEmptyInline, hentry.inline]
      exact hfull
    · rw [hhead]
      exact h.head_notMem hb hcons
  · rw [update_of_ne heq]
    exact hkept k' hk'

theorem remove (k : SecondaryKey) (node : NodeId) :
    ∃ s', (DeferredOp.remove k node).run s = .ok () s' ∧ Running b s' chains := by
  obtain ⟨_, _, hs, hkept⟩ := h.now
  obtain ⟨s', _, _, hrun, -, hs', hroot, hchanges⟩ := writeDeferred_remove hs k node
  have htracks := (tracked_writeDeferred _ _ _).of_ok hrun
  refine ⟨s', ?_, htracks.undo b h.undo, ?_, h.nextPage.trans htracks.nextPage, _, _, hs', hkept⟩
  · simp only [DeferredOp.run, removeDeferred, bind_apply, hrun, pure_apply]
  · rw [RestoresRoot, hroot, hchanges]
    exact h.root

theorem refused {v : UInt64} (hover : k.Overflows v) (node : NodeId) :
    ∃ e s', (DeferredOp.insert k node).run s = .error e s' ∧ Abortable b s' chains := by
  obtain ⟨_, _, ⟨_, _, _, hs, hst⟩, -⟩ := h.now
  obtain ⟨_, s', _, -, hrun, hleft, -⟩ := writeDeferred_overflow hs hst hover node
  have htracks := (tracked_writeDeferred _ _ _).of_error hrun
  refine ⟨.valueOverflow v.toNat, s', ?_, htracks.undo b h.undo, ?_,
    h.nextPage.trans htracks.nextPage, ?_⟩
  · simp only [DeferredOp.run, insertDeferred, bind_apply, hrun]
  · rw [RestoresRoot, hleft.rootChanges, hleft.rootCache]
    exact h.root
  · rw [hleft.extra]
    exact h.abortable.cached

end Running
end

theorem Running.aborts (hb : RepresentsOn b chains m) (ops : List DeferredOp)
    (h : Running b s chains) (hops : AllUndoable s ops) : ∃ s', Abortable b s' chains ∧
      (runDeferred ops s = .ok () s' ∨ ∃ e, runDeferred ops s = .error e s') := by
  induction ops generalizing s with
  | nil => exact ⟨s, h.abortable, .inl rfl⟩
  | cons op rest ih =>
    obtain ⟨hop, hrest⟩ := hops
    have hdone : ∀ s', op.run s = .ok () s' → Running b s' chains →
        ∃ s'', Abortable b s'' chains ∧ (runDeferred (op :: rest) s = .ok () s'' ∨
          ∃ e, runDeferred (op :: rest) s = .error e s'') := by
      intro s' hrun h'
      simp only [runDeferred, bind_apply, hrun]
      exact ih h' (hrest s' hrun)
    cases op with
    | insert k node =>
      obtain ⟨hk | ⟨v, hover⟩, hroot, hchain⟩ := hop
      · obtain ⟨s', hrun, h'⟩ := h.insert hb hk hroot hchain node
        exact hdone s' hrun h'
      · obtain ⟨e, s', hrun, hs'⟩ := h.refused hover node
        refine ⟨s', hs', .inr ⟨e, ?_⟩⟩
        simp only [runDeferred, bind_apply, hrun]
    | remove k node =>
      obtain ⟨s', hrun, h'⟩ := h.remove k node
      exact hdone s' hrun h'

theorem Represents.aborted (hs : Represents s m) (ops : List DeferredOp)
    (hops : AllUndoable { s with log := {} } ops) : Represents (aborted ops s) m := by
  obtain ⟨chains, hs⟩ := hs
  have hstart : Running s { s with log := {} } chains :=
    ⟨.start s, .inl ⟨rfl, rfl⟩, le_rfl, chains, m, hs.same rfl rfl le_rfl rfl, fun _ _ => rfl⟩
  obtain ⟨_, habort, hrun⟩ := hstart.aborts hs ops hops
  refine ⟨chains, ?_⟩
  rcases hrun with hrun | ⟨e, hrun⟩ <;> rw [Secondary.aborted, hrun]
  · exact habort.rollback hs
  · exact habort.rollback hs

end

/-! ## Every reachable index -/

/-- What happens to an index: a call, or a transaction that is rolled back. -/
inductive Event
  | call (op : Op)
  | abort (ops : List DeferredOp)

def Event.after : Event → State
  | .call op => op.after s
  | .abort ops => aborted ops s

def indexWithAborts (allocated : Nat) : System State Event :=
  ⟨new allocated, fun s event => some (event.after s)⟩

def Event.Harmless : Event → Prop
  | .call op => op.Harmless s
  | .abort ops => AllUndoable { s with log := {} } ops

/-- The calls of later use: no refused key, and the tail cache is the one that is there. -/
def Op.Plain : Op → Prop
  | .insert key node => key.Encodable ∧ node ≠ 0
  | .remove _ node => node ≠ 0
  | .lookup _ => True
  | .setTails _ => False

section
variable {s : State} {m : SecondaryKey → Slots} {allocated : Nat}

theorem Op.Plain.allowed {op : Op} (hop : op.Plain) (s : State) : op.Allowed s := by
  cases op with
  | insert => exact hop
  | remove => exact hop
  | lookup => exact hop
  | setTails => exact hop.elim

theorem allAllowed_of_plain (ops : List Op) (hops : ∀ op ∈ ops, op.Plain) (s : State) :
    AllAllowed s ops := by
  induction ops generalizing s with
  | nil => trivial
  | cons op _ ih =>
    exact ⟨(hops op mem_cons_self).allowed s, fun _ s' _ =>
      ih (fun op' hop' => hops op' (mem_cons_of_mem _ hop')) s'⟩

theorem represents_of_reach_aborts (hs : (indexWithAborts allocated).Reach Event.Harmless s) :
    ∃ m, Represents s m := by
  refine hs.invariant (P := fun s => ∃ m, Represents s m) ⟨_, represents_new allocated⟩ ?_
  rintro s event s' ⟨m, hm⟩ hevent hstep
  cases hstep
  cases event with
  | call => exact hm.after hevent
  | abort ops => exact ⟨m, hm.aborted ops hevent⟩

/-- After a rollback every later sequence of calls succeeds, answers as it would have
without the transaction, and leaves the same nodes under every key. -/
theorem aborted_index_as_before (hs : (indexWithAborts allocated).Reach Event.Harmless s)
    (deferred : List DeferredOp) (hdeferred : AllUndoable { s with log := {} } deferred)
    (ops : List Op) (hops : ∀ op ∈ ops, op.Plain) :
    ∃ answers s₁ s₂, runOps ops (aborted deferred s) = .ok answers s₁ ∧
      runOps ops s = .ok answers s₂ ∧ ∀ k, found s₁ k = found s₂ k := by
  obtain ⟨m, hm⟩ := represents_of_reach_aborts hs
  obtain ⟨s₁, hrun1, hs1, -⟩ := runOps_spec (hm.aborted deferred hdeferred) ops
    (allAllowed_of_plain ops hops _)
  obtain ⟨s₂, hrun2, hs2, -⟩ := runOps_spec hm ops (allAllowed_of_plain ops hops s)
  refine ⟨_, s₁, s₂, hrun1, hrun2, fun k => ?_⟩
  rw [found_eq hs1, found_eq hs2]

theorem aborted_index_as_before_oneInsert :
    ∃ answers s₁ s₂, runOps [.insert ⟨1, 1, 1, .u32 0⟩ 8, .lookup ⟨1, 1, 1, .u32 0⟩]
        (aborted [.insert ⟨1, 1, 1, .u32 0⟩ 7] (new 0)) = .ok answers s₁ ∧
      runOps [.insert ⟨1, 1, 1, .u32 0⟩ 8, .lookup ⟨1, 1, 1, .u32 0⟩] (new 0) = .ok answers s₂ ∧
      ∀ k, found s₁ k = found s₂ k := by
  have hleaf : leafOf ({ new 0 with log := {} } : State) ⟨1, 1, 1, .u32 0⟩ = [] := by decide +kernel
  have hdeferred : AllUndoable { new 0 with log := {} } [.insert ⟨1, 1, 1, .u32 0⟩ 7] := by
    refine ⟨⟨.inl rfl, .inl rfl, fun e he => ?_⟩, fun _ _ => trivial⟩
    rw [hleaf] at he
    cases he
  have hops : ∀ op ∈ [Op.insert ⟨1, 1, 1, .u32 0⟩ 8, .lookup ⟨1, 1, 1, .u32 0⟩], op.Plain := by
    simp only [mem_cons, not_mem_nil, or_false, forall_eq_or_imp, forall_eq, Op.Plain, and_true]
    decide
  exact aborted_index_as_before (.init (S := indexWithAborts 0)) _ hdeferred _ hops

end

/-! ## A chain that grew

One key with 1021 nodes: four inline, 1017 on the page that is the whole chain. One more
node takes a second page. After the rollback that page is gone, but the tail cache still
names it. -/

def oneKey : SecondaryKey := ⟨1, 1, 1, .u32 0⟩

def oneEntry : LeafEntry := ⟨oneKey, [7, 7, 7, 7], 2⟩

variable (n : Nat)

/-- The index after `n` inserts of one node under one key. -/
def oneKeyIndex : State := (Op.insert oneKey 7).after^[n] (new 0)

/-- One entry on page 1, its chain on page 2, and `tail` as the cached tail. -/
structure OneKey (s : State) (slots : List NodeId) (tail : Nat) : Prop where
  fresh : s.Fresh
  rootCache : s.rootCache = 1
  leaf : s.pages 1 = some (.leaf [oneEntry])
  overflow : s.pages 2 = some (.overflow ⟨slots, 0⟩)
  cached : s.extra.overflowTailCache 2 = some tail

variable {s : State} {slots : List NodeId} {tail : Nat}

section
variable (h : OneKey s slots tail)
include h

theorem OneKey.nextPage_pos : 0 < s.nextPage :=
  lt_of_le_of_lt (zero_le 2) (h.fresh.lt h.overflow)

theorem OneKey.same {s' : State} (hsame : SameTree s s') : OneKey s' slots tail := by
  refine ⟨fun i hi => ?_, hsame.rootCache.trans h.rootCache, ?_, ?_, ?_⟩
  · rw [hsame.pages]
    exact h.fresh i (hsame.nextPage ▸ hi)
  · rw [hsame.pages, h.leaf]
  · rw [hsame.pages, h.overflow]
  · rw [hsame.extra, h.cached]

theorem OneKey.holds : Holds config LeafEntry.key s 0 [oneEntry] [1] := by
  refine ⟨h.fresh, ⟨?_, ?_, ?_, ?_, ?_⟩, by simp⟩
  · rw [h.rootCache, h.leaf]
  · rw [h.rootCache]
  · simp [AscendingBy]
  · simpa using inBounds_none oneEntry.key
  · simp [config, leafCapacity]

theorem OneKey.writeDeferred_eq :
    ∃ s1, OneKey s1 slots tail ∧ SameTree s s1 ∧
      writeDeferred oneKey (some 7) .insert s = (do
        appendAtOrPastTail 2 7 s1.nextPage tail
        return (⟨false, false⟩, (← get).staged) : SecondaryM _) s1 := by
  obtain ⟨_, _, s1, hsame, hleads, hwrite, -⟩ :=
    writeDeferred_reaches h.holds oneKey (some 7) .insert
  have h1 := h.same hsame
  have hfind : find [oneEntry] oneKey = .found 0 oneEntry := by decide
  have hfull : oneEntry.firstEmptyInline = none := by decide
  have hhead : oneEntry.overflowHead = 2 := rfl
  refine ⟨s1, h1, hsame, ?_⟩
  rw [hwrite]
  rw [h1.rootCache] at hleads
  cases hleads
  simp only [applyOp, applyLeafInsert, hfind, hfull, appendToOverflowChain, hhead, if_neg two_ne_zero,
    bind_apply, get_apply, h1.cached, Option.getD_some]
  cases appendAtOrPastTail 2 7 s1.nextPage tail s1 with
  | ok => simp only [pure_apply, absorb_none]
  | error => rfl

end

theorem OneKey.insert (h : OneKey s slots 2) (hroom : slots.length < overflowSlotsPerPage) :
    OneKey ((Op.insert oneKey 7).after s) (slots ++ [7]) 2 ∧
      ((Op.insert oneKey 7).after s).nextPage = s.nextPage := by
  have hstart : OneKey { s with log := {} } slots 2 :=
    ⟨h.fresh, h.rootCache, h.leaf, h.overflow, h.cached⟩
  obtain ⟨s1, h1, hsame1, hwrite⟩ := hstart.writeDeferred_eq
  obtain ⟨s2, hlatch, hsame⟩ := latchOverflow_spec h1.overflow
  have h2 := h1.same hsame
  have happend := appendAtOrPastTail_room 7 2 (s1.nextPage - 1) hlatch hroom
  rw [Nat.sub_add_cancel h1.nextPage_pos] at happend
  have hlt : 2 < s2.nextPage := h2.fresh.lt h2.overflow
  simp only [Op.after, Op.run, Secondary.insert, write, bind_apply, modify_apply, hwrite, happend,
    get_apply, pure_apply]
  refine ⟨⟨fun i hi => ?_, h2.rootCache, ?_, ?_, ?_⟩, hsame.nextPage.trans hsame1.nextPage⟩
  · have hi' : s2.nextPage ≤ i := hi
    exact (update_of_ne (by omega) _ _).trans (h2.fresh i hi')
  · have hne : (1 : Nat) ≠ 2 := by decide
    simp [h2.leaf]
  · simp [OverflowPage.append]
  · simp

theorem OneKey.grow (h : OneKey s slots 2) (hfull : ¬slots.length < overflowSlotsPerPage) :
    ∃ s', runDeferred [.insert oneKey 7] s = .ok () s' ∧ Tracks s s' ∧
      s'.log.rootChanges = s.log.rootChanges ∧ s'.rootCache = 1 ∧
      s'.extra.overflowTailCache 2 = some s.nextPage := by
  obtain ⟨s1, h1, hsame1, hwrite⟩ := h.writeDeferred_eq
  obtain ⟨_, hlatch, hsame⟩ := latchOverflow_spec h1.overflow
  have h2 := h1.same hsame
  have happend := appendAtOrPastTail_grow 7 2 (s1.nextPage - 1) hlatch hfull rfl (h2.fresh _ le_rfl)
  rw [Nat.sub_add_cancel h1.nextPage_pos] at happend
  simp only [bind_apply, happend, get_apply, pure_apply] at hwrite
  refine ⟨_, ?_, (tracked_writeDeferred _ _ _).of_ok hwrite, ?_, h2.rootCache, ?_⟩
  · simp only [runDeferred, DeferredOp.run, insertDeferred, bind_apply, hwrite, pure_apply]
  · exact hsame.rootChanges.trans hsame1.rootChanges
  · simp only [update_self, hsame.nextPage, hsame1.nextPage]

theorem OneKey.aborted (h : OneKey s slots 2) (hfull : ¬slots.length < overflowSlotsPerPage) :
    OneKey (aborted [.insert oneKey 7] s) slots s.nextPage ∧
      (Secondary.aborted [.insert oneKey 7] s).pages = s.pages := by
  have hstart : OneKey { s with log := {} } slots 2 :=
    ⟨h.fresh, h.rootCache, h.leaf, h.overflow, h.cached⟩
  obtain ⟨s', hrun, htracks, hchanges, hroot, hcache⟩ := hstart.grow hfull
  have hpages := rollback_pages clearPending (htracks.undo s (.start s))
  obtain ⟨hroot', hnext, hextra⟩ := rollback_fields clearPending s'
  rw [Secondary.aborted, hrun]
  refine ⟨⟨fun i hi => ?_, ?_, ?_, ?_, ?_⟩, hpages⟩
  · rw [hpages]
    exact h.fresh i (htracks.nextPage.trans (hnext ▸ hi))
  · rw [hroot', hchanges]
    exact hroot
  · rw [hpages, h.leaf]
  · rw [hpages, h.overflow]
  · rw [hextra, overflowTailCache_clearPending, hcache]

theorem OneKey.insert_fails (h : OneKey s slots tail) (hgone : s.pages tail = none) :
    ∃ s', runOps [.insert oneKey 7] s = .error (.missingPage tail) s' := by
  have hstart : OneKey { s with log := {} } slots tail :=
    ⟨h.fresh, h.rootCache, h.leaf, h.overflow, h.cached⟩
  obtain ⟨s1, h1, hsame, hwrite⟩ := hstart.writeDeferred_eq
  have hgone1 : s1.pages tail = none := by rw [hsame.pages, hgone]
  obtain ⟨fuel, hfuel⟩ : ∃ fuel, s1.nextPage = fuel + 1 :=
    ⟨_, (Nat.sub_add_cancel h1.nextPage_pos).symm⟩
  refine ⟨s1, ?_⟩
  simp [runOps, Op.run, Secondary.insert, write, hwrite, hfuel, appendAtOrPastTail, latchOverflow,
    latch_of_none hgone1]

theorem oneKeyIndex_reach : (indexWithAborts 0).Reach Event.Harmless (oneKeyIndex n) := by
  induction n with
  | zero => exact .init
  | succ n ih =>
    rw [oneKeyIndex, iterate_succ_apply']
    exact .step (a := .call (.insert oneKey 7)) ih (.inl rfl) rfl

theorem oneKeyIndex_spec (hn : n < overflowSlotsPerPage) :
    OneKey (oneKeyIndex (n + 5)) (replicate (n + 1) 7) 2 ∧ (oneKeyIndex (n + 5)).nextPage = 3 := by
  induction n with
  | zero =>
    obtain ⟨_, _, _, _, _, hholds, -⟩ := represents_of_reach_aborts (oneKeyIndex_reach 5)
    refine ⟨⟨hholds.fresh, ?_, ?_, ?_, ?_⟩, ?_⟩ <;> decide +kernel
  | succ n ih =>
    have hroom : (replicate (n + 1) (7 : NodeId)).length < overflowSlotsPerPage := by
      rw [length_replicate]
      exact hn
    obtain ⟨hold, hnext⟩ := ih (lt_of_succ_lt hn)
    obtain ⟨hnew, hsame⟩ := hold.insert hroom
    rw [oneKeyIndex, add_right_comm, iterate_succ_apply', replicate_succ']
    exact ⟨hnew, hsame.trans hnext⟩

/-- The insert that the index takes without the transaction fails after its rollback. -/
theorem aborted_index_refuses_insert :
    (indexWithAborts 0).Reach Event.Harmless (oneKeyIndex 1021) ∧
    (∃ s₂, runOps [.insert oneKey 7] (oneKeyIndex 1021) = .ok [.done] s₂) ∧
    ∃ s₁, runOps [.insert oneKey 7] (aborted [.insert oneKey 7] (oneKeyIndex 1021)) =
      .error (.missingPage 3) s₁ := by
  obtain ⟨hone, hnext⟩ := oneKeyIndex_spec 1016 (by decide)
  have hfull : ¬(replicate 1017 (7 : NodeId)).length < overflowSlotsPerPage := by
    rw [length_replicate]
    decide
  refine ⟨oneKeyIndex_reach 1021, ?_, ?_⟩
  · obtain ⟨m, hm⟩ := represents_of_reach_aborts (oneKeyIndex_reach 1021)
    obtain ⟨s₂, hrun, -⟩ := runOps_spec hm [.insert oneKey 7]
      ⟨⟨rfl, by decide⟩, fun _ _ _ => trivial⟩
    exact ⟨s₂, hrun⟩
  · obtain ⟨haborted, hpages⟩ := hone.aborted hfull
    rw [← hnext]
    refine haborted.insert_fails ?_
    rw [hpages]
    exact hone.fresh _ le_rfl

end ArcGraph.Index.Secondary
