import ArcGraph.Index.PrimaryMap
import ArcGraph.Index.Rollback

/-!
# Rollback of the primary index

The write path captures a page when it is about to change it, at the leaf and at every
page that takes a promoted key, so that a drained log brings the pages back.
-/

namespace ArcGraph.Index.Primary

variable {s : State} {leafId : Nat} {key : PrimaryKey}

theorem tracked_finishLeaf (hleaf : s.Logged leafId) (entries : List LeafEntry)
    (previous : Option PageSlot) :
    Tracked s (finishLeaf leafId entries previous) fun _ _ => True := by
  refine (tracked_writePage hleaf _).bind fun _ s1 h1 _ => ?_
  exact (tracked_stageEmit _ _).map

theorem tracked_splitAndInsert (hleaf : s.Logged leafId) (entries : List LeafEntry)
    (key : PrimaryKey) (value : PageSlot) :
    Tracked s (splitAndInsert leafId entries key value) fun _ _ => True := by
  refine tracked_alloc.bind fun newId s1 h1 _ => ?_
  refine (tracked_liftExcept _).bind fun halves s2 h2 _ => ?_
  have hleaf2 := h2.logged _ (h1.logged _ hleaf)
  refine (tracked_writePage hleaf2 _).bind fun _ s3 h3 hleaf3 => ?_
  refine .ite (fun _ => ?_) fun _ => ?_
  · refine (tracked_liftExcept _).bind fun left s4 h4 _ => ?_
    refine (tracked_writePage (h4.logged _ hleaf3) _).bind fun _ s5 h5 _ => ?_
    exact tracked_emitSplit _ _ _ _ _ _
  · refine (tracked_liftExcept _).bind fun right s4 h4 _ => ?_
    exact tracked_emitSplit _ _ _ _ _ _

theorem tracked_applyOp (hleaf : s.Logged leafId) (entries : List LeafEntry) (key : PrimaryKey)
    (value : Option PageSlot) (op : WriteOp) :
    Tracked s (applyOp leafId entries key value op) fun _ _ => True := by
  cases op with
  | insert =>
    cases value with
    | none => exact tracked_throw _ _
    | some v =>
      refine .ite (fun _ => tracked_splitAndInsert hleaf entries key v) fun _ => ?_
      refine (tracked_liftExcept _).bind fun new s1 h1 _ => ?_
      exact tracked_finishLeaf (h1.logged _ hleaf) new none
  | upsert =>
    cases value with
    | none => exact tracked_throw _ _
    | some v =>
      refine .ite (fun _ => ?_) fun _ => tracked_splitAndInsert hleaf entries key v
      refine (tracked_liftExcept _).bind fun new s1 h1 _ => ?_
      exact tracked_finishLeaf (h1.logged _ hleaf) new.1 new.2
  | remove => exact tracked_finishLeaf hleaf _ _

theorem tracked_applyLeafOp (leafId : Nat) (key : PrimaryKey) (value : Option PageSlot)
    (op : WriteOp) : Tracked s (applyLeafOp leafId key value op) fun _ _ => True := by
  refine tracked_latch_capture leafId fun page s1 hlogged => ?_
  cases page with
  | leaf entries => exact tracked_applyOp hlogged entries key value op
  | internal => exact tracked_throw _ _
  | overflow => exact tracked_throw _ _

theorem tracked_applyInternalInsert (pageId : Nat) (incoming : SplitInfo PrimaryKey) :
    Tracked s (applyInternalInsert pageId incoming) fun _ _ => True :=
  tracked_latch_capture pageId fun _ _ hlogged => tracked_insertSplit config hlogged incoming

theorem tracked_writeDeferred (key : PrimaryKey) (value : Option PageSlot) (op : WriteOp) :
    Tracked s (writeDeferred key value op) fun _ _ => True := by
  -- pages are captured where they are changed, so nothing has to be known of the path
  have hmono : ∀ (s s' : State) (_ : Nat), Tracks s s' → True → True := fun _ _ _ _ h => h
  refine (tracked_modify _ (Tracks.of_same rfl rfl rfl le_rfl)).bind fun _ s1 h1 _ => ?_
  refine tracked_root.bind fun rootId s2 h2 _ => ?_
  refine tracked_get.bind fun s3 s4 h4 _ => ?_
  refine (tracked_descendWrite (Q := fun _ _ => True) hmono
    (fun s id page _ => tracked_pure _ trivial) key _ _ [] trivial (by simp)).bind
    fun r s5 h5 _ => ?_
  refine (tracked_applyLeafOp r.1 key value op).bind fun outcome s6 h6 _ => ?_
  refine (tracked_absorb (Q := fun _ _ => True) hmono
    (fun s id split _ => tracked_applyInternalInsert id split) config publishRoot r.2 outcome.2
    (by simp)).bind fun _ s7 h7 _ => ?_
  exact tracked_get.map

end ArcGraph.Index.Primary
