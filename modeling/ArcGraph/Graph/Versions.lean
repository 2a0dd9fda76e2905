import ArcGraph.Graph.Store

/-!
# Versions and snapshots

What first-committer-wins rests on, whatever the transactions do: the newest state of a node
is the state it has had since its stamp, snapshots lie in the past, and every id in use has
been allocated. A transaction that commits therefore overwrites, at each node it writes,
the version its snapshot sees (`Versioned.overwrites`).
-/

namespace ArcGraph.Graph
open Transaction
variable {B : Type}

structure Versioned (w : World B) : Prop where
  stamped : ∀ lsn ≤ w.store.head, ∀ n, w.store.nodeStamp n ≤ lsn →
    (w.store.states w.store.head).node n = (w.store.states lsn).node n
  nodes : ∀ lsn ≤ w.store.head, ∀ n, ((w.store.states lsn).node n).isSome = true →
    n < w.store.nextNode
  snapshots : ∀ id tx, Active w id tx → tx.snapshot ≤ w.store.head
  staged : ∀ id tx, Active w id tx → ∀ n v, tx.nodeWrites.lookup n = some v →
    n < w.store.nextNode

theorem versioned_init : Versioned ({} : World B) where
  stamped _ _ _ _ := rfl
  nodes _ _ _ h := by cases h
  snapshots _ _ h := by cases h
  staged _ _ h := by cases h

/-! ## Calls -/

/-- What staging a call does to the nodes: the store keeps its states, and the transaction
writes at most one node more. -/
structure StagesNode (store : CrudStore B) (tx : Transaction B) (store' : CrudStore B)
    (tx' : Transaction B) : Prop where
  head : store'.head = store.head
  states : store'.states = store.states
  stamps : store'.nodeStamp = store.nodeStamp
  nextNode : store.nextNode ≤ store'.nextNode
  snapshot : tx'.snapshot = tx.snapshot
  nodeWrites : tx'.nodeWrites = tx.nodeWrites ∨ ∃ n v,
    tx'.nodeWrites = (n, v) :: tx.nodeWrites ∧
      (n < store'.nextNode ∨ (tx.readNode store n).isSome = true)

section
variable {store : CrudStore B} {tx tx' : Transaction B}

theorem Tombstones.stagesNode (h : Tombstones store tx tx') : StagesNode store tx store tx' :=
  ⟨rfl, rfl, rfl, le_rfl, h.snapshot, .inl h.nodeWrites⟩

theorem stagesNode_writeNode {n : NodeId} (v : Option B)
    (hread : (tx.readNode store n).isSome = true) : StagesNode store tx store (tx.writeNode n v) :=
  ⟨rfl, rfl, rfl, le_rfl, rfl, .inr ⟨n, v, rfl, .inr hread⟩⟩

theorem StagesNode.refl : StagesNode store tx store tx :=
  ⟨rfl, rfl, rfl, le_rfl, rfl, .inl rfl⟩

theorem stagesNode_deleteNode (n : NodeId) (detach : Bool) :
    StagesNode store tx store (tx.deleteNode store n detach).2 := by
  obtain ⟨_, htomb, heq | ⟨heq, hread, -⟩⟩ := @deleteNode_cases B store tx n detach
  · rw [heq]
    exact htomb.stagesNode
  · rw [heq]
    rw [htomb.readNode] at hread
    refine ⟨rfl, rfl, rfl, le_rfl, htomb.snapshot, .inr ⟨n, none, ?_, .inr hread⟩⟩
    rw [writeNode, htomb.nodeWrites]

theorem stagesNode_stage (c : WriteCall B) :
    StagesNode store tx (store.stage tx c).2.1 (store.stage tx c).2.2 := by
  cases c with
  | createNode props =>
    exact ⟨rfl, rfl, rfl, Nat.le_succ _, rfl,
      .inr ⟨store.nextNode, some props, rfl, .inl (Nat.lt_succ_self _)⟩⟩
  | createRel => exact ⟨rfl, rfl, rfl, le_rfl, rfl, .inl rfl⟩
  | deleteRel r => exact (deleteRel_tombstones r).1.stagesNode
  | deleteNode n detach => exact stagesNode_deleteNode n detach
  | setNode n =>
    dsimp only [CrudStore.stage, setNode]
    cases hread : tx.readNode store n with
    | none => exact .refl
    | some => exact stagesNode_writeNode _ (by rw [hread]; rfl)
  | setRel r =>
    dsimp only [CrudStore.stage, setRel]
    cases hread : tx.readRel store r with
    | none => exact .refl
    | some => exact ⟨rfl, rfl, rfl, le_rfl, rfl, .inl rfl⟩

end

/-! ## Steps -/

variable {w w' : World B} {id : TxnId} {tx : Transaction B}

variable {n : NodeId} {s : Option (Session B)} {v : Option B} {tx' : Transaction B}

theorem Versioned.lt_nextNode_of_read (h : Versioned w) (hactive : Active w id tx)
    (hread : (tx.readNode w.store n).isSome = true) : n < w.store.nextNode := by
  unfold readNode at hread
  cases hlook : tx.nodeWrites.lookup n with
  | some v => exact h.staged id tx hactive n v hlook
  | none =>
    rw [hlook, Option.getD_none] at hread
    exact h.nodes _ (h.snapshots id tx hactive) n hread

theorem not_conflicts_nodeStamp (hfirst : w.store.conflicts tx = false)
    (hlook : tx.nodeWrites.lookup n = some v) : w.store.nodeStamp n ≤ tx.snapshot := by
  have hmem : (n, v) ∈ tx.nodeWrites := by
    obtain ⟨_, _, heq, -⟩ := List.lookup_eq_some_iff.mp hlook
    rw [heq]
    exact List.mem_append_right _ List.mem_cons_self
  simp only [CrudStore.conflicts, Bool.or_eq_false_iff, List.any_eq_false, decide_eq_true_eq,
    Nat.not_lt] at hfirst
  exact hfirst.1 _ hmem

/-- A transaction that wins overwrites the version of its snapshot. -/
theorem Versioned.overwrites (h : Versioned w) (hactive : Active w id tx)
    (hfirst : w.store.conflicts tx = false) (hlook : tx.nodeWrites.lookup n = some v) :
    (w.store.states w.store.head).node n = (w.store.states tx.snapshot).node n :=
  h.stamped _ (h.snapshots id tx hactive) n (not_conflicts_nodeStamp hfirst hlook)

theorem active_of_setSession (hs : ∀ tx, s ≠ some (.active tx)) {id' : TxnId}
    (h : Active (w.setSession id s) id' tx') : id' ≠ id ∧ Active w id' tx' := by
  exact (of_active_setSession h).resolve_left fun heq => hs tx' heq.2

variable (h : Versioned w)
include h

namespace Versioned

theorem endSession (hs : ∀ tx, s ≠ some (.active tx)) : Versioned (w.setSession id s) where
  stamped := h.stamped
  nodes := h.nodes
  snapshots id' tx' hactive := h.snapshots id' tx' (active_of_setSession hs hactive).2
  staged id' tx' hactive := h.staged id' tx' (active_of_setSession hs hactive).2

theorem begin : Versioned (w.setSession id (some (.active { snapshot := w.store.head }))) where
  stamped := h.stamped
  nodes := h.nodes
  snapshots id' tx' hactive := by
    rcases of_active_setSession hactive with ⟨-, ⟨⟩⟩ | ⟨-, hold⟩
    · exact le_rfl
    · exact h.snapshots id' tx' hold
  staged id' tx' hactive n v hlook := by
    rcases of_active_setSession hactive with ⟨-, ⟨⟩⟩ | ⟨-, hold⟩
    · cases hlook
    · exact h.staged id' tx' hold n v hlook

theorem restage (hactive : Active w id tx)
    (hsnapshot : tx'.snapshot = tx.snapshot) (hwrites : ∀ m v, tx'.nodeWrites.lookup m = some v →
      tx.nodeWrites.lookup m = some v ∨ (tx.readNode w.store m).isSome = true) :
    Versioned (w.setSession id (some (.active tx'))) where
  stamped := h.stamped
  nodes := h.nodes
  snapshots id' tx'' htx := by
    rcases of_active_setSession htx with ⟨rfl, ⟨⟩⟩ | ⟨-, hold⟩
    · rw [hsnapshot]
      exact h.snapshots id' tx hactive
    · exact h.snapshots id' tx'' hold
  staged id' tx'' htx m v hv := by
    rcases of_active_setSession htx with ⟨rfl, ⟨⟩⟩ | ⟨-, hold⟩
    · rcases hwrites m v hv with hold | hread
      · exact h.staged id' tx hactive m v hold
      · exact h.lt_nextNode_of_read hactive hread
    · exact h.staged id' tx'' hold m v hv

theorem call (hactive : Active w id tx) (c : WriteCall B) : Versioned (w.call id tx c) := by
  have hstage := @stagesNode_stage B w.store tx c
  have hhead : (w.call id tx c).store.head = w.store.head := hstage.head
  have hstates : (w.call id tx c).store.states = w.store.states := hstage.states
  refine ⟨fun lsn hlsn n hn => ?_, fun lsn hlsn n hn => ?_, fun id' tx' h' => ?_,
    fun id' tx' h' n v hlook => ?_⟩
  · rw [hhead, hstates]
    exact h.stamped lsn (hhead ▸ hlsn) n (hstage.stamps ▸ hn)
  · rw [hstates] at hn
    exact Nat.lt_of_lt_of_le (h.nodes lsn (hhead ▸ hlsn) n hn) hstage.nextNode
  · rw [hhead]
    rcases of_active_setSession h' with ⟨rfl, ⟨⟩⟩ | ⟨-, hold⟩
    · rw [hstage.snapshot]
      exact h.snapshots id' tx hactive
    · exact h.snapshots id' tx' hold
  · rcases of_active_setSession h' with ⟨rfl, ⟨⟩⟩ | ⟨-, hold⟩
    · rcases hstage.nodeWrites with hsame | ⟨n', v', hcons, hknown⟩
      · rw [hsame] at hlook
        exact Nat.lt_of_lt_of_le (h.staged id' tx hactive n v hlook) hstage.nextNode
      · by_cases hn : n = n'
        · subst hn
          rcases hknown with hlt | hread
          · exact hlt
          · exact Nat.lt_of_lt_of_le (h.lt_nextNode_of_read hactive hread) hstage.nextNode
        · rw [hcons, lookup_cons_ne _ _ hn] at hlook
          exact Nat.lt_of_lt_of_le (h.staged id' tx hactive n v hlook) hstage.nextNode
    · have hlt := h.staged id' tx' hold n v hlook
      exact Nat.lt_of_lt_of_le hlt hstage.nextNode

theorem install (hactive : Active w id tx) (hs : ∀ tx, s ≠ some (.active tx)) :
    Versioned (World.setSession { w with store := w.store.install tx } id s) where
  stamped lsn hlsn n hn := by
    change ((w.store.install tx).states (w.store.install tx).head).node n =
      ((w.store.install tx).states lsn).node n
    rcases states_install hlsn with ⟨hold, hstate⟩ | ⟨rfl, -⟩
    · rw [states_install_head, hstate]
      change (if (tx.nodeWrites.lookup n).isSome then w.store.head + 1
        else w.store.nodeStamp n) ≤ lsn at hn
      cases hlook : tx.nodeWrites.lookup n with
      | some =>
        simp only [hlook, Option.isSome_some, if_true] at hn
        omega
      | none =>
        simp only [hlook, Option.isSome_none, Bool.false_eq_true, if_false] at hn
        change (List.lookup n tx.nodeWrites).getD _ = _
        rw [hlook, Option.getD_none]
        exact h.stamped lsn hold n hn
    · rfl
  nodes lsn hlsn n hn := by
    change n < w.store.nextNode
    change ((w.store.install tx).states lsn).node n |>.isSome at hn
    rcases states_install hlsn with ⟨hold, hstate⟩ | ⟨-, hstate⟩ <;> rw [hstate] at hn
    · exact h.nodes lsn hold n hn
    · change ((List.lookup n tx.nodeWrites).getD _).isSome = true at hn
      cases hlook : tx.nodeWrites.lookup n with
      | some v => exact h.staged id tx hactive n v hlook
      | none =>
        rw [hlook, Option.getD_none] at hn
        exact h.nodes _ le_rfl n hn
  snapshots id' tx' h' :=
    Nat.le_succ_of_le (h.snapshots id' tx' (active_of_setSession hs h').2)
  staged id' tx' h' := h.staged id' tx' (active_of_setSession hs h').2

end Versioned

theorem versioned_step {a : Action B} (hstep : step w a = some w') : Versioned w' := by
  cases a with simp only [step] at hstep
  | begin =>
    split at hstep
    · cases hstep
      exact h.begin
    · cases hstep
  | call _ c =>
    split at hstep
    · rename_i tx hactive
      cases hstep
      exact h.call hactive c
    · cases hstep
  | commit =>
    split at hstep
    · rename_i tx hactive
      cases hstep
      unfold World.commit
      split
      · exact h.endSession fun _ hs => by cases hs
      · exact h.install hactive fun _ hs => by cases hs
    · cases hstep
  | append id =>
    split at hstep
    · rename_i createdLsn pending hsession
      cases hstep
      cases pending with
      | nil => exact h.endSession fun _ hs => by cases hs
      | cons _ rest =>
        have happend : Versioned (w.setSession id (some (.appending createdLsn rest))) :=
          h.endSession fun _ hs => by cases hs
        exact ⟨happend.stamped, happend.nodes, happend.snapshots, happend.staged⟩
    · cases hstep
  | abort =>
    split at hstep
    · cases hstep
      exact h.endSession fun _ hs => by cases hs
    · cases hstep

end ArcGraph.Graph
