import ArcGraph.Merge.Statements

/-!
# Open transactions of MERGE statements

Which statements have an open transaction, what the queue of installed transactions may
hold, and what updates of matched nodes do. With actions that keep accepted nodes accepted,
a node that the filter accepts in a committed state is accepted in all later ones
(`Persistent`).
-/

namespace ArcGraph.Merge
open ArcGraph.Graph List Transaction
variable {B : Type} {stmts : StmtId → Statement B} {rest : List (Clause B)} {matched : List NodeId}
  {n : NodeId} (P : B → Bool)

/-! ## Sessions, snapshots and the queue -/

/-- How the phase of a statement agrees with its transaction, the queue and its text. -/
structure RunOk (stmts : StmtId → Statement B) (w : World B) (id : StmtId) : Prop where
  opened : (w.runs id).phase.Open ↔ ∃ tx, Active w.graph id tx
  queued : id ∈ w.installed ↔ (w.runs id).phase = .installed
  probing : ∀ rest, (w.runs id).phase = .probing rest → rest ⊆ (stmts id).clauses
  staging : ∀ c matched rest, (w.runs id).phase = .staging c matched rest →
    c ∈ (stmts id).clauses ∧ rest ⊆ (stmts id).clauses
  ended : (w.runs id).outcome ≠ none → ∃ rest, (w.runs id).phase = .releasing rest

/-- Installed transactions overwrite the versions their snapshots see, and no two of them
write the same node. -/
structure Queued (w : World B) : Prop where
  first : ∀ id ∈ w.installed, ∀ tx, Active w.graph id tx → ∀ n v,
    tx.nodeWrites.lookup n = some v → w.graph.store.nodeStamp n ≤ tx.snapshot
  apart : ∀ id ∈ w.installed, ∀ id' ∈ w.installed, id ≠ id' → ∀ tx tx', Active w.graph id tx →
    Active w.graph id' tx' → ∀ n v v', tx.nodeWrites.lookup n = some v →
      tx'.nodeWrites.lookup n ≠ some v'

structure Stored (stmts : StmtId → Statement B) (base : Nat) (w : World B) : Prop where
  versioned : Versioned w.graph
  snapshots : ∀ id tx, Active w.graph id tx → base ≤ tx.snapshot
  runs : ∀ id, RunOk stmts w id
  queue : Queued w

/-! ## Updates of matched nodes -/

def Accepted (state : GraphState B) (n : NodeId) : Prop :=
  ∃ b, state.node n = some b ∧ P b = true

def Reads (store : CrudStore B) (tx : Transaction B) (n : NodeId) : Prop :=
  ∃ b, tx.readNode store n = some b ∧ P b = true

/-- What the update of matched nodes does: it keeps the snapshot, writes only nodes the
transaction reads, and keeps accepted nodes accepted. -/
structure Updates (P : B → Bool) (store : CrudStore B) (tx tx' : Transaction B) : Prop where
  snapshot : tx'.snapshot = tx.snapshot
  writes : ∀ m v, tx'.nodeWrites.lookup m = some v →
    tx.nodeWrites.lookup m = some v ∨ (tx.readNode store m).isSome = true
  reads : ∀ m, (tx'.readNode store m).isSome = (tx.readNode store m).isSome
  keeps : ∀ m, Reads P store tx m → Reads P store tx' m

section
variable {P : B → Bool} {store : CrudStore B} {tx tx' tx'' : Transaction B} {n m : NodeId}

theorem Updates.refl : Updates P store tx tx := ⟨rfl, fun _ _ h => .inl h, fun _ => rfl, fun _ h => h⟩

theorem Updates.trans (h : Updates P store tx tx') (h' : Updates P store tx' tx'') :
    Updates P store tx tx'' where
  snapshot := h'.snapshot.trans h.snapshot
  writes m v hv := by
    rcases h'.writes m v hv with hold | hread
    · exact h.writes m v hold
    · exact .inr ((h.reads m).symm.trans hread)
  reads m := (h'.reads m).trans (h.reads m)
  keeps m hm := h'.keeps m (h.keeps m hm)

theorem readNode_writeNode_self (v : Option B) : (tx.writeNode n v).readNode store n = v := by
  simp [readNode, writeNode]

theorem readNode_writeNode_ne (v : Option B) (h : m ≠ n) :
    (tx.writeNode n v).readNode store m = tx.readNode store m := by
  unfold readNode
  rw [show (tx.writeNode n v).nodeWrites.lookup m = tx.nodeWrites.lookup m from
    lookup_cons_ne v _ h]
  rfl

theorem updates_setNode {f : B → B} (hf : ∀ b, P b = true → P (f b) = true) :
    Updates P store tx (tx.setNode store n f).2 := by
  unfold setNode
  cases hread : tx.readNode store n with
  | none => exact .refl
  | some b =>
    refine ⟨rfl, fun m v hv => ?_, fun m => ?_, fun m hm => ?_⟩
    · by_cases hmn : m = n
      · subst hmn
        exact .inr (by rw [hread]; rfl)
      · exact .inl ((lookup_cons_ne _ _ hmn).symm.trans hv)
    · by_cases hmn : m = n
      · subst hmn
        rw [readNode_writeNode_self, hread]
        rfl
      · rw [readNode_writeNode_ne _ hmn]
    · by_cases hmn : m = n
      · subst hmn
        obtain ⟨_, hb', hP⟩ := hm
        cases hread.symm.trans hb'
        exact ⟨f b, readNode_writeNode_self _, hf b hP⟩
      · unfold Reads
        rw [readNode_writeNode_ne _ hmn]
        exact hm

theorem updates_fire {actions : List (B → B)}
    (hkeeps : ∀ f ∈ actions, ∀ b, P b = true → P (f b) = true) :
    Updates P store tx (Clause.fire store n actions tx) := by
  induction actions generalizing tx with
  | nil => exact .refl
  | cons f _ ih =>
    have hfirst := @updates_setNode B P store tx n f (hkeeps f mem_cons_self)
    exact hfirst.trans (ih fun g hg => hkeeps g (mem_cons_of_mem f hg))

theorem updates_stageMatched {c : Clause B} {nodes : List NodeId}
    (hkeeps : ∀ f ∈ c.onMatch, ∀ b, P b = true → P (f b) = true) :
    Updates P store tx (c.stageMatched store nodes tx) := by
  induction nodes generalizing tx with
  | nil => exact .refl
  | cons _ _ ih => exact (updates_fire hkeeps).trans ih

end

/-! ## Steps -/

open World

section
variable {base : Nat} {w w' : World B} {id id' : StmtId} {tx tx' : Transaction B}

theorem RunOk.frame (h : RunOk stmts w id) (hruns : w'.runs id = w.runs id)
    (hactive : ∀ tx, Active w'.graph id tx ↔ Active w.graph id tx)
    (hqueue : id ∈ w'.installed ↔ id ∈ w.installed) : RunOk stmts w' id := by
  refine ⟨?_, ?_, ?_, ?_, ?_⟩
  · rw [hruns]
    simp only [hactive]
    exact h.opened
  · rw [hruns, hqueue]
    exact h.queued
  · rw [hruns]
    exact h.probing
  · rw [hruns]
    exact h.staging
  · rw [hruns]
    exact h.ended

/-- The queue loses entries only, and no stamp of what stays has moved. -/
theorem Queued.frame (h : Queued w) (hsub : ∀ id ∈ w'.installed, id ∈ w.installed)
    (hactive : ∀ id ∈ w'.installed, ∀ tx, Active w'.graph id tx → Active w.graph id tx)
    (hstamp : ∀ id ∈ w'.installed, ∀ tx, Active w'.graph id tx → ∀ n v,
      tx.nodeWrites.lookup n = some v →
        w'.graph.store.nodeStamp n = w.graph.store.nodeStamp n) : Queued w' where
  first id hid tx htx n v hv := by
    rw [hstamp id hid tx htx n v hv]
    exact h.first id (hsub id hid) tx (hactive id hid tx htx) n v hv
  apart id hid id' hid' hne tx tx' htx htx' :=
    h.apart id (hsub id hid) id' (hsub id' hid') hne tx tx' (hactive id hid tx htx)
      (hactive id' hid' tx' htx')

/-- One statement moves: the others keep their transactions and their place in the queue. -/
structure Moves (id : StmtId) (w w' : World B) : Prop where
  runs : ∀ id', id' ≠ id → w'.runs id' = w.runs id'
  active : ∀ id', id' ≠ id → ∀ tx, Active w'.graph id' tx ↔ Active w.graph id' tx
  queue : ∀ id', id' ≠ id → (id' ∈ w'.installed ↔ id' ∈ w.installed)

theorem Moves.stored (hmoves : Moves id w w') (h : Stored stmts base w)
    (hversioned : Versioned w'.graph)
    (hsnapshot : ∀ tx, Active w'.graph id tx → base ≤ tx.snapshot) (hself : RunOk stmts w' id)
    (hqueue : Queued w') : Stored stmts base w' where
  versioned := hversioned
  snapshots id' tx htx := by
    by_cases heq : id' = id
    · subst heq
      exact hsnapshot tx htx
    · exact h.snapshots id' tx ((hmoves.active id' heq tx).mp htx)
  runs id' := by
    by_cases heq : id' = id
    · subst heq
      exact hself
    · exact (h.runs id').frame (hmoves.runs id' heq) (hmoves.active id' heq)
        (hmoves.queue id' heq)
  queue := hqueue

theorem Moves.queued (hmoves : Moves id w w') (h : Queued w) (hself : id ∉ w'.installed)
    (hstamps : w'.graph.store.nodeStamp = w.graph.store.nodeStamp) : Queued w' := by
  have hne : ∀ id' ∈ w'.installed, id' ≠ id := fun id' hid' heq => hself (heq ▸ hid')
  refine h.frame (fun id' hid' => (hmoves.queue id' (hne id' hid')).mp hid')
    (fun id' hid' tx htx => (hmoves.active id' (hne id' hid') tx).mp htx)
    fun _ _ _ _ n _ _ => congrFun hstamps n

theorem moves_setPhase (phase : Phase B) (locks : String → Option StmtId) :
    Moves id w { w.setPhase id phase with locks } :=
  ⟨fun _ hne => runs_setPhase_ne _ hne, fun _ _ _ => .rfl, fun _ _ => .rfl⟩

theorem RunOk.not_installed (h : RunOk stmts w id) (hphase : (w.runs id).phase ≠ .installed) :
    id ∉ w.installed :=
  fun hmem => hphase (h.queued.mp hmem)

theorem RunOk.outcome_eq_none (h : RunOk stmts w id) {phase : Phase B}
    (hphase : (w.runs id).phase = phase) (hnot : ∀ rest, phase ≠ .releasing rest) :
    (w.runs id).outcome = none := by
  by_contra hout
  obtain ⟨rest, hrest⟩ := h.ended hout
  exact hnot rest (hphase.symm.trans hrest)

theorem Stored.setPhase (h : Stored stmts base w) {old phase : Phase B}
    {locks : String → Option StmtId} (hold : (w.runs id).phase = old)
    (hopen : phase.Open ↔ old.Open) (hbefore : old ≠ .installed) (hafter : phase ≠ .installed)
    (hprobing : ∀ rest, phase = .probing rest → rest ⊆ (stmts id).clauses)
    (hstaging : ∀ c matched rest, phase = .staging c matched rest →
      c ∈ (stmts id).clauses ∧ rest ⊆ (stmts id).clauses)
    (hended : (w.runs id).outcome ≠ none → ∃ rest, phase = .releasing rest) :
    Stored stmts base { w.setPhase id phase with locks } := by
  subst hold
  have hnot := (h.runs id).not_installed hbefore
  have hphase : ((w.setPhase id phase).runs id).phase = phase := phase_setPhase_self _
  refine (moves_setPhase phase locks).stored h h.versioned (h.snapshots id) ⟨?_, ?_, ?_, ?_, ?_⟩
    ((moves_setPhase phase locks).queued h.queue hnot rfl)
  · change ((w.setPhase id phase).runs id).phase.Open ↔ _
    rw [hphase, hopen]
    exact (h.runs id).opened
  · change _ ↔ ((w.setPhase id phase).runs id).phase = _
    rw [hphase]
    exact ⟨fun hmem => absurd hmem hnot, fun heq => absurd heq hafter⟩
  · change ∀ rest, ((w.setPhase id phase).runs id).phase = _ → _
    rw [hphase]
    exact hprobing
  · change ∀ c matched rest, ((w.setPhase id phase).runs id).phase = _ → _
    rw [hphase]
    exact hstaging
  · change _ → ∃ rest, ((w.setPhase id phase).runs id).phase = _
    rw [hphase]
    intro hout
    refine hended ?_
    simpa [World.setPhase] using hout

theorem moves_finish (store : CrudStore B) (keys : List String) (committed : Bool) :
    Moves id w (finish { w with graph := { w.graph with store } } id keys committed) where
  runs _ hne := runs_finish_ne _ _ hne
  active _ hne _ := active_setSession_ne hne
  queue id' hne := by simp [finish, hne]

theorem runOk_finish (w : World B) (id : StmtId) (keys : List String) (committed : Bool) :
    RunOk stmts (w.finish id keys committed) id := by
  have hphase : ((w.finish id keys committed).runs id).phase = .releasing keys := by
    rw [runs_finish_self]
  refine ⟨?_, ?_, ?_, ?_, fun _ => ⟨keys, hphase⟩⟩
  · rw [hphase]
    refine ⟨fun h => h.elim, fun ⟨tx, htx⟩ => ?_⟩
    cases active_setSession_self.mp htx
  · rw [hphase]
    simp [finish]
  · rw [hphase]
    intro rest h
    cases h
  · rw [hphase]
    intro c matched rest h
    cases h

theorem Stored.finish (h : Stored stmts base w) (keys : List String) (committed : Bool) :
    Stored stmts base (w.finish id keys committed) := by
  have hmoves := @moves_finish B w id w.graph.store keys committed
  refine hmoves.stored h (h.versioned.endSession fun _ hs => by cases hs) (fun tx htx => ?_)
    (runOk_finish w id keys committed) (hmoves.queued h.queue ?_ rfl)
  · cases active_setSession_self.mp htx
  · simp [World.finish]

/-- A transaction of the queue is published. The others of the queue write other nodes. -/
theorem Stored.publish (h : Stored stmts base w) (hid : id ∈ w.installed)
    (hactive : Active w.graph id tx) (keys : List String) :
    Stored stmts base (w.publish id keys tx) := by
  have hmoves := @moves_finish B w id (w.graph.store.install tx) keys true
  refine hmoves.stored h (h.versioned.install hactive fun _ hs => by cases hs) (fun tx htx => ?_)
    (runOk_finish _ id keys true) ?_
  · cases active_setSession_self.mp htx
  · have hne : ∀ id' ∈ (w.publish id keys tx).installed, id' ≠ id := by
      intro id' hid'
      simpa using (mem_filter.mp hid').2
    refine h.queue.frame (fun id' hid' => (hmoves.queue id' (hne id' hid')).mp hid')
      (fun id' hid' tx' htx' => (hmoves.active id' (hne id' hid') tx').mp htx')
      fun id' hid' tx' htx' n v hv => ?_
    have hnone : tx.nodeWrites.lookup n = none := by
      cases hlook : tx.nodeWrites.lookup n with
      | none => rfl
      | some v' =>
        exact absurd hlook (h.queue.apart id' ((hmoves.queue id' (hne id' hid')).mp hid') id hid
          (hne id' hid') tx' tx ((hmoves.active id' (hne id' hid') tx').mp htx') hactive n v v'
          hv)
    change (if (tx.nodeWrites.lookup n).isSome then _ else _) = _
    rw [hnone]
    rfl

/-- The statement has its mutexes and begins its transaction. -/
def World.begun (stmts : StmtId → Statement B) (w : World B) (id : StmtId) : World B :=
  { w.setPhase id (.probing (stmts id).clauses) with
    graph := w.graph.setSession id (some (.active { snapshot := w.graph.store.head })) }

theorem moves_begun (stmts : StmtId → Statement B) (w : World B) (id : StmtId) :
    Moves id w (w.begun stmts id) :=
  ⟨fun _ hne => runs_setPhase_ne _ hne, fun _ hne _ => active_setSession_ne hne, fun _ _ => .rfl⟩

theorem Stored.begin (h : Stored stmts base w) (hbase : base ≤ w.graph.store.head)
    (hphase : (w.runs id).phase = .acquiring []) : Stored stmts base (w.begun stmts id) := by
  have hnot : id ∉ w.installed := (h.runs id).not_installed (by rw [hphase]; simp)
  have hout := (h.runs id).outcome_eq_none hphase (by simp)
  have hmoves := moves_begun stmts w id
  have hself : ((w.begun stmts id).runs id).phase =
      .probing (stmts id).clauses := phase_setPhase_self _
  refine hmoves.stored h h.versioned.begin (fun tx htx => ?_) ⟨?_, ?_, ?_, ?_, ?_⟩
    (hmoves.queued h.queue hnot rfl)
  · cases active_setSession_self.mp htx
    exact hbase
  · refine ⟨fun _ => ⟨_, active_setSession_self.mpr rfl⟩, fun _ => ?_⟩
    rw [hself]
    trivial
  · rw [hself]
    exact ⟨fun hmem => absurd hmem hnot, fun heq => by cases heq⟩
  · rw [hself]
    intro rest heq
    cases heq
    exact Subset.refl _
  · rw [hself]
    intro c matched rest heq
    cases heq
  · intro hsome
    refine absurd hout ?_
    simpa [World.begun, World.setPhase] using hsome

variable (c : Clause B)

theorem moves_staged (matched : List NodeId) (rest : List (Clause B)) :
    Moves id w (w.staged id c matched rest tx) where
  runs _ hne := runs_staged_ne _ _ _ _ hne
  active id' hne tx' := by
    cases matched <;> exact active_setSession_ne hne
  queue id' _ := by
    cases matched <;> exact .rfl

def Clause.after (store : CrudStore B) (tx : Transaction B) :
    List NodeId → Transaction B
  | [] => tx.writeNode store.nextNode (some c.created)
  | nodes => c.stageMatched store nodes tx

theorem snapshot_after (store : CrudStore B) (matched : List NodeId) :
    (c.after store tx matched).snapshot = tx.snapshot := by
  cases matched with
  | nil => rfl
  | cons n nodes =>
    exact (@updates_stageMatched B (fun _ => false) store tx c (n :: nodes)
      fun _ _ _ hb => by cases hb).snapshot

theorem active_staged {c : Clause B}
    (hactive : Active (w.staged id c matched rest tx).graph id tx') :
    tx' = c.after w.graph.store tx matched := by
  cases matched with
  | nil | cons =>
    cases active_setSession_self.mp hactive
    rfl

theorem outcome_staged (matched : List NodeId) (rest : List (Clause B)) :
    ((w.staged id c matched rest tx).runs id).outcome = (w.runs id).outcome := by
  cases matched <;> simp [staged]

theorem Stored.staged (h : Stored stmts base w) (hactive : Active w.graph id tx) {c : Clause B}
    (hphase : (w.runs id).phase = .staging c matched rest) :
    Stored stmts base (w.staged id c matched rest tx) := by
  have hnot : id ∉ w.installed := (h.runs id).not_installed (by rw [hphase]; simp)
  have hout := (h.runs id).outcome_eq_none hphase (by simp)
  have hmoves := @moves_staged B w id tx c matched rest
  have hself := @runs_staged_self B w id c matched rest tx
  have hupdates := @updates_stageMatched B (fun _ => false) w.graph.store tx c matched
    fun _ _ _ hb => by cases hb
  have hversioned : Versioned (w.staged id c matched rest tx).graph := by
    cases matched with
    | nil => exact h.versioned.call hactive _
    | cons => exact h.versioned.restage hactive hupdates.snapshot hupdates.writes
  refine hmoves.stored h hversioned (fun tx' htx' => ?_) ⟨?_, ?_, ?_, ?_, ?_⟩
    (hmoves.queued h.queue ?_ ?_)
  · rw [active_staged htx', snapshot_after]
    exact h.snapshots id tx hactive
  · rw [hself]
    refine ⟨fun _ => ?_, fun _ => trivial⟩
    cases matched <;> exact ⟨_, active_setSession_self.mpr rfl⟩
  · rw [hself]
    refine ⟨fun hmem => ?_, fun heq => by cases heq⟩
    cases matched <;> exact absurd hmem hnot
  · rw [hself]
    intro rest' heq
    cases heq
    exact ((h.runs id).staging c matched rest hphase).2
  · rw [hself]
    intro c' matched' rest' heq
    cases heq
  · rw [outcome_staged]
    exact fun hsome => absurd hout hsome
  · cases matched <;> exact hnot
  · cases matched <;> rfl

theorem not_contended (hfree : w.contended tx = false) (hid : id ∈ w.installed)
    (hactive : Active w.graph id tx') {v : Option B}
    (hlook : tx.nodeWrites.lookup n = some v) : tx'.nodeWrites.lookup n = none := by
  have hmem : (n, v) ∈ tx.nodeWrites := by
    obtain ⟨_, _, heq, -⟩ := lookup_eq_some_iff.mp hlook
    rw [heq]
    exact mem_append_right _ mem_cons_self
  have hsession : w.graph.sessions id = some (.active tx') := hactive
  unfold contended at hfree
  have hone := any_eq_false.mp hfree id hid
  simp only [hsession, any_eq_true, not_exists, not_and, Bool.not_eq_true] at hone
  simpa using hone (n, v) hmem

theorem Stored.enqueue (h : Stored stmts base w) (hactive : Active w.graph id tx)
    (hphase : (w.runs id).phase = .probing [])
    (hfirst : w.graph.store.conflicts tx = false) (hfree : w.contended tx = false) :
    Stored stmts base { w.setPhase id .installed with installed := w.installed ++ [id] } := by
  have hnot : id ∉ w.installed := (h.runs id).not_installed (by rw [hphase]; simp)
  have hout := (h.runs id).outcome_eq_none hphase (by simp)
  have hmoves : Moves id w { w.setPhase id .installed with installed := w.installed ++ [id] } :=
    ⟨fun _ hne => runs_setPhase_ne _ hne, fun _ _ _ => .rfl, fun id' hne => by simp [hne]⟩
  have hself : ((w.setPhase id .installed).runs id).phase = .installed := phase_setPhase_self _
  refine hmoves.stored h h.versioned (h.snapshots id) ⟨?_, ?_, ?_, ?_, ?_⟩ ⟨?_, ?_⟩
  · refine ⟨fun _ => ⟨tx, hactive⟩, fun _ => ?_⟩
    change ((w.setPhase id .installed).runs id).phase.Open
    rw [hself]
    trivial
  · exact ⟨fun _ => hself, fun _ => mem_append_right _ (mem_singleton.mpr rfl)⟩
  · change ∀ rest, ((w.setPhase id .installed).runs id).phase = _ → _
    rw [hself]
    intro rest heq
    cases heq
  · change ∀ c matched rest, ((w.setPhase id .installed).runs id).phase = _ → _
    rw [hself]
    intro c matched rest heq
    cases heq
  · intro hsome
    refine absurd hout ?_
    simpa [World.setPhase] using hsome
  · intro id' hid' tx' htx' n v hv
    rcases mem_append.mp hid' with hold | hnew
    · exact h.queue.first id' hold tx' htx' n v hv
    · cases mem_singleton.mp hnew
      cases Option.some.inj (hactive.symm.trans htx')
      exact not_conflicts_nodeStamp hfirst hv
  · intro id1 hid1 id2 hid2 hne tx1 tx2 htx1 htx2 n v v' hv hv'
    rcases mem_append.mp hid1 with hold1 | hnew1
    · rcases mem_append.mp hid2 with hold2 | hnew2
      · exact h.queue.apart id1 hold1 id2 hold2 hne tx1 tx2 htx1 htx2 n v v' hv hv'
      · cases mem_singleton.mp hnew2
        cases Option.some.inj (hactive.symm.trans htx2)
        rw [not_contended hfree hold1 htx1 hv'] at hv
        cases hv
    · rcases mem_append.mp hid2 with hold2 | hnew2
      · cases mem_singleton.mp hnew1
        cases Option.some.inj (hactive.symm.trans htx1)
        rw [not_contended hfree hold2 htx2 hv] at hv'
        cases hv'
      · cases mem_singleton.mp hnew1
        cases mem_singleton.mp hnew2
        exact hne rfl

end

/-! ## Accepted nodes stay accepted -/

/-- No ON MATCH action of any statement makes the filter reject a node it accepts. -/
def Keeps (stmts : StmtId → Statement B) (P : B → Bool) : Prop :=
  ∀ id, ∀ c ∈ (stmts id).clauses, ∀ f ∈ c.onMatch, ∀ b, P b = true → P (f b) = true

structure Persistent (P : B → Bool) (base : Nat) (w : World B) : Prop where
  base_le : base ≤ w.graph.store.head
  persists : ∀ l l', base ≤ l → l ≤ l' → l' ≤ w.graph.store.head → ∀ n,
    Accepted P (w.graph.store.states l) n → Accepted P (w.graph.store.states l') n
  views : ∀ id tx, Active w.graph id tx → ∀ n, Accepted P (w.graph.store.states tx.snapshot) n →
    Reads P w.graph.store tx n

variable {P : B → Bool} {base : Nat} {w w' : World B} {id id' : StmtId} {tx tx' : Transaction B}

/-- The committed states stay; every open transaction still sees what its snapshot has. -/
theorem Persistent.frame (h : Persistent P base w)
    (hhead : w'.graph.store.head = w.graph.store.head)
    (hstates : w'.graph.store.states = w.graph.store.states)
    (hviews : ∀ id tx, Active w'.graph id tx → ∀ n,
      Accepted P (w.graph.store.states tx.snapshot) n → Reads P w'.graph.store tx n) :
    Persistent P base w' where
  base_le := hhead ▸ h.base_le
  persists := by
    rw [hhead, hstates]
    exact h.persists
  views id tx htx n hn := by
    rw [hstates] at hn
    exact hviews id tx htx n hn

theorem reads_congr {store store' : CrudStore B}
    (hstates : store'.states tx.snapshot = store.states tx.snapshot) :
    Reads P store' tx n ↔ Reads P store tx n := by
  unfold Reads readNode
  rw [hstates]

variable (h : Persistent P base w)
include h

theorem Persistent.begin : Persistent P base (w.begun stmts id) := by
  refine h.frame rfl rfl fun id' tx' htx' n hn => ?_
  rcases of_active_setSession htx' with ⟨-, ⟨⟩⟩ | ⟨-, hold⟩
  · exact hn
  · exact h.views id' tx' hold n hn

theorem Persistent.finish (keys : List String) (committed : Bool) :
    Persistent P base (w.finish id keys committed) := by
  refine h.frame rfl rfl fun id' tx' htx' n hn => ?_
  obtain ⟨-, hold⟩ := active_of_setSession (fun _ hs => by cases hs) htx'
  exact h.views id' tx' hold n hn

variable (hstored : Stored stmts base w)
include hstored

theorem Persistent.staged (hkeeps : Keeps stmts P) (hactive : Active w.graph id tx) {c : Clause B}
    (hphase : (w.runs id).phase = .staging c matched rest) :
    Persistent P base (w.staged id c matched rest tx) := by
  have hc := ((hstored.runs id).staging c matched rest hphase).1
  have hupdates := @updates_stageMatched B P w.graph.store tx c matched (hkeeps id c hc)
  have hhead : (w.staged id c matched rest tx).graph.store.head = w.graph.store.head := by
    cases matched <;> rfl
  have hstates : (w.staged id c matched rest tx).graph.store.states = w.graph.store.states := by
    cases matched <;> rfl
  refine h.frame hhead hstates fun id' tx' htx' n hn => ?_
  rw [reads_congr (congrFun hstates _)]
  by_cases heq : id' = id
  · subst heq
    rw [active_staged htx'] at hn ⊢
    cases matched with
    | nil =>
      -- the new node is none of the snapshot
      have hlt : n < w.graph.store.nextNode := by
        obtain ⟨_, hb, -⟩ := hn
        exact hstored.versioned.nodes _ (hstored.versioned.snapshots id' tx hactive) n
          (by rw [snapshot_after] at hb; rw [hb]; rfl)
      have hold := h.views id' tx hactive n hn
      unfold Reads at hold ⊢
      rw [Clause.after, readNode_writeNode_ne _ (Nat.ne_of_lt hlt)]
      exact hold
    | cons =>
      rw [snapshot_after] at hn
      exact hupdates.keeps n (h.views id' tx hactive n hn)
  · exact h.views id' tx' ((@moves_staged B w id tx c matched rest).active id' heq tx' |>.mp htx')
      n hn

theorem accepted_installed (hid : id ∈ w.installed) (hactive : Active w.graph id tx)
    (hn : Accepted P (w.graph.store.states w.graph.store.head) n) :
    Accepted P (w.graph.store.installed tx) n := by
  cases hlook : tx.nodeWrites.lookup n with
  | none =>
    obtain ⟨b, hb, hP⟩ := hn
    refine ⟨b, ?_, hP⟩
    change (tx.nodeWrites.lookup n).getD _ = _
    rw [hlook]
    exact hb
  | some v =>
    have hsame := hstored.versioned.stamped _ (hstored.versioned.snapshots id tx hactive) n
      (hstored.queue.first id hid tx hactive n v hlook)
    have hsnapshot : Accepted P (w.graph.store.states tx.snapshot) n := by
      unfold Accepted
      rw [← hsame]
      exact hn
    obtain ⟨b, hb, hP⟩ := h.views id tx hactive n hsnapshot
    unfold readNode at hb
    rw [hlook, Option.getD_some] at hb
    refine ⟨b, ?_, hP⟩
    change (tx.nodeWrites.lookup n).getD _ = _
    rw [hlook, Option.getD_some]
    exact hb

theorem Persistent.publish
    (hid : id ∈ w.installed) (hactive : Active w.graph id tx) (keys : List String) :
    Persistent P base (w.publish id keys tx) where
  base_le := Nat.le_succ_of_le h.base_le
  persists l l' hl hll hl' n hn := by
    have hl' : l' ≤ w.graph.store.head + 1 := hl'
    change Accepted P ((w.graph.store.install tx).states l) n at hn
    change Accepted P ((w.graph.store.install tx).states l') n
    by_cases hnew : l' = w.graph.store.head + 1
    · by_cases hsame : l = l'
      · exact hsame ▸ hn
      · have hle : l ≤ w.graph.store.head := by omega
        rw [states_install_of_le hle] at hn
        rw [show l' = (w.graph.store.install tx).head from hnew, states_install_head]
        exact accepted_installed h hstored hid hactive
          (h.persists l _ hl hle (Nat.le_refl _) n hn)
    · have hle' : l' ≤ w.graph.store.head := by omega
      rw [states_install_of_le (Nat.le_trans hll hle')] at hn
      rw [states_install_of_le hle']
      exact h.persists l l' hl hll hle' n hn
  views id' tx' htx' n hn := by
    obtain ⟨-, hold⟩ := active_of_setSession (fun _ hs => by cases hs) htx'
    have hle := hstored.versioned.snapshots id' tx' hold
    change Accepted P ((w.graph.store.install tx).states tx'.snapshot) n at hn
    rw [states_install_of_le hle] at hn
    exact (reads_congr (states_install_of_le hle)).mpr (h.views id' tx' hold n hn)

end ArcGraph.Merge
