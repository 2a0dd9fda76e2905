import ArcGraph.Merge.Sessions

/-!
# MERGE is get-or-create

Take statements of one clause each that share a lock key and a filter, create a node that
the filter accepts, and run beside any statements whose ON MATCH actions keep accepted nodes
accepted (`Class`). Of those that are committed at most one has created a node, and all
others have bound it (`get_or_create`). No chain of statements that wait for each other's
mutexes is ever closed.

The mutex spans snapshot, probe and publication: a statement of the class takes its snapshot
when everything the class has committed is published (`Settled.seen`), so its probe finds
what an earlier one has created.
-/

namespace ArcGraph.Merge
open Foundation ArcGraph.Graph World Option Nat
variable {B : Type} {stmts : StmtId → Statement B}

/-! ## The statements of one key -/

/-- Statements of one clause that share a lock key and a filter, and whose create branch
leaves a node that the filter accepts. -/
structure Class (stmts : StmtId → Statement B) (P : B → Bool) (key : String)
    (member : StmtId → Prop) : Prop where
  locked : ∀ id, member id → key ∈ (stmts id).keys
  single : ∀ id, member id →
    ∃ c, (stmts id).clauses = [c] ∧ c.accepts = P ∧ P c.created = true
  keeps : Keeps stmts P

def Succeeded (w : World B) (id : StmtId) : Prop := (w.runs id).outcome = some true

structure Untouched (tx : Transaction B) (run : Run B) : Prop where
  writes : tx.nodeWrites = []
  bound : run.bound = []
  created : run.created = []

/-- The clause has created a node because its snapshot had none, or has bound all of them. -/
def Decided (P : B → Bool) (store : CrudStore B) (tx : Transaction B) (run : Run B) : Prop :=
  (∃ n, run.created = [n] ∧ run.bound = [n] ∧ (∀ m, ¬ Accepted P (store.states tx.snapshot) m) ∧
    ∃ b, tx.nodeWrites.lookup n = some (some b) ∧ P b = true) ∨
  (run.created = [] ∧ run.bound ≠ [] ∧
    ∀ n, n ∈ run.bound ↔ Accepted P (store.states tx.snapshot) n)

def InPhase (stmts : StmtId → Statement B) (P : B → Bool) (w : World B) (id : StmtId) :
    Phase B → Prop
  | .acquiring _ => (w.runs id).bound = [] ∧ (w.runs id).created = []
  | .probing rest => ∀ tx, Active w.graph id tx →
      rest = (stmts id).clauses ∧ Untouched tx (w.runs id) ∨
        rest = [] ∧ Decided P w.graph.store tx (w.runs id)
  | .staging _ matched rest => rest = [] ∧ ∀ tx, Active w.graph id tx →
      Untouched tx (w.runs id) ∧
        ∀ n, n ∈ matched ↔ Accepted P (w.graph.store.states tx.snapshot) n
  | .installed => ∀ tx, Active w.graph id tx → Decided P w.graph.store tx (w.runs id)
  | .releasing _ => (w.runs id).created.length ≤ 1

def Progress (stmts : StmtId → Statement B) (P : B → Bool) (w : World B) (id : StmtId) : Prop :=
  InPhase stmts P w id (w.runs id).phase

def Left (P : B → Bool) (state : GraphState B) (run : Run B) : Prop :=
  (∃ n, Accepted P state n) ∧ ∀ n ∈ run.created, Accepted P state n

structure Settled (P : B → Bool) (member : StmtId → Prop) (w : World B) : Prop where
  seen : ∀ id tx, member id → Active w.graph id tx → ∀ id', member id' → Succeeded w id' →
    Left P (w.graph.store.states tx.snapshot) (w.runs id')
  present : ∀ id, member id → Succeeded w id →
    Left P (w.graph.store.states w.graph.store.head) (w.runs id)
  unique : ∀ id id', member id → member id' → Succeeded w id → Succeeded w id' →
    ∀ n ∈ (w.runs id).created, n ∈ (w.runs id').bound ∧ (id' ≠ id → (w.runs id').created = [])

section
variable {P : B → Bool} {key : String} {member : StmtId → Prop} {base : Nat} {w w' : World B}
  {id id' : StmtId} {tx tx' : Transaction B} {phase : Phase B} {run : Run B}

theorem Left.imp {state state' : GraphState B} (h : Left P state run)
    (hkeep : ∀ n, Accepted P state n → Accepted P state' n) : Left P state' run := by
  obtain ⟨⟨n, hn⟩, hcreated⟩ := h
  exact ⟨⟨n, hkeep n hn⟩, fun n hn => hkeep n (hcreated n hn)⟩

/-- The mutex of the class admits one statement at a time. -/
theorem Class.exclusive (hclass : Class stmts P key member) (hlocked : Locked stmts w)
    (hid : member id) (hid' : member id') (hopen : (w.runs id).phase.Open)
    (hopen' : (w.runs id').phase.Open) : id = id' := by
  have h := (hlocked.holds key id).mpr ((holds_of_open hopen).mpr (hclass.locked id hid))
  have h' := (hlocked.holds key id').mpr ((holds_of_open hopen').mpr (hclass.locked id' hid'))
  exact some.inj (h.symm.trans h')

theorem Settled.quiet (h : Settled P member w) (hversioned : Versioned w.graph)
    (hsucc : ∀ id, member id → Succeeded w' id → Succeeded w id ∧
      (w'.runs id).created = (w.runs id).created ∧ (w'.runs id).bound = (w.runs id).bound)
    (hkeep : ∀ n, Accepted P (w.graph.store.states w.graph.store.head) n →
      Accepted P (w'.graph.store.states w'.graph.store.head) n)
    (hstates : ∀ l ≤ w.graph.store.head, w'.graph.store.states l = w.graph.store.states l)
    (hactive : ∀ id tx', member id → Active w'.graph id tx' →
      (∃ tx, Active w.graph id tx ∧ tx'.snapshot = tx.snapshot) ∨
        tx'.snapshot = w.graph.store.head) : Settled P member w' where
  seen id tx' hid htx' id' hid' hsucc' := by
    obtain ⟨hold, hcreated, -⟩ := hsucc id' hid' hsucc'
    unfold Left
    rw [hcreated]
    rcases hactive id tx' hid htx' with ⟨tx, htx, hsnapshot⟩ | hsnapshot
    · rw [hsnapshot, hstates _ (hversioned.snapshots id tx htx)]
      exact h.seen id tx hid htx id' hid' hold
    · rw [hsnapshot, hstates _ (le_refl _)]
      exact h.present id' hid' hold
  present id hid hsucc' := by
    obtain ⟨hold, hcreated, -⟩ := hsucc id hid hsucc'
    unfold Left
    rw [hcreated]
    exact (h.present id hid hold).imp hkeep
  unique id id' hid hid' hs hs' := by
    obtain ⟨hold, hcreated, -⟩ := hsucc id hid hs
    obtain ⟨hold', hcreated', hbound'⟩ := hsucc id' hid' hs'
    rw [hcreated, hcreated', hbound']
    exact h.unique id id' hid hid' hold hold'

/-- A statement of the class is committed. What an earlier one has left is in its snapshot,
so it has created a node only if it is the first. -/
theorem Settled.commit (h : Settled P member w) (hid : member id) (hactive : Active w.graph id tx)
    (hdecided : Decided P w.graph.store tx (w.runs id))
    (hrun : (w'.runs id).created = (w.runs id).created ∧ (w'.runs id).bound = (w.runs id).bound)
    (hothers : ∀ id', id' ≠ id → w'.runs id' = w.runs id')
    (hnone : ∀ id' tx', member id' → ¬ Active w'.graph id' tx')
    (hsnapshot : ∀ n, Accepted P (w.graph.store.states tx.snapshot) n →
      Accepted P (w'.graph.store.states w'.graph.store.head) n)
    (hkeep : ∀ n, Accepted P (w.graph.store.states w.graph.store.head) n →
      Accepted P (w'.graph.store.states w'.graph.store.head) n)
    (hcreated : ∀ n ∈ (w.runs id).created,
      Accepted P (w'.graph.store.states w'.graph.store.head) n) : Settled P member w' := by
  have hbefore : ∀ id', id' ≠ id → Succeeded w' id' → Succeeded w id' := by
    intro id' hne hs
    unfold Succeeded at hs ⊢
    rwa [hothers id' hne] at hs
  refine ⟨fun id' tx' hid' htx' => absurd htx' (hnone id' tx' hid'), fun id' hid' hs => ?_, ?_⟩
  · by_cases heq : id' = id
    · subst heq
      unfold Left
      rw [hrun.1]
      refine ⟨?_, hcreated⟩
      rcases hdecided with ⟨n, hn, -⟩ | ⟨-, hbound, hiff⟩
      · exact ⟨n, hcreated n (by rw [hn]; exact List.mem_singleton.mpr rfl)⟩
      · obtain ⟨n, hn⟩ := List.exists_mem_of_ne_nil _ hbound
        exact ⟨n, hsnapshot n ((hiff n).mp hn)⟩
    · rw [hothers id' heq]
      exact (h.present id' hid' (hbefore id' heq hs)).imp hkeep
  · intro id1 id2 hid1 hid2 hs1 hs2 n hn
    by_cases heq1 : id1 = id
    · subst heq1
      rw [hrun.1] at hn
      rcases hdecided with ⟨m, hm, hbound, hfree, -⟩ | ⟨hnil, -⟩
      · by_cases heq2 : id2 = id1
        · subst heq2
          rw [hrun.2, hbound, ← hm]
          exact ⟨hn, fun hne => absurd rfl hne⟩
        · -- an earlier one has left a node that the snapshot has
          obtain ⟨⟨m', hm'⟩, -⟩ := h.seen id1 tx hid hactive id2 hid2 (hbefore id2 heq2 hs2)
          exact absurd hm' (hfree m')
      · rw [hnil] at hn
        cases hn
    · rw [hothers id1 heq1] at hn
      have hold1 := hbefore id1 heq1 hs1
      by_cases heq2 : id2 = id
      · subst heq2
        rw [hrun.1, hrun.2]
        have hleft := (h.seen id2 tx hid hactive id1 hid1 hold1).2 n hn
        rcases hdecided with ⟨m, -, -, hfree, -⟩ | ⟨hnil, -, hiff⟩
        · exact absurd hleft (hfree n)
        · exact ⟨(hiff n).mpr hleft, fun _ => hnil⟩
      · rw [hothers id2 heq2]
        exact h.unique id1 id2 hid1 hid2 hold1 (hbefore id2 heq2 hs2) n hn

theorem Moves.progress (hmoves : Moves id w w') (hversioned : Versioned w.graph)
    (hstates : ∀ l ≤ w.graph.store.head, w'.graph.store.states l = w.graph.store.states l)
    (hne : id' ≠ id) (h : Progress stmts P w id') : Progress stmts P w' id' := by
  have hsame : ∀ tx, Active w'.graph id' tx → Active w.graph id' tx ∧
      w'.graph.store.states tx.snapshot = w.graph.store.states tx.snapshot := by
    intro tx htx
    have hold := (hmoves.active id' hne tx).mp htx
    exact ⟨hold, hstates _ (hversioned.snapshots id' tx hold)⟩
  have hdecided : ∀ tx, Active w'.graph id' tx → Decided P w.graph.store tx (w.runs id') →
      Decided P w'.graph.store tx (w.runs id') := by
    intro tx htx
    unfold Decided
    rw [(hsame tx htx).2]
    exact fun h => h
  unfold Progress at h ⊢
  rw [hmoves.runs id' hne]
  cases hphase : (w.runs id').phase <;> rw [hphase] at h <;> unfold InPhase <;>
    rw [hmoves.runs id' hne]
  case acquiring | releasing => exact h
  case probing rest =>
    intro tx htx
    exact (h tx (hsame tx htx).1).imp_right (.imp_right (hdecided tx htx))
  case staging c matched rest =>
    refine ⟨h.1, fun tx htx => ?_⟩
    rw [(hsame tx htx).2]
    exact h.2 tx (hsame tx htx).1
  case installed => exact fun tx htx => hdecided tx htx (h tx (hsame tx htx).1)

theorem run_setPhase (phase : Phase B) (id' : StmtId) :
    ((w.setPhase id phase).runs id').bound = (w.runs id').bound ∧
      ((w.setPhase id phase).runs id').created = (w.runs id').created ∧
        ((w.setPhase id phase).runs id').outcome = (w.runs id').outcome := by
  by_cases heq : id' = id
  · subst heq
    simp [setPhase]
  · rw [runs_setPhase_ne _ heq]
    exact ⟨rfl, rfl, rfl⟩

/-- The statement moves on within its text or its mutexes; the transactions stay. -/
theorem Settled.setPhase (h : Settled P member w) (hversioned : Versioned w.graph)
    (hruns : w'.runs = (w.setPhase id phase).runs)
    (hgraph : w'.graph = w.graph) : Settled P member w' := by
  refine h.quiet hversioned (fun id' _ hs => ?_) ?_ ?_ ?_
  · obtain ⟨hbound, hcreated, hout⟩ := @run_setPhase B w id phase id'
    unfold Succeeded at hs ⊢
    rw [hruns, hout] at hs
    rw [hruns]
    exact ⟨hs, hcreated, hbound⟩
  · rw [hgraph]
    exact fun _ hn => hn
  · rw [hgraph]
    exact fun _ _ => rfl
  · rw [hgraph]
    exact fun id' tx' _ htx' => .inl ⟨tx', htx', rfl⟩

variable {c : Clause B} {rest : List (Clause B)} {locks : String → Option StmtId}
  {keys rest' : List String} {matched : List NodeId} {store : CrudStore B}

/-- The filter of the probe: the nodes of the snapshot, as long as nothing is written. -/
theorem mem_matched (hversioned : Versioned w.graph) (hactive : Active w.graph id tx)
    (haccepts : c.accepts = P) (hwrites : tx.nodeWrites = []) {n : NodeId} :
    n ∈ c.matched w.graph.store tx ↔ Accepted P (w.graph.store.states tx.snapshot) n := by
  have hread : tx.readNode w.graph.store n = (w.graph.store.states tx.snapshot).node n := by
    rw [Transaction.readNode, hwrites]
    rfl
  unfold Clause.matched Clause.acceptsNode
  rw [List.mem_filter, List.mem_range, hread, haccepts]
  constructor
  · rintro ⟨-, haccepted⟩
    cases hnode : (w.graph.store.states tx.snapshot).node n with
    | none => simp [hnode] at haccepted
    | some b => exact ⟨b, hnode, by simpa [hnode] using haccepted⟩
  · rintro ⟨b, hnode, hb⟩
    refine ⟨hversioned.nodes _ (hversioned.snapshots id tx hactive) n (by rw [hnode]; rfl), ?_⟩
    simp [hnode, hb]

structure Ok (stmts : StmtId → Statement B) (P : B → Bool) (member : StmtId → Prop) (base : Nat)
    (w : World B) : Prop where
  locked : Locked stmts w
  stored : Stored stmts base w
  persistent : Persistent P base w
  progress : ∀ id, member id → Progress stmts P w id
  settled : Settled P member w

/-- What a step shows of the world it leaves; that its mutexes are in order is known. -/
def OkIfLocked (stmts : StmtId → Statement B) (P : B → Bool) (member : StmtId → Prop) (base : Nat)
    (w : World B) : Prop :=
  Locked stmts w → Ok stmts P member base w

theorem Ok.inPhase (h : Ok stmts P member base w) (hid : member id)
    (hphase : (w.runs id).phase = phase) : InPhase stmts P w id phase :=
  hphase ▸ h.progress id hid

theorem Moves.progress_all (hmoves : Moves id w w') (h : Ok stmts P member base w)
    (hstates : ∀ l ≤ w.graph.store.head, w'.graph.store.states l = w.graph.store.states l)
    (hself : member id → Progress stmts P w' id) (id' : StmtId) (hid' : member id') :
    Progress stmts P w' id' := by
  by_cases heq : id' = id
  · subst heq
    exact hself hid'
  · exact hmoves.progress h.stored.versioned hstates heq (h.progress id' hid')

theorem Ok.setPhase (h : Ok stmts P member base w)
    (hstored : Stored stmts base { w.setPhase id phase with locks })
    (hself : member id → InPhase stmts P { w.setPhase id phase with locks } id phase) :
    OkIfLocked stmts P member base { w.setPhase id phase with locks } := fun hlocked => {
  locked := hlocked
  stored := hstored
  persistent := ⟨h.persistent.base_le, h.persistent.persists, h.persistent.views⟩
  progress := (moves_setPhase phase locks).progress_all h (fun _ _ => rfl) fun hid => by
    change InPhase stmts P _ id ((w.setPhase id phase).runs id).phase
    rw [phase_setPhase_self]
    exact hself hid
  settled := h.settled.setPhase h.stored.versioned rfl rfl }

theorem Ok.begin (h : Ok stmts P member base w) (hphase : (w.runs id).phase = .acquiring []) :
    OkIfLocked stmts P member base (w.begun stmts id) := by
  intro hlocked
  have hmoves := moves_begun stmts w id
  refine ⟨hlocked, h.stored.begin h.persistent.base_le hphase, h.persistent.begin,
    hmoves.progress_all h (fun _ _ => rfl) fun hid => ?_, ?_⟩
  · have hold := h.inPhase hid hphase
    change InPhase stmts P _ id ((w.setPhase id (.probing (stmts id).clauses)).runs id).phase
    rw [phase_setPhase_self]
    intro tx htx
    cases active_setSession_self.mp htx
    obtain ⟨hbound, hcreated, -⟩ := @run_setPhase B w id (.probing (stmts id).clauses) id
    exact .inl ⟨rfl, rfl, hbound.trans hold.1, hcreated.trans hold.2⟩
  · refine h.settled.quiet h.stored.versioned (fun id' _ hs => ?_) (fun _ hn => hn)
      (fun _ _ => rfl) fun id' tx' _ htx' => ?_
    · obtain ⟨hbound, hcreated, hout⟩ := @run_setPhase B w id (.probing (stmts id).clauses) id'
      exact ⟨hout.symm.trans hs, hcreated, hbound⟩
    · rcases of_active_setSession htx' with ⟨-, ⟨⟩⟩ | ⟨-, hold⟩
      · exact .inr rfl
      · exact .inl ⟨tx', hold, rfl⟩

theorem decided_staged (hclass : Class stmts P key member) (h : Ok stmts P member base w)
    (hid : member id) (hactive : Active w.graph id tx)
    (hphase : (w.runs id).phase = .staging c matched rest)
    (hactive' : Active (w.staged id c matched rest tx).graph id tx') :
    Decided P (w.staged id c matched rest tx).graph.store tx'
      ((w.staged id c matched rest tx).runs id) := by
  have hold := h.inPhase hid hphase
  obtain ⟨huntouched, hmatched⟩ := hold.2 tx hactive
  obtain ⟨_, hclauses, -, hcreated⟩ := hclass.single id hid
  have hc := ((h.stored.runs id).staging c matched rest hphase).1
  rw [hclauses, List.mem_singleton] at hc
  subst hc
  have htx' := active_staged hactive'
  cases matched with
  | nil =>
    subst htx'
    left
    refine ⟨w.graph.store.nextNode, ?_, ?_, ?_, c.created, ?_, hcreated⟩
    · simp [staged, huntouched.created]
    · simp [staged, huntouched.bound]
    · exact fun m hm => by cases (hmatched m).mpr hm
    · exact lookup_cons_self ..
  | cons n nodes =>
    have hsnapshot : tx'.snapshot = tx.snapshot := by rw [htx', snapshot_after]
    right
    have hbound : ((w.staged id c (n :: nodes) rest tx).runs id).bound = n :: nodes := by
      simp [staged, huntouched.bound]
    refine ⟨?_, ?_, fun m => ?_⟩
    · simp [staged, huntouched.created]
    · rw [hbound]
      exact List.cons_ne_nil _ _
    · rw [hbound, hsnapshot]
      exact hmatched m

theorem Ok.staged (hclass : Class stmts P key member) (h : Ok stmts P member base w)
    (hactive : Active w.graph id tx) (hphase : (w.runs id).phase = .staging c matched rest) :
    OkIfLocked stmts P member base (w.staged id c matched rest tx) := by
  intro hlocked
  have hmoves := @moves_staged B w id tx c matched rest
  have hstates : (w.staged id c matched rest tx).graph.store.states = w.graph.store.states := by
    cases matched <;> rfl
  have hhead : (w.staged id c matched rest tx).graph.store.head = w.graph.store.head := by
    cases matched <;> rfl
  have hout : (w.runs id).outcome = none :=
    (h.stored.runs id).outcome_eq_none hphase (by simp)
  refine ⟨hlocked, h.stored.staged hactive hphase,
    h.persistent.staged h.stored hclass.keeps hactive hphase,
    hmoves.progress_all h (fun _ _ => congrFun hstates _) fun hid => ?_, ?_⟩
  · have hold := h.inPhase hid hphase
    change InPhase stmts P _ id ((w.staged id c matched rest tx).runs id).phase
    rw [runs_staged_self, hold.1]
    refine fun tx' htx' => .inr ⟨rfl, ?_⟩
    have hrest := hold.1
    subst hrest
    exact decided_staged hclass h hid hactive hphase htx'
  · refine h.settled.quiet h.stored.versioned (fun id' _ hs => ?_) ?_
      (fun _ _ => congrFun hstates _) fun id' tx' _ htx' => ?_
    · by_cases heq : id' = id
      · subst heq
        unfold Succeeded at hs
        rw [outcome_staged, hout] at hs
        cases hs
      · unfold Succeeded at hs ⊢
        rw [hmoves.runs id' heq] at hs ⊢
        exact ⟨hs, rfl, rfl⟩
    · rw [hhead, hstates]
      exact fun _ hn => hn
    · left
      by_cases heq : id' = id
      · subst heq
        refine ⟨tx, hactive, ?_⟩
        rw [active_staged htx', snapshot_after]
      · exact ⟨tx', (hmoves.active id' heq tx').mp htx', rfl⟩

theorem Decided.created_le_one (h : Decided P store tx run) : run.created.length ≤ 1 := by
  rcases h with ⟨n, hn, -⟩ | ⟨hnil, -⟩
  · rw [hn]
    exact le_refl _
  · rw [hnil]
    exact zero_le _

theorem Untouched.created_le_one (h : Untouched tx run) : run.created.length ≤ 1 := by
  rw [h.created]
  exact zero_le _

section
variable (h : Ok stmts P member base w)
include h

theorem Ok.created_le_one (hid : member id) : (w.runs id).created.length ≤ 1 := by
  have hold : InPhase stmts P w id (w.runs id).phase := h.progress id hid
  have hopened := (h.stored.runs id).opened
  cases hphase : (w.runs id).phase with
  | acquiring =>
    rw [hphase] at hold
    rw [hold.2]
    exact zero_le _
  | probing =>
    rw [hphase] at hold hopened
    obtain ⟨tx, htx⟩ := hopened.mp trivial
    rcases hold tx htx with ⟨-, huntouched⟩ | ⟨-, hdecided⟩
    · exact huntouched.created_le_one
    · exact hdecided.created_le_one
  | staging =>
    rw [hphase] at hold hopened
    obtain ⟨tx, htx⟩ := hopened.mp trivial
    exact (hold.2 tx htx).1.created_le_one
  | installed =>
    rw [hphase] at hold hopened
    obtain ⟨tx, htx⟩ := hopened.mp trivial
    exact (hold tx htx).created_le_one
  | releasing =>
    rw [hphase] at hold
    exact hold

theorem progress_finish (store : CrudStore B)
    (hstates : ∀ l ≤ w.graph.store.head, store.states l = w.graph.store.states l)
    (keys : List String) (committed : Bool) (id' : StmtId) (hid' : member id') : Progress stmts P
      (finish { w with graph := { w.graph with store } } id keys committed) id' := by
  refine (moves_finish store keys committed).progress_all h hstates (fun hid => ?_) id' hid'
  unfold Progress
  rw [runs_finish_self]
  change (((finish { w with graph := { w.graph with store } } id keys committed).runs
    id).created).length ≤ 1
  rw [runs_finish_self]
  exact h.created_le_one hid

theorem Ok.fail : OkIfLocked stmts P member base (w.finish id keys false) := by
  intro hlocked
  refine ⟨hlocked, h.stored.finish keys false, h.persistent.finish keys false,
    progress_finish h w.graph.store (fun _ _ => rfl) keys false, ?_⟩
  refine h.settled.quiet h.stored.versioned (fun id' _ hs => ?_) (fun _ hn => hn) (fun _ _ => rfl)
    fun id' tx' _ htx' => ?_
  · unfold Succeeded at hs ⊢
    by_cases heq : id' = id
    · subst heq
      rw [runs_finish_self] at hs
      cases hs
    · rw [runs_finish_ne _ _ heq] at hs ⊢
      exact ⟨hs, rfl, rfl⟩
  · obtain ⟨-, hold⟩ := active_of_setSession (fun _ hs => by cases hs) htx'
    exact .inl ⟨tx', hold, rfl⟩

end

section
variable (hclass : Class stmts P key member) (h : Ok stmts P member base w)
  (hactive : Active w.graph id tx)
include hclass h hactive

/-- The commit of a statement: the store it leaves keeps accepted nodes accepted and has the
node the statement has created. -/
theorem settled_commit (hopen : (w.runs id).phase.Open) (store : CrudStore B)
    (hstates : ∀ l ≤ w.graph.store.head, store.states l = w.graph.store.states l)
    (hkeep : ∀ n, Accepted P (w.graph.store.states w.graph.store.head) n →
      Accepted P (store.states store.head) n)
    (hdecided : member id → Decided P w.graph.store tx (w.runs id))
    (hcreated : member id → ∀ n ∈ (w.runs id).created, Accepted P (store.states store.head) n)
    (keys : List String) :
    Settled P member (finish { w with graph := { w.graph with store } } id keys true) := by
  have hversioned := h.stored.versioned
  by_cases hid : member id
  · refine h.settled.commit hid hactive (hdecided hid) ?_ (fun _ hne => runs_finish_ne _ _ hne)
      (fun id' tx' hid' htx' => ?_) (fun n hn => hkeep n ?_) hkeep (hcreated hid)
    · rw [runs_finish_self]
      exact ⟨rfl, rfl⟩
    · obtain ⟨hne, hold⟩ := active_of_setSession (fun _ hs => by cases hs) htx'
      have hopen' := (h.stored.runs id').opened.mpr ⟨tx', hold⟩
      exact hne (hclass.exclusive h.locked hid' hid hopen' hopen)
    · exact h.persistent.persists _ _ (h.stored.snapshots id tx hactive)
        (hversioned.snapshots id tx hactive) (le_refl _) n hn
  · refine h.settled.quiet hversioned (fun id' hid' hs => ?_) hkeep hstates
      fun id' tx' _ htx' => ?_
    · have hne : id' ≠ id := fun heq => hid (heq ▸ hid')
      unfold Succeeded at hs ⊢
      rw [runs_finish_ne _ _ hne] at hs ⊢
      exact ⟨hs, rfl, rfl⟩
    · obtain ⟨-, hold⟩ := active_of_setSession (fun _ hs => by cases hs) htx'
      exact .inl ⟨tx', hold, rfl⟩

theorem Ok.decided (hphase : (w.runs id).phase = .probing [] ∨ (w.runs id).phase = .installed)
    (hid : member id) : Decided P w.graph.store tx (w.runs id) := by
  have hold : InPhase stmts P w id (w.runs id).phase := h.progress id hid
  rcases hphase with hphase | hphase <;> rw [hphase] at hold
  · rcases hold tx hactive with ⟨hnil, -⟩ | ⟨-, hdecided⟩
    · obtain ⟨c, hclauses, -⟩ := hclass.single id hid
      rw [hclauses] at hnil
      cases hnil
    · exact hdecided
  · exact hold tx hactive

theorem Ok.commitEmpty (hphase : (w.runs id).phase = .probing []) (hempty : tx.nodeWrites = []) :
    OkIfLocked stmts P member base (w.finish id keys true) := by
  intro hlocked
  have hdecided := fun hid => h.decided hclass hactive (.inl hphase) hid
  refine ⟨hlocked, h.stored.finish keys true, h.persistent.finish keys true,
    progress_finish h w.graph.store (fun _ _ => rfl) keys true,
    settled_commit hclass h hactive (by rw [hphase]; trivial) w.graph.store (fun _ _ => rfl)
      (fun _ hn => hn) hdecided (fun hid n hn => ?_) keys⟩
  rcases hdecided hid with ⟨m, -, -, -, b, hb, -⟩ | ⟨hnil, -⟩
  · rw [hempty] at hb
    cases hb
  · rw [hnil] at hn
    cases hn

end

theorem Ok.enqueue (hclass : Class stmts P key member) (h : Ok stmts P member base w)
    (hactive : Active w.graph id tx) (hphase : (w.runs id).phase = .probing [])
    (hfirst : w.graph.store.conflicts tx = false) (hfree : w.contended tx = false) :
    OkIfLocked stmts P member base
      { w.setPhase id .installed with installed := w.installed ++ [id] } := by
  intro hlocked
  have hmoves : Moves id w { w.setPhase id .installed with installed := w.installed ++ [id] } :=
    ⟨fun _ hne => runs_setPhase_ne _ hne, fun _ _ _ => .rfl, fun id' hne => by simp [hne]⟩
  refine ⟨hlocked, h.stored.enqueue hactive hphase hfirst hfree,
    ⟨h.persistent.base_le, h.persistent.persists, h.persistent.views⟩,
    hmoves.progress_all h (fun _ _ => rfl) fun hid => ?_,
    h.settled.setPhase h.stored.versioned rfl rfl⟩
  change InPhase stmts P _ id ((w.setPhase id .installed).runs id).phase
  rw [phase_setPhase_self]
  intro tx' htx'
  cases some.inj (hactive.symm.trans htx')
  obtain ⟨hbound, hcreated, -⟩ := @run_setPhase B w id .installed id
  change Decided P w.graph.store tx ((w.setPhase id .installed).runs id)
  unfold Decided
  rw [hbound, hcreated]
  exact h.decided hclass hactive (.inl hphase) hid

theorem Ok.publish (hclass : Class stmts P key member) (h : Ok stmts P member base w)
    (hactive : Active w.graph id tx) (hphase : (w.runs id).phase = .installed)
    : OkIfLocked stmts P member base (w.publish id keys tx) := by
  intro hlocked
  have hqueued := (h.stored.runs id).queued.mpr hphase
  have hdecided := fun hid => h.decided hclass hactive (.inr hphase) hid
  refine ⟨hlocked, h.stored.publish hqueued hactive keys,
    h.persistent.publish h.stored hqueued hactive keys,
    progress_finish h (w.graph.store.install tx) (fun _ hl => states_install_of_le hl) keys true,
    settled_commit hclass h hactive (by rw [hphase]; trivial) (w.graph.store.install tx)
      (fun _ hl => states_install_of_le hl) (fun n hn => ?_) hdecided (fun hid n hn => ?_) keys⟩
  · rw [states_install_head]
    exact accepted_installed h.persistent h.stored hqueued hactive hn
  · rw [states_install_head]
    rcases hdecided hid with ⟨m, hm, -, -, b, hb, hP⟩ | ⟨hnil, -⟩
    · rw [hm, List.mem_singleton] at hn
      subst hn
      refine ⟨b, ?_, hP⟩
      change (tx.nodeWrites.lookup n).getD _ = _
      rw [hb, getD_some]
    · rw [hnil] at hn
      cases hn

theorem Ok.acquire (h : Ok stmts P member base w) {rest : List String}
    (hphase : (w.runs id).phase = .acquiring rest) :
    OkIfLocked stmts P member base { w.setPhase id (.acquiring rest') with locks } := by
  refine h.setPhase (h.stored.setPhase hphase .rfl (by simp) (by simp) (by simp)
    (by simp) ?_) fun hid => ?_
  · exact fun hout => absurd ((h.stored.runs id).outcome_eq_none hphase (by simp)) hout
  · have hold := h.inPhase hid hphase
    obtain ⟨hbound, hcreated, -⟩ := @run_setPhase B w id (.acquiring rest') id
    exact ⟨hbound.trans hold.1, hcreated.trans hold.2⟩

theorem Ok.release (h : Ok stmts P member base w) {rest : List String}
    (hphase : (w.runs id).phase = .releasing rest) :
    OkIfLocked stmts P member base { w.setPhase id (.releasing rest') with locks } := by
  refine h.setPhase (h.stored.setPhase hphase .rfl (by simp) (by simp) (by simp)
    (by simp) ?_) fun hid => ?_
  · exact fun _ => ⟨rest', rfl⟩
  · obtain ⟨-, hcreated, -⟩ := @run_setPhase B w id (.releasing rest') id
    change ((w.setPhase id (.releasing rest')).runs id).created.length ≤ 1
    rw [hcreated]
    exact h.created_le_one hid

/-- The probe of a statement of the class finds the accepted nodes of its snapshot. -/
theorem Ok.probe (hclass : Class stmts P key member) (h : Ok stmts P member base w)
    (hactive : Active w.graph id tx) (hphase : (w.runs id).phase = .probing (c :: rest)) :
    OkIfLocked stmts P member base
      (w.setPhase id (.staging c (c.matched w.graph.store tx) rest)) := by
  have hrest := (h.stored.runs id).probing _ hphase
  refine h.setPhase (h.stored.setPhase hphase .rfl (by simp) (by simp) (by simp) ?_ ?_)
    fun hid => ?_
  · intro c' matched rest' heq
    cases heq
    exact ⟨hrest List.mem_cons_self, fun _ hc => hrest (List.mem_cons_of_mem _ hc)⟩
  · exact fun hout => absurd ((h.stored.runs id).outcome_eq_none hphase (by simp)) hout
  · have hold := h.inPhase hid hphase
    obtain ⟨hclauses, huntouched⟩ : c :: rest = (stmts id).clauses ∧ Untouched tx (w.runs id) := by
      rcases hold tx hactive with hfresh | ⟨hnil, -⟩
      · exact hfresh
      · cases hnil
    obtain ⟨_, hsingle, haccepts, -⟩ := hclass.single id hid
    rw [hsingle] at hclauses
    cases hclauses
    obtain ⟨hbound, hcreated, -⟩ :=
      @run_setPhase B w id (.staging c (c.matched w.graph.store tx) []) id
    refine ⟨rfl, fun tx' htx' => ?_⟩
    cases some.inj (hactive.symm.trans htx')
    exact ⟨⟨huntouched.writes, hbound.trans huntouched.bound, hcreated.trans huntouched.created⟩,
      fun n => mem_matched h.stored.versioned hactive haccepts huntouched.writes⟩

theorem ok_step (hclass : Class stmts P key member) {a : Action} (h : Ok stmts P member base w)
    (hstep : step stmts w a = some w') : Ok stmts P member base w' := by
  have hlocked := locked_step h.locked hstep
  cases a with simp only [step] at hstep
  | acquire =>
    split at hstep
    · rename_i k rest hphase
      split at hstep <;> cases hstep
      exact h.acquire hphase hlocked
    · cases hstep
  | begin =>
    split at hstep <;> cases hstep
    exact h.begin ‹_› hlocked
  | probe =>
    split at hstep <;> cases hstep
    rename_i hphase hactive
    exact h.probe hclass hactive hphase hlocked
  | stage =>
    split at hstep <;> cases hstep
    rename_i hphase hactive
    exact h.staged hclass hactive hphase hlocked
  | fault =>
    split at hstep <;> cases hstep
    · exact h.fail hlocked
    · exact h.fail hlocked
  | install =>
    split at hstep <;> cases hstep
    rename_i tx hphase hactive
    unfold install at hlocked ⊢
    split at hlocked
    · rename_i hempty
      rw [if_pos hempty]
      exact h.commitEmpty hclass hactive hphase hempty hlocked
    · rename_i hsome
      rw [if_neg hsome]
      split at hlocked
      · rename_i hlost
        rw [if_pos hlost]
        exact h.fail hlocked
      · rename_i hwon
        rw [if_neg hwon]
        simp only [Bool.or_eq_true, not_or, Bool.not_eq_true] at hwon
        exact h.enqueue hclass hactive hphase hwon.1 hwon.2 hlocked
  | publish =>
    split at hstep
    · rename_i tx first tail hphase hactive hqueue
      split at hstep <;> cases hstep
      exact h.publish hclass hactive hphase hlocked
    · cases hstep
  | undo =>
    split at hstep <;> cases hstep
    exact h.fail hlocked
  | release =>
    split at hstep <;> cases hstep
    exact h.release ‹_› hlocked

theorem ok_start (hversioned : Versioned ({ store } : Graph.World B)) :
    Ok stmts P member store.head (start stmts store) where
  locked := locked_start store
  stored :=
    { versioned := hversioned
      snapshots := fun _ _ h => by cases h
      runs := fun id =>
        { opened := ⟨fun h => h.elim, fun ⟨_, h⟩ => by cases h⟩
          queued := ⟨fun h => (by cases h), fun h => (by cases h)⟩
          probing := fun _ h => by cases h
          staging := fun _ _ _ h => by cases h
          ended := fun h => absurd rfl h }
      queue := ⟨fun _ h => (by cases h), fun _ h => (by cases h)⟩ }
  persistent :=
    { base_le := le_refl _
      persists := fun l l' hl hll hl' n hn => by
        have hl' : l' ≤ store.head := hl'
        have heq : l = l' := by omega
        exact heq ▸ hn
      views := fun _ _ h => by cases h }
  progress := fun _ _ => ⟨rfl, rfl⟩
  settled :=
    { seen := fun _ _ _ h => by cases h
      present := fun _ _ h => by cases h
      unique := fun _ _ _ _ h => by cases h }

end

/-- Whatever statements run beside them, of the committed statements of a class at most one
has created a node, it has created one only, and every other has bound that node; and no
chain of statements waiting for each other's mutexes is closed. -/
theorem get_or_create {store : CrudStore B} {w : World B}
    (hversioned : Versioned ({ store } : Graph.World B))
    (h : System.Reach (system stmts store) (fun _ _ => True) w) :
    (∀ P key member, Class stmts P key member → (∀ id, member id → (w.runs id).created.length ≤ 1) ∧
      ∀ id id', member id → member id' → Succeeded w id → Succeeded w id' →
        ∀ n ∈ (w.runs id).created,
          n ∈ (w.runs id').bound ∧ (id' ≠ id → (w.runs id').created = [])) ∧
    ∀ id, ¬ Relation.TransGen (WaitsFor (awaits w) w.locks) id id := by
  constructor
  · intro P key member hclass
    have hok : Ok stmts P member store.head w :=
      h.invariant (P := Ok stmts P member store.head) (ok_start hversioned)
        fun _ _ _ hok _ hstep => ok_step hclass hok hstep
    exact ⟨fun id hid => hok.created_le_one hid, hok.settled.unique⟩
  · have hlocked : Locked stmts w := locked_of_reach h
    exact not_waits_cycle fun _ _ _ => hlocked.awaited_above

/-- Every statement merges the node 1. -/
def mergeOne : StmtId → Statement Nat :=
  fun _ => ⟨[{ keys := ["one"], accepts := fun b => b == 1, created := 1, onMatch := [] }]⟩

theorem class_mergeOne : Class mergeOne (fun b => b == 1) "one" (fun _ => True) where
  locked _ _ := List.mem_singleton.mpr rfl
  single _ _ := ⟨_, rfl, rfl, rfl⟩
  keeps _ c hc f hf := by
    cases List.mem_singleton.mp hc
    cases hf

/-- The first statement creates the node, the second one binds it. -/
theorem get_or_create_mergeOne : ∃ w, System.Reach (system mergeOne {}) (fun _ _ => True) w ∧
    Succeeded w 0 ∧ Succeeded w 1 ∧ (w.runs 0).created = [0] ∧ (0 : NodeId) ∈ (w.runs 1).bound ∧
      ¬ Relation.TransGen (WaitsFor (awaits w) w.locks) 0 0 := by
  have h : System.Reach (system mergeOne {}) (fun _ _ => True)
      ((system mergeOne {}).after (fun _ _ => True)
        [.acquire 0, .begin 0, .probe 0, .stage 0, .install 0, .publish 0, .release 0,
          .acquire 1, .begin 1, .probe 1, .stage 1, .install 1]) := .after rfl
  obtain ⟨hclass, hcycle⟩ := get_or_create versioned_init h
  refine ⟨_, h, rfl, rfl, rfl, ?_, hcycle 0⟩
  exact ((hclass _ _ _ class_mergeOne).2 0 1 trivial trivial rfl rfl 0
    (List.mem_singleton.mpr rfl)).1

end ArcGraph.Merge
