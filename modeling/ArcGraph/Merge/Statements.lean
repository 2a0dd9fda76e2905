import ArcGraph.Foundation.LockOrder
import ArcGraph.Graph.Versions
import Mathlib.Data.String.Basic

/-!
# Concurrent MERGE statements

An auto-commit statement takes the mutexes of all its MERGE clauses in the order of their
keys, begins its transaction, runs its clauses, commits and releases the mutexes. A clause
probes the nodes its transaction sees; it updates those it accepts, or creates one if there
is none. A commit first installs its versions, which makes later writers of the same nodes
lose, and publishes them in the order of installation; until then it may still fail.

The transactions are those of the graph store; what is installed and not yet published is a
queue of statements.
-/

namespace ArcGraph.Merge
open Foundation ArcGraph.Graph List Function

abbrev StmtId := TxnId

variable {B : Type}

/-- A MERGE clause on nodes: its lock keys, the filter of its match branch, the record that
its create branch leaves after ON CREATE SET, and its ON MATCH SET actions. -/
structure Clause (B : Type) where
  keys : List String
  accepts : B → Bool
  created : B
  onMatch : List (B → B)

structure Statement (B : Type) where
  clauses : List (Clause B)

def Statement.keys (s : Statement B) : List String := lockOrder (s.clauses.flatMap (·.keys))

inductive Phase (B : Type)
  | acquiring (rest : List String)
  | probing (rest : List (Clause B))
  | staging (clause : Clause B) (matched : List NodeId) (rest : List (Clause B))
  | installed
  | releasing (rest : List String)

/-- A statement in progress: the nodes it has bound and created, and, once its transaction
has ended, whether it was committed. -/
structure Run (B : Type) where
  phase : Phase B
  bound : List NodeId := []
  created : List NodeId := []
  outcome : Option Bool := none

structure World (B : Type) where
  graph : Graph.World B
  locks : String → Option StmtId := fun _ => none
  installed : List StmtId := []
  runs : StmtId → Run B

inductive Action
  | acquire (id : StmtId)
  | begin (id : StmtId)
  | probe (id : StmtId)
  | stage (id : StmtId)
  | fault (id : StmtId)
  | install (id : StmtId)
  | publish (id : StmtId)
  | undo (id : StmtId)
  | release (id : StmtId)
deriving DecidableEq

namespace Clause
variable (c : Clause B) (store : CrudStore B) (tx : Transaction B)

def acceptsNode (n : NodeId) : Bool := ((tx.readNode store n).map c.accepts).getD false

/-- The match branch: the accepted nodes among those the transaction sees, its own included. -/
def matched : List NodeId := (range store.nextNode).filter (c.acceptsNode store tx)

def fire (n : NodeId) (actions : List (B → B)) (tx : Transaction B) : Transaction B :=
  actions.foldl (fun tx f => (tx.setNode store n f).2) tx

def stageMatched (nodes : List NodeId) (tx : Transaction B) : Transaction B :=
  nodes.foldl (fun tx n => fire store n c.onMatch tx) tx

end Clause

namespace World
variable (w : World B) (id : StmtId)

def setPhase (phase : Phase B) : World B :=
  { w with runs := update w.runs id { w.runs id with phase } }

def setLock (k : String) (owner : Option StmtId) : World B :=
  { w with locks := update w.locks k owner }

/-- The transaction has ended; the statement goes on to release its mutexes. -/
def finish (keys : List String) (committed : Bool) : World B :=
  { w with
    graph := w.graph.setSession id none
    installed := w.installed.filter (· ≠ id)
    runs := update w.runs id
      { w.runs id with phase := .releasing keys, outcome := some committed } }

/-- The clause has run: the transaction has its writes, the statement its bindings. -/
def staged (c : Clause B) (matched : List NodeId) (rest : List (Clause B)) (tx : Transaction B) :
    World B :=
  match matched with
  | [] =>
    let n := w.graph.store.nextNode
    { w with
      graph := w.graph.call id tx (.createNode c.created)
      runs := update w.runs id
        { w.runs id with
          phase := .probing rest
          bound := (w.runs id).bound ++ [n]
          created := (w.runs id).created ++ [n] } }
  | nodes =>
    { w with
      graph := w.graph.setSession id
        (some (.active (c.stageMatched w.graph.store nodes tx)))
      runs := update w.runs id
        { w.runs id with
          phase := .probing rest
          bound := (w.runs id).bound ++ nodes } }

/-- Some node of the transaction is installed by another one that is not yet published. -/
def contended (tx : Transaction B) : Bool :=
  w.installed.any fun id' =>
    match w.graph.sessions id' with
    | some (.active tx') => tx.nodeWrites.any fun write => (tx'.nodeWrites.lookup write.1).isSome
    | _ => false

/-- The versions are installed, unless there is nothing to install or an earlier writer of
the same node has come first. -/
def install (keys : List String) (tx : Transaction B) : World B :=
  if tx.nodeWrites = [] then w.finish id keys true
  else if w.graph.store.conflicts tx || w.contended tx then w.finish id keys false
  else { w.setPhase id .installed with installed := w.installed ++ [id] }

def publish (keys : List String) (tx : Transaction B) : World B :=
  { w with graph := { w.graph with store := w.graph.store.install tx } }.finish id keys true

end World

variable (stmts : StmtId → Statement B)

def step (w : World B) : Action → Option (World B)
  | .acquire id =>
    match (w.runs id).phase with
    | .acquiring (k :: rest) =>
      if w.locks k = none then
        some ((w.setPhase id (.acquiring rest)).setLock k (some id))
      else none
    | _ => none
  | .begin id =>
    match (w.runs id).phase with
    | .acquiring [] =>
      some { w.setPhase id (.probing (stmts id).clauses) with
        graph := w.graph.setSession id (some (.active { snapshot := w.graph.store.head })) }
    | _ => none
  | .probe id =>
    match (w.runs id).phase, w.graph.sessions id with
    | .probing (c :: rest), some (.active tx) =>
      some (w.setPhase id (.staging c (c.matched w.graph.store tx) rest))
    | _, _ => none
  | .stage id =>
    match (w.runs id).phase, w.graph.sessions id with
    | .staging c matched rest, some (.active tx) => some (w.staged id c matched rest tx)
    | _, _ => none
  | .fault id =>
    match (w.runs id).phase with
    | .probing _ | .staging _ _ _ => some (w.finish id (stmts id).keys false)
    | _ => none
  | .install id =>
    match (w.runs id).phase, w.graph.sessions id with
    | .probing [], some (.active tx) => some (w.install id (stmts id).keys tx)
    | _, _ => none
  | .publish id =>
    match (w.runs id).phase, w.graph.sessions id, w.installed with
    | .installed, some (.active tx), first :: _ =>
      if first = id then some (w.publish id (stmts id).keys tx) else none
    | _, _, _ => none
  | .undo id =>
    match (w.runs id).phase with
    | .installed => some (w.finish id (stmts id).keys false)
    | _ => none
  | .release id =>
    match (w.runs id).phase with
    | .releasing (k :: rest) =>
      some ((w.setPhase id (.releasing rest)).setLock k none)
    | _ => none

variable (store : CrudStore B)

/-- Every statement stands before its first mutex; no transaction is open. -/
def start : World B where
  graph := { store }
  runs id := { phase := .acquiring (stmts id).keys }

def system : System (World B) Action where
  init := start stmts store
  step := step stmts

/-! ## Mutexes -/

def Phase.Open : Phase B → Prop
  | .acquiring _ | .releasing _ => False
  | .probing _ | .staging _ _ _ | .installed => True

def Holds (keys : List String) (phase : Phase B) (k : String) : Prop :=
  match phase with
  | .acquiring rest => ∃ taken, keys = taken ++ rest ∧ k ∈ taken
  | .probing _ | .staging _ _ _ | .installed => k ∈ keys
  | .releasing rest => k ∈ rest

structure Locked (w : World B) : Prop where
  /-- What is still to be taken, or to be released, is the tail of the keys. -/
  tail : ∀ id rest, (w.runs id).phase = .acquiring rest ∨ (w.runs id).phase = .releasing rest →
    rest <:+ (stmts id).keys
  holds : ∀ k id, w.locks k = some id ↔ Holds (stmts id).keys (w.runs id).phase k

variable {stmts} {w w' : World B} {id id' : StmtId} {k : String} (phase : Phase B)
  (keys : List String) (committed : Bool)

theorem holds_acquiring {taken rest : List String} (h : keys = taken ++ rest) :
    Holds keys (.acquiring rest : Phase B) k ↔ k ∈ taken :=
  ⟨fun ⟨_, heq, hk⟩ => append_left_injective _ (heq.symm.trans h) ▸ hk, fun hk => ⟨_, h, hk⟩⟩

theorem locked_start : Locked stmts (start stmts store) where
  tail id rest h := by
    rcases h with h | h <;> cases h
    exact suffix_rfl
  holds k id := by
    refine iff_of_false (by simp [start]) fun h => ?_
    cases (holds_acquiring (stmts id).keys (nil_append _).symm).mp h

theorem Locked.move (h : Locked stmts w)
    (hothers : ∀ id', id' ≠ id → w'.runs id' = w.runs id' ∧
      ∀ k, w'.locks k = some id' ↔ w.locks k = some id')
    (htail : ∀ rest, (w'.runs id).phase = .acquiring rest ∨ (w'.runs id).phase = .releasing rest →
      rest <:+ (stmts id).keys)
    (hholds : ∀ k, w'.locks k = some id ↔ Holds (stmts id).keys (w'.runs id).phase k) :
    Locked stmts w' where
  tail id' rest hphase := by
    by_cases heq : id' = id
    · subst heq
      exact htail rest hphase
    · rw [(hothers id' heq).1] at hphase
      exact h.tail id' rest hphase
  holds k id' := by
    by_cases heq : id' = id
    · subst heq
      exact hholds k
    · rw [(hothers id' heq).1, (hothers id' heq).2, h.holds]

@[simp] theorem phase_setPhase_self : ((w.setPhase id phase).runs id).phase = phase := by
  simp [World.setPhase]

theorem runs_setPhase_ne (h : id' ≠ id) : (w.setPhase id phase).runs id' = w.runs id' :=
  update_of_ne h ..

@[simp] theorem runs_setLock (k : String) (owner : Option StmtId) :
    (w.setLock k owner).runs = w.runs :=
  rfl

@[simp] theorem locks_setLock_self (k : String) (owner : Option StmtId) :
    (w.setLock k owner).locks k = owner :=
  update_self ..

theorem locks_setLock_ne {k' : String} (owner : Option StmtId) (h : k' ≠ k) :
    (w.setLock k owner).locks k' = w.locks k' :=
  update_of_ne h ..

@[simp] theorem locks_setPhase : (w.setPhase id phase).locks = w.locks := rfl

@[simp] theorem runs_finish_self : (w.finish id keys committed).runs id =
      { w.runs id with phase := .releasing keys, outcome := some committed } :=
  update_self ..

theorem runs_finish_ne (h : id' ≠ id) : (w.finish id keys committed).runs id' = w.runs id' :=
  update_of_ne h ..

theorem nodup_keys (s : Statement B) : s.keys.Nodup :=
  (pairwise_lockOrder _).imp fun h => ne_of_lt h

/-- A lock that the statement takes or gives back is no matter to the others. -/
theorem setLock_others {owner : Option StmtId} (hold : w.locks k = none ∨ w.locks k = some id)
    (hnew : owner = none ∨ owner = some id) (hne : id' ≠ id) :
    ((w.setPhase id phase).setLock k owner).runs id' = w.runs id' ∧
      ∀ k', ((w.setPhase id phase).setLock k owner).locks k' = some id' ↔
        w.locks k' = some id' := by
  refine ⟨runs_setPhase_ne _ hne, fun k' => ?_⟩
  by_cases hk : k' = k
  · subst hk
    rw [locks_setLock_self]
    rcases hold with hold | hold <;> rcases hnew with hnew | hnew <;> simp [hold, hnew, hne.symm]
  · rw [locks_setLock_ne _ hk, locks_setPhase]

theorem Locked.acquire (h : Locked stmts w) {rest : List String}
    (hphase : (w.runs id).phase = .acquiring (k :: rest)) (hfree : w.locks k = none) :
    Locked stmts ((w.setPhase id (.acquiring rest)).setLock k (some id)) := by
  obtain ⟨taken, htaken⟩ := h.tail id _ (.inl hphase)
  have htaken' : (stmts id).keys = (taken ++ [k]) ++ rest := by
    rw [append_assoc]
    exact htaken.symm
  refine h.move (fun id' => setLock_others _ (.inl hfree) (.inr rfl)) (fun rest' hphase' => ?_)
    fun k' => ?_ <;> simp only [runs_setLock, phase_setPhase_self] at *
  · rcases hphase' with h | h <;> cases h
    exact ⟨taken ++ [k], htaken'.symm⟩
  · rw [holds_acquiring _ htaken', mem_append, mem_singleton]
    by_cases hk : k' = k
    · subst hk
      simp
    · rw [locks_setLock_ne _ hk, locks_setPhase, h.holds, hphase, holds_acquiring _ htaken.symm]
      simp [hk]

theorem Locked.release (h : Locked stmts w) {rest : List String}
    (hphase : (w.runs id).phase = .releasing (k :: rest)) :
    Locked stmts ((w.setPhase id (.releasing rest)).setLock k none) := by
  have htail := h.tail id _ (.inr hphase)
  have hnodup : (k :: rest).Nodup := (nodup_keys (stmts id)).sublist htail.sublist
  have hholder : w.locks k = some id := by
    rw [h.holds, hphase]
    exact mem_cons_self
  refine h.move (fun id' => setLock_others _ (.inr hholder) (.inl rfl)) (fun rest' hphase' => ?_)
    fun k' => ?_ <;> simp only [runs_setLock, phase_setPhase_self] at *
  · rcases hphase' with h | h <;> cases h
    exact (suffix_cons k rest).trans htail
  · by_cases hk : k' = k
    · subst hk
      simp [Holds, (nodup_cons.mp hnodup).1]
    · rw [locks_setLock_ne _ hk, locks_setPhase, h.holds]
      simp [Holds, hphase, hk]

theorem holds_of_open {keys : List String} {phase : Phase B} (hopen : phase.Open) :
    Holds keys phase k ↔ k ∈ keys := by
  cases phase with
  | acquiring | releasing => exact hopen.elim
  | probing | staging | installed => exact Iff.rfl

theorem Locked.within (h : Locked stmts w) (hlocks : w'.locks = w.locks)
    (hruns : ∀ id', id' ≠ id → w'.runs id' = w.runs id')
    (hbefore : ∀ k, Holds (stmts id).keys (w.runs id).phase k ↔ k ∈ (stmts id).keys)
    (hafter : (w'.runs id).phase.Open ∨ (w'.runs id).phase = .releasing (stmts id).keys) :
    Locked stmts w' := by
  refine h.move (fun id' hne => ⟨hruns id' hne, fun k => by rw [hlocks]⟩) (fun rest hrest => ?_)
    fun k => ?_
  · rcases hafter with hopen | hafter
    · rcases hrest with hrest | hrest <;> rw [hrest] at hopen <;> exact hopen.elim
    · rw [hafter] at hrest
      rcases hrest with hrest | hrest <;> cases hrest
      exact suffix_rfl
  · rw [hlocks, h.holds, hbefore]
    rcases hafter with hopen | hafter
    · exact (holds_of_open hopen).symm
    · rw [hafter, Holds]

theorem Locked.finish (h : Locked stmts w) (hopen : (w.runs id).phase.Open) (committed : Bool) :
    Locked stmts (w.finish id (stmts id).keys committed) :=
  h.within rfl (fun _ hne => runs_finish_ne _ _ hne) (fun _ => holds_of_open hopen)
    (.inr (by rw [runs_finish_self]))

section
variable (c : Clause B) (matched : List NodeId) (rest : List (Clause B)) (tx : Transaction B)
include c matched rest tx

theorem runs_staged_self : ((w.staged id c matched rest tx).runs id).phase = .probing rest := by
  cases matched <;> simp [World.staged]

theorem runs_staged_ne (h : id' ≠ id) : (w.staged id c matched rest tx).runs id' = w.runs id' := by
  cases matched <;> exact update_of_ne h ..

theorem locks_staged : (w.staged id c matched rest tx).locks = w.locks := by
  cases matched <;> rfl

end

theorem Locked.install (h : Locked stmts w) (hopen : (w.runs id).phase.Open)
    (tx : Transaction B) : Locked stmts (w.install id (stmts id).keys tx) := by
  unfold World.install
  split
  · exact h.finish hopen true
  · split
    · exact h.finish hopen false
    · refine h.within rfl (fun _ hne => runs_setPhase_ne _ hne) (fun _ => holds_of_open hopen)
        (.inl ?_)
      rw [show (_ : World B).runs id = (w.setPhase id .installed).runs id from rfl,
        phase_setPhase_self]
      trivial

theorem locked_step {a : Action} (h : Locked stmts w) (hstep : step stmts w a = some w') :
    Locked stmts w' := by
  cases a with simp only [step] at hstep
  | acquire =>
    split at hstep
    · split at hstep <;> cases hstep
      exact h.acquire ‹_› ‹_›
    · cases hstep
  | begin =>
    split at hstep <;> cases hstep
    rename_i hphase
    refine h.within rfl (fun id' hne => runs_setPhase_ne _ hne) (fun k => ?_)
      (.inl (by simp [Phase.Open]))
    rw [hphase, holds_acquiring _ (append_nil _).symm]
  | probe =>
    split at hstep <;> cases hstep
    rename_i hphase _
    refine h.within rfl (fun id' hne => runs_setPhase_ne _ hne)
      (fun k => holds_of_open (by rw [hphase]; trivial)) (.inl (by simp [Phase.Open]))
  | stage =>
    split at hstep <;> cases hstep
    rename_i hphase _
    refine h.within (locks_staged ..) (fun id' hne => runs_staged_ne _ _ _ _ hne)
      (fun k => holds_of_open (by rw [hphase]; trivial)) (.inl ?_)
    rw [runs_staged_self]
    trivial
  | fault =>
    split at hstep <;> cases hstep <;> rename_i hphase
    · exact h.finish (by rw [hphase]; trivial) false
    · exact h.finish (by rw [hphase]; trivial) false
  | install =>
    split at hstep <;> cases hstep
    rename_i hphase _
    exact h.install (by rw [hphase]; trivial) _
  | publish =>
    split at hstep
    · rename_i tx first tail hphase _ _
      split at hstep <;> cases hstep
      have h' : Locked stmts
          { w with graph := { w.graph with store := w.graph.store.install tx } } :=
        ⟨h.tail, h.holds⟩
      exact h'.finish (by rw [hphase]; trivial) true
    · cases hstep
  | undo =>
    split at hstep <;> cases hstep
    rename_i hphase
    exact h.finish (by rw [hphase]; trivial) false
  | release =>
    split at hstep <;> cases hstep
    exact h.release ‹_›

theorem locked_of_reach {store : CrudStore B} {ok : World B → Action → Prop}
    (h : System.Reach (system stmts store) ok w) : Locked stmts w :=
  h.invariant (P := Locked stmts) (locked_start store) fun _ _ _ hlocked _ hstep =>
    locked_step hlocked hstep

def awaits (w : World B) (id : StmtId) : Option String :=
  match (w.runs id).phase with
  | .acquiring (k :: _) => some k
  | _ => none

/-- A statement that waits for a mutex holds only mutexes with smaller keys. -/
theorem Locked.awaited_above (h : Locked stmts w) {k' : String} (hheld : w.locks k = some id)
    (hawaits : awaits w id = some k') : k < k' := by
  unfold awaits at hawaits
  split at hawaits
  · rename_i k'' rest hphase
    cases hawaits
    obtain ⟨taken, htaken, hk⟩ : Holds (stmts id).keys (.acquiring (k' :: rest) : Phase B) k := by
      rw [← hphase, ← h.holds]
      exact hheld
    have hsorted : (taken ++ k' :: rest).Pairwise (· < ·) := by
      rw [← htaken]
      exact pairwise_lockOrder _
    exact (pairwise_append.mp hsorted).2.2 k hk k' mem_cons_self
  · cases hawaits

end ArcGraph.Merge
