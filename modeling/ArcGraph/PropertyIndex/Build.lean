import ArcGraph.Graph.Versions

/-!
# Building a property index beside running transactions

`CREATE INDEX` publishes the handle of the index, commits its Building record, begins the
backfill snapshot, scans it, inserts what it found and flips the record to Online. A write
is entered by its own transaction as well: right after a call is staged, index maintenance
inserts the new value if the catalog lists the index at that moment.

A write that was staged before the Building record and is committed after the backfill
snapshot is met by neither (`staged_write_missed`). `Settled` asks of the moment the
snapshot begins that no open transaction holds such a write; then an Online index returns
every node that a snapshot sees with the value (`online_index_complete`).
-/

namespace ArcGraph.PropertyIndex
open Foundation ArcGraph.Graph Function List Option

abbrev LabelId := Nat

abbrev Bag (V : Type) := String → Option V

structure NodeBag (V : Type) where
  label : LabelId
  bag : Bag V

inductive IndexState
  | building
  | online
deriving DecidableEq

def IndexState.maintenanceActive : IndexState → Bool
  | building | online => true

def IndexState.plannerVisible : IndexState → Bool
  | building => false
  | online => true

/-- The index under construction: its label, its property, and the key of a value, absent
where the value is not indexable. -/
structure IndexSpec (V K : Type) where
  label : LabelId
  property : String
  canonicalKey : V → Option K

variable {V K : Type} (ix : IndexSpec V K) {node : NodeBag V}

def IndexSpec.keyOf (node : NodeBag V) : Option K :=
  if node.label = ix.label then (node.bag ix.property).bind ix.canonicalKey else none

/-! ## Calls and their maintenance -/

inductive Call (V : Type)
  | createNode (label : LabelId) (bag : Bag V)
  | setNode (node : NodeId) (mutation : Bag V → Bag V)
  | deleteNode (node : NodeId) (detach : Bool)

def Call.toWrite : Call V → WriteCall (NodeBag V)
  | createNode label bag => .createNode ⟨label, bag⟩
  | setNode node mutation => .setNode node fun props => { props with bag := mutation props.bag }
  | deleteNode node detach => .deleteNode node detach

structure Maintenance (V : Type) where
  node : NodeId
  label : LabelId
  oldBag : Option (Bag V)
  newBag : Bag V

def Call.maintenance (store : CrudStore (NodeBag V)) (tx : Transaction (NodeBag V)) :
    Call V → Option (Maintenance V)
  | createNode label bag => some ⟨store.nextNode, label, none, bag⟩
  | setNode node mutation =>
    (tx.readNode store node).map fun props =>
      ⟨node, props.label, some props.bag, mutation props.bag⟩
  | deleteNode _ _ => none

namespace Maintenance
variable (m : Maintenance V)

def newValue : Option V := m.newBag ix.property

def oldValue : Option V := m.oldBag.bind fun bag => bag ix.property

/-- The key that maintenance inserts: only for a value that has changed. -/
def inserted [DecidableEq V] : Option K :=
  if m.label = ix.label ∧ m.newValue ix ≠ m.oldValue ix then
    (m.newValue ix).bind ix.canonicalKey
  else none

end Maintenance

/-! ## The system -/

/-- Where `CREATE INDEX` stands. -/
inductive Build (V : Type)
  | idle
  | published
  | registered
  | scanning (snapshot : Nat)
  | filling (rest : List (NodeId × NodeBag V))
  | flipped

def Build.state : Build V → Option IndexState
  | idle | published => none
  | registered | scanning _ | filling _ => some .building
  | flipped => some .online

structure World (V K : Type) where
  graph : Graph.World (NodeBag V) := {}
  build : Build V := .idle
  entries : List (K × NodeId) := []
  /-- The calls that are staged and whose maintenance is still to run. -/
  pending : TxnId → Option (Maintenance V) := fun _ => none

inductive Action (V : Type)
  | begin (id : TxnId)
  | call (id : TxnId) (c : Call V)
  | maintain (id : TxnId)
  | commit (id : TxnId)
  | append (id : TxnId)
  | abort (id : TxnId)
  | publish
  | register
  | snapshot
  | scan
  | backfill
  | flip

namespace World
variable (w : World V K)

def insertKey (key : Option K) (n : NodeId) : World V K :=
  { w with entries := w.entries ++ (key.map fun k => (k, n)).toList }

def maintainNode [DecidableEq V] (m : Maintenance V) : World V K :=
  match w.build.state with
  | none => w
  | some state => if state.maintenanceActive then w.insertKey (m.inserted ix) m.node else w

def setPending (id : TxnId) (m : Option (Maintenance V)) : World V K :=
  { w with pending := update w.pending id m }

/-- The nodes of the label that the snapshot sees, up to the highest id allocated. -/
def scanForBackfill (snapshot : Nat) : List (NodeId × NodeBag V) :=
  (range w.graph.store.nextNode).filterMap fun n =>
    ((w.graph.store.states snapshot).node n).bind fun node =>
      if node.label = ix.label then some (n, node) else none

def onGraph (a : Graph.Action (NodeBag V)) : Option (World V K) :=
  (Graph.step w.graph a).map fun graph => { w with graph }

def call (id : TxnId) (c : Call V) : Option (World V K) :=
  match w.pending id, w.graph.sessions id with
  | none, some (.active tx) =>
    (w.onGraph (.call id c.toWrite)).map fun w' =>
      w'.setPending id (c.maintenance w.graph.store tx)
  | _, _ => none

def lookupCandidates [DecidableEq K] (v : V) : List NodeId :=
  match ix.canonicalKey v, w.build.state with
  | some k, some state =>
    if state.plannerVisible then (w.entries.filter (·.1 = k)).map (·.2) else []
  | _, _ => []

end World

def step [DecidableEq V] (w : World V K) : Action V → Option (World V K)
  | .begin id => w.onGraph (.begin id)
  | .call id c => w.call id c
  | .maintain id => (w.pending id).map fun m => (w.maintainNode ix m).setPending id none
  | .commit id => if (w.pending id).isSome then none else w.onGraph (.commit id)
  | .append id => w.onGraph (.append id)
  | .abort id => (w.onGraph (.abort id)).map fun w' => w'.setPending id none
  | .publish =>
    match w.build with
    | .idle => some { w with build := .published }
    | _ => none
  | .register =>
    match w.build with
    | .published => some { w with build := .registered }
    | _ => none
  | .snapshot =>
    match w.build with
    | .registered => some { w with build := .scanning w.graph.store.head }
    | _ => none
  | .scan =>
    match w.build with
    | .scanning snapshot => some { w with build := .filling (w.scanForBackfill ix snapshot) }
    | _ => none
  | .backfill =>
    match w.build with
    | .filling ((n, node) :: rest) =>
      some { w.insertKey (ix.keyOf node) n with build := .filling rest }
    | _ => none
  | .flip =>
    match w.build with
    | .filling [] => some { w with build := .flipped }
    | _ => none

def system [DecidableEq V] : System (World V K) (Action V) where
  init := {}
  step := step ix

/-! ## Coverage -/

section
variable [DecidableEq V] (w : World V K)

/-- A staged key is no loss for an index that begins its snapshot now: it is entered, its
maintenance is about to enter it, or the node has it in the snapshot of the transaction
already. -/
def Accounted (id : TxnId) (tx : Transaction (NodeBag V)) (n : NodeId) (k : K) :
    Prop :=
  (k, n) ∈ w.entries ∨
    (∃ m, w.pending id = some m ∧ m.node = n ∧ m.inserted ix = some k) ∨
      ∃ node, (w.graph.store.states tx.snapshot).node n = some node ∧ ix.keyOf node = some k

/-- When the backfill snapshot begins, no open transaction holds a write that was staged
before the index was registered. -/
def Settled : Action V → Prop
  | .snapshot => ∀ id tx, Active w.graph id tx → ∀ n node k,
      tx.nodeWrites.lookup n = some (some node) → ix.keyOf node = some k →
        Accounted ix w id tx n k
  | _ => True

def Owed (n : NodeId) (k : K) : Prop :=
  match w.build with
  | .scanning snapshot =>
    ∃ node, (w.graph.store.states snapshot).node n = some node ∧ ix.keyOf node = some k
  | .filling rest => ∃ node, (n, node) ∈ rest ∧ ix.keyOf node = some k
  | _ => False

def Due (n : NodeId) (k : K) : Prop := (k, n) ∈ w.entries ∨ Owed ix w n k

def Build.Taken : Build V → Prop
  | idle | published | registered => False
  | scanning _ | filling _ | flipped => True

def Covered (id : TxnId) (tx : Transaction (NodeBag V)) (n : NodeId) (k : K) :
    Prop :=
  Owed ix w n k ∨ Accounted ix w id tx n k

structure Complete (w : World V K) : Prop where
  committed : ∀ n node k, (w.graph.store.states w.graph.store.head).node n = some node →
    ix.keyOf node = some k → Due ix w n k
  staged : ∀ id tx, Active w.graph id tx → ∀ n node k,
    tx.nodeWrites.lookup n = some (some node) → ix.keyOf node = some k → Covered ix w id tx n k

structure Ok (w : World V K) : Prop where
  versioned : Versioned w.graph
  snapshot : ∀ lsn, w.build = .scanning lsn → lsn ≤ w.graph.store.head
  complete : w.build.Taken → Complete ix w

end

/-! ## One call -/

section
variable {ix} {store : CrudStore (NodeBag V)} {tx : Transaction (NodeBag V)} {k : K}

theorem keyOf_eq_some : ix.keyOf node = some k ↔
    node.label = ix.label ∧ (node.bag ix.property).bind ix.canonicalKey = some k := by
  unfold IndexSpec.keyOf
  split <;> simp [*]

/-- Maintenance enters the new key of a node, unless the node had it before the call. -/
theorem inserted_or_old [DecidableEq V] {m : Maintenance V}
    (hkey : ix.keyOf ⟨m.label, m.newBag⟩ = some k) :
    m.inserted ix = some k ∨ ∃ bag, m.oldBag = some bag ∧ ix.keyOf ⟨m.label, bag⟩ = some k := by
  obtain ⟨hlabel, hvalue⟩ := keyOf_eq_some.mp hkey
  by_cases hchanged : m.newValue ix = m.oldValue ix
  · right
    have hold : (m.oldValue ix).bind ix.canonicalKey = some k := hchanged ▸ hvalue
    unfold Maintenance.oldValue at hold
    cases hbag : m.oldBag with
    | none => simp [hbag] at hold
    | some bag =>
      refine ⟨bag, rfl, keyOf_eq_some.mpr ⟨hlabel, ?_⟩⟩
      simpa [hbag] using hold
  · left
    rw [Maintenance.inserted, if_pos ⟨hlabel, hchanged⟩]
    exact hvalue

/-- A live node among the writes after a call was there before, or it is the one the call
hands to maintenance, with the properties it had in the view of the transaction. -/
theorem staged_cases {c : Call V} {n : NodeId}
    (hlook : (store.stage tx c.toWrite).2.2.nodeWrites.lookup n = some (some node)) :
    tx.nodeWrites.lookup n = some (some node) ∨
      ∃ m, c.maintenance store tx = some m ∧ m.node = n ∧ node = ⟨m.label, m.newBag⟩ ∧
        ∀ bag, m.oldBag = some bag → tx.readNode store n = some ⟨m.label, bag⟩ := by
  cases c with
  | createNode =>
    rcases of_lookup_cons hlook with ⟨rfl, heq⟩ | ⟨-, hlook⟩
    · cases heq
      exact .inr ⟨_, rfl, rfl, rfl, fun _ h => by cases h⟩
    · exact .inl hlook
  | setNode node' mutation =>
    dsimp only [Call.toWrite, CrudStore.stage, Transaction.setNode] at hlook
    cases hread : tx.readNode store node' with rw [hread] at hlook
    | none =>
      exact .inl hlook
    | some props =>
      rcases of_lookup_cons hlook with ⟨rfl, heq⟩ | ⟨-, hlook⟩
      · cases heq
        refine .inr ⟨⟨n, props.label, some props.bag, mutation props.bag⟩, ?_, rfl, rfl, ?_⟩
        · simp [Call.maintenance, hread]
        · rintro bag ⟨⟩
          exact hread
      · exact .inl hlook
  | deleteNode node' detach =>
    have hlook : (tx.deleteNode store node' detach).2.nodeWrites.lookup n = some (some node) :=
      hlook
    obtain ⟨_, htomb, heq | ⟨heq, -⟩⟩ := @deleteNode_cases _ store tx node' detach
    · rw [heq, htomb.nodeWrites] at hlook
      exact .inl hlook
    · rw [heq, Transaction.writeNode, htomb.nodeWrites] at hlook
      rcases of_lookup_cons hlook with ⟨-, heq⟩ | ⟨-, hlook⟩
      · cases heq
      · exact .inl hlook

end

/-! ## Steps of the transactions -/

section
variable {ix} [DecidableEq V] {w w' : World V K} {id : TxnId} {tx : Transaction (NodeBag V)}
  {n n' : NodeId} {k : K} {b : Build V} {lsn : Nat}

theorem owed_of_states (hok : Ok ix w) (hbuild : w'.build = w.build)
    (hstates : ∀ lsn ≤ w.graph.store.head, w'.graph.store.states lsn = w.graph.store.states lsn)
    (h : Owed ix w n k) : Owed ix w' n k := by
  unfold Owed at h ⊢
  rw [hbuild]
  cases hb : w.build with rw [hb] at h
  | scanning =>
    obtain ⟨node, hnode, hkey⟩ := h
    exact ⟨node, by rw [hstates _ (hok.snapshot _ hb)]; exact hnode, hkey⟩
  | filling =>
    exact h
  | idle | published | registered | flipped =>
    exact h

/-- A step of the transactions: the index stands where it stood, and no state up to the head
has changed. -/
structure Beside (w w' : World V K) : Prop where
  build : w'.build = w.build
  entries : w'.entries = w.entries
  head : w.graph.store.head ≤ w'.graph.store.head
  states : ∀ lsn ≤ w.graph.store.head, w'.graph.store.states lsn = w.graph.store.states lsn

section
variable (h : Beside w w') (hok : Ok ix w)
include h hok

theorem Beside.due (hdue : Due ix w n k) : Due ix w' n k := by
  refine hdue.imp (fun hmem => ?_) (owed_of_states hok h.build h.states)
  rw [h.entries]
  exact hmem

theorem Beside.covered (hactive : Active w.graph id tx)
    (hpending : w'.pending id = w.pending id) (hcov : Covered ix w id tx n k) :
    Covered ix w' id tx n k := by
  refine hcov.imp (owed_of_states hok h.build h.states) ?_
  unfold Accounted
  rw [h.entries, hpending, h.states _ (hok.versioned.snapshots id tx hactive)]
  exact fun h => h

/-- A step of the transactions keeps the invariant if what it commits was due and what it
stages is covered. -/
theorem Beside.ok (hversioned : Versioned w'.graph)
    (hcomplete : Complete ix w → Complete ix w') : Ok ix w' where
  versioned := hversioned
  snapshot lsn hb := Nat.le_trans (hok.snapshot lsn (h.build ▸ hb)) h.head
  complete htaken := hcomplete (hok.complete (h.build ▸ htaken))

/-- Sessions begin and end; nothing is committed. -/
theorem Beside.complete (hhead : w'.graph.store.head = w.graph.store.head)
    (hactive : ∀ id tx, Active w'.graph id tx →
      tx.nodeWrites = [] ∨ Active w.graph id tx ∧ w'.pending id = w.pending id)
    (hcomplete : Complete ix w) : Complete ix w' where
  committed n node k hnode hkey := by
    rw [hhead, h.states _ (Nat.le_refl _)] at hnode
    exact h.due hok (hcomplete.committed n node k hnode hkey)
  staged id tx htx n node k hlook hkey := by
    rcases hactive id tx htx with hnil | ⟨hold, hpending⟩
    · rw [hnil] at hlook
      cases hlook
    · exact h.covered hok hold hpending (hcomplete.staged id tx hold n node k hlook hkey)

end

section
variable (hok : Ok ix w)
include hok

theorem Ok.begin (hstep : w.onGraph (.begin id) = some w') : Ok ix w' := by
  obtain ⟨g, hg, rfl⟩ := map_eq_some_iff.mp hstep
  have hversioned := versioned_step hok.versioned hg
  simp only [Graph.step] at hg
  split at hg
  · cases hg
    have hbeside : Beside w { w with
        graph := w.graph.setSession id (some (.active { snapshot := w.graph.store.head })) } :=
      ⟨rfl, rfl, Nat.le_refl _, fun _ _ => rfl⟩
    refine hbeside.ok hok hversioned (hbeside.complete hok rfl fun id' tx' h' => ?_)
    rcases of_active_setSession h' with ⟨-, ⟨⟩⟩ | ⟨-, hold⟩
    · exact .inl rfl
    · exact .inr ⟨hold, rfl⟩
  · cases hg

theorem Ok.endSession {g : Graph.World (NodeBag V)}
    {p : TxnId → Option (Maintenance V)} {s : Option (Session (NodeBag V))}
    (hs : ∀ tx, s ≠ some (.active tx)) (hversioned : Versioned g)
    (hsessions : g.sessions = (w.graph.setSession id s).sessions)
    (hhead : g.store.head = w.graph.store.head) (hstates : g.store.states = w.graph.store.states)
    (hpending : ∀ id', id' ≠ id → p id' = w.pending id') :
    Ok ix { w with graph := g, pending := p } := by
  have hbeside : Beside w { w with graph := g, pending := p } :=
    ⟨rfl, rfl, Nat.le_of_eq hhead.symm, fun lsn _ => congrFun hstates lsn⟩
  refine hbeside.ok hok hversioned (hbeside.complete hok hhead fun id' tx' h' => .inr ?_)
  have h' : Active (w.graph.setSession id s) id' tx' := by
    unfold Active at h' ⊢
    rw [← hsessions]
    exact h'
  obtain ⟨hne, hold⟩ := active_of_setSession hs h'
  exact ⟨hold, hpending id' hne⟩

theorem Ok.append (hstep : w.onGraph (.append id) = some w') : Ok ix w' := by
  obtain ⟨_, hg, rfl⟩ := map_eq_some_iff.mp hstep
  have hversioned := versioned_step hok.versioned hg
  simp only [Graph.step] at hg
  split at hg
  · rename_i createdLsn pending hsession
    cases hg
    cases pending with
    | nil | cons =>
      exact hok.endSession (fun _ h => by cases h) hversioned rfl rfl rfl fun _ _ => rfl
  · cases hg

theorem Ok.abort (hstep : (w.onGraph (.abort id)).map
    (fun w' => w'.setPending id none) = some w') : Ok ix w' := by
  obtain ⟨_, hw1, rfl⟩ := map_eq_some_iff.mp hstep
  obtain ⟨_, hg, rfl⟩ := map_eq_some_iff.mp hw1
  have hversioned := versioned_step hok.versioned hg
  simp only [Graph.step] at hg
  split at hg
  · cases hg
    refine hok.endSession (fun _ h => by cases h) hversioned rfl rfl rfl fun id' hne => ?_
    exact update_of_ne hne _ _
  · cases hg

/-- What a transaction commits is due: its maintenance has run, so a key it has staged is
covered by the index or by the version that the commit overwrites. -/
theorem due_of_installed (hcomplete : Complete ix w)
    (hactive : Active w.graph id tx) (hpending : w.pending id = none)
    (hfirst : w.graph.store.conflicts tx = false)
    (hnode : (w.graph.store.installed tx).node n = some node) (hkey : ix.keyOf node = some k) :
    Due ix w n k := by
  have hnode : (tx.nodeWrites.lookup n).getD
      ((w.graph.store.states w.graph.store.head).node n) = some node := hnode
  cases hlook : tx.nodeWrites.lookup n with
  | none =>
    rw [hlook, getD_none] at hnode
    exact hcomplete.committed n node k hnode hkey
  | some =>
    rw [hlook, getD_some] at hnode
    subst hnode
    rcases hcomplete.staged id tx hactive n node k hlook hkey with
      howed | hentry | ⟨m, hm, -⟩ | ⟨old, hold, holdKey⟩
    · exact .inr howed
    · exact .inl hentry
    · rw [hpending] at hm
      cases hm
    · rw [← hok.versioned.overwrites hactive hfirst hlook] at hold
      exact hcomplete.committed n old k hold holdKey

theorem Ok.commit (hpending : w.pending id = none)
    (hstep : w.onGraph (.commit id) = some w') : Ok ix w' := by
  obtain ⟨g, hg, rfl⟩ := map_eq_some_iff.mp hstep
  have hversioned := versioned_step hok.versioned hg
  simp only [Graph.step] at hg
  split at hg
  · rename_i tx hactive
    cases hg
    unfold Graph.World.commit at hversioned ⊢
    split at hversioned
    · rename_i hlost
      rw [if_pos hlost]
      exact hok.endSession (fun _ h => by cases h) hversioned rfl rfl rfl fun _ _ => rfl
    · rename_i hwon
      rw [if_neg hwon]
      have hfirst : w.graph.store.conflicts tx = false := by simpa using hwon
      have hbeside : Beside w
          { w with
            graph := .setSession { w.graph with store := w.graph.store.install tx } id
              (some (.appending (w.graph.store.head + 1) tx.pendingTel)) } :=
        ⟨rfl, rfl, Nat.le_succ _, fun _ hlsn => states_install_of_le hlsn⟩
      refine hbeside.ok hok hversioned fun hcomplete => ⟨?_, ?_⟩
      · intro n node k hnode hkey
        have hnode : ((w.graph.store.install tx).states (w.graph.store.install tx).head).node n =
            some node := hnode
        rw [states_install_head] at hnode
        exact hbeside.due hok
          (due_of_installed hok hcomplete hactive hpending hfirst hnode hkey)
      · intro id' tx' h' n node k hlook hkey
        obtain ⟨-, hold⟩ := active_of_setSession (fun _ h => by cases h) h'
        exact hbeside.covered hok hold rfl (hcomplete.staged id' tx' hold n node k hlook hkey)
  · cases hg

end

/-- A key that a call has staged: maintenance is about to enter it, or the node had it before
in the view of the transaction, staged or in its snapshot. -/
theorem covered_of_staged (hcomplete : Complete ix w) (hactive : Active w.graph id tx) {c : Call V}
    (hlook : (w.graph.store.stage tx c.toWrite).2.2.nodeWrites.lookup n = some (some node))
    (hkey : ix.keyOf node = some k) : Covered ix w id tx n k ∨
      ∃ m, c.maintenance w.graph.store tx = some m ∧ m.node = n ∧ m.inserted ix = some k := by
  rcases staged_cases hlook with hold | ⟨m, hm, hn, rfl, hread⟩
  · exact .inl (hcomplete.staged id tx hactive n node k hold hkey)
  · rcases inserted_or_old hkey with hinserted | ⟨bag, hbag, hbagKey⟩
    · exact .inr ⟨m, hm, hn, hinserted⟩
    · left
      have hview := hread bag hbag
      unfold Transaction.readNode at hview
      cases hold : tx.nodeWrites.lookup n with
      | some =>
        rw [hold, getD_some] at hview
        subst hview
        exact hcomplete.staged id tx hactive n _ k hold hbagKey
      | none =>
        rw [hold, getD_none] at hview
        exact .inr (.inr (.inr ⟨_, hview, hbagKey⟩))

theorem Ok.call (hok : Ok ix w) {c : Call V} (hstep : w.call id c = some w') : Ok ix w' := by
  unfold World.call at hstep
  split at hstep
  · rename_i tx hpending hactive
    obtain ⟨_, hw1, rfl⟩ := map_eq_some_iff.mp hstep
    obtain ⟨_, hg, rfl⟩ := map_eq_some_iff.mp hw1
    have hversioned := versioned_step hok.versioned hg
    simp only [Graph.step, hactive, some.injEq] at hg
    subst hg
    have hstage := @stagesNode_stage _ w.graph.store tx c.toWrite
    have hbeside : Beside w (.setPending
        { w with graph := w.graph.call id tx c.toWrite } id (c.maintenance w.graph.store tx)) :=
      ⟨rfl, rfl, Nat.le_of_eq hstage.head.symm, fun lsn _ => congrFun hstage.states lsn⟩
    refine hbeside.ok hok hversioned fun hcomplete => ⟨?_, ?_⟩
    · intro n node k hnode hkey
      have hnode : ((w.graph.store.stage tx c.toWrite).2.1.states
          (w.graph.store.stage tx c.toWrite).2.1.head).node n = some node := hnode
      rw [hstage.head, hstage.states] at hnode
      exact hbeside.due hok (hcomplete.committed n node k hnode hkey)
    · intro id' tx' h' n node k hlook hkey
      rcases of_active_setSession h' with ⟨rfl, ⟨⟩⟩ | ⟨heq, hold⟩
      · have hself : World.pending (.setPending
            { w with graph := w.graph.call id' tx c.toWrite } id'
            (c.maintenance w.graph.store tx)) id' = c.maintenance w.graph.store tx :=
          update_self ..
        rcases covered_of_staged hcomplete hactive hlook hkey with
          (howed | hentry | ⟨m, hm, -⟩ | hsnapshot) | hm
        · exact .inl (owed_of_states hok hbeside.build hbeside.states howed)
        · exact .inr (.inl hentry)
        · rw [hpending] at hm
          cases hm
        · refine .inr (.inr (.inr ?_))
          rw [hstage.snapshot, hbeside.states _ (hok.versioned.snapshots id' tx hactive)]
          exact hsnapshot
        · refine .inr (.inr (.inl ?_))
          rw [hself]
          exact hm
      · exact hbeside.covered hok hold (update_of_ne heq _ _)
          (hcomplete.staged id' tx' hold n node k hlook hkey)
  · cases hstep

omit [DecidableEq V] in
theorem due_insertKey {key : Option K} (h : Due ix w n k) : Due ix (w.insertKey key n') n k :=
  h.imp (fun hmem => mem_append_left _ hmem) fun howed => howed

omit [DecidableEq V] in
theorem mem_insertKey : (k, n) ∈ (w.insertKey (some k) n).entries :=
  mem_append_right _ (mem_singleton.mpr rfl)

omit [DecidableEq V] in
theorem Build.Taken.active (h : b.Taken) :
    ∃ state, b.state = some state ∧ state.maintenanceActive = true := by
  cases b with
  | idle | published | registered => exact h.elim
  | scanning | filling | flipped => exact ⟨_, rfl, rfl⟩

theorem maintainNode_of_taken (h : w.build.Taken) (m : Maintenance V) :
    w.maintainNode ix m = w.insertKey (m.inserted ix) m.node := by
  obtain ⟨_, hstate, hactive⟩ := h.active
  simp only [World.maintainNode, hstate, hactive, if_true]

variable (m : Maintenance V)

theorem maintainNode_graph : (w.maintainNode ix m).graph = w.graph := by
  unfold World.maintainNode
  split
  · rfl
  · split <;> rfl

theorem maintainNode_build : (w.maintainNode ix m).build = w.build := by
  unfold World.maintainNode
  split
  · rfl
  · split <;> rfl

theorem Ok.maintain (hok : Ok ix w) {m : Maintenance V} (hm : w.pending id = some m) :
    Ok ix ((w.maintainNode ix m).setPending id none) where
  versioned := by
    change Versioned (w.maintainNode ix m).graph
    rw [maintainNode_graph]
    exact hok.versioned
  snapshot lsn hb := by
    change lsn ≤ (w.maintainNode ix m).graph.store.head
    rw [maintainNode_graph]
    exact hok.snapshot lsn ((maintainNode_build m).symm.trans hb)
  complete htaken := by
    have hbuild : (w.maintainNode ix m).build = w.build := maintainNode_build m
    have htaken : w.build.Taken := hbuild ▸ htaken
    have hcomplete := hok.complete htaken
    rw [maintainNode_of_taken htaken]
    refine ⟨fun n node k hnode hkey => due_insertKey (hcomplete.committed n node k hnode hkey),
      fun id' tx' h' n node k hlook hkey => ?_⟩
    rcases hcomplete.staged id' tx' h' n node k hlook hkey with
      howed | hentry | ⟨m', hm', hn, hinserted⟩ | hsnapshot
    · exact .inl howed
    · exact .inr (.inl (mem_append_left _ hentry))
    · by_cases heq : id' = id
      · subst heq
        rw [hm] at hm'
        cases hm'
        refine .inr (.inl ?_)
        rw [← hn, hinserted]
        exact mem_insertKey
      · refine .inr (.inr (.inl ⟨m', ?_, hn, hinserted⟩))
        exact (update_of_ne heq _ _).trans hm'
    · exact .inr (.inr (.inr hsnapshot))

/-! ## Steps of the index -/

/-- A step of the index after the snapshot keeps the entries and enters what it no longer
owes. -/
theorem Ok.fill (hok : Ok ix w) (htaken : w.build.Taken) (hgraph : w'.graph = w.graph)
    (hpending : w'.pending = w.pending) (hbuild : ∀ lsn, w'.build ≠ .scanning lsn)
    (hentries : ∀ e ∈ w.entries, e ∈ w'.entries) (howed : ∀ n k, Owed ix w n k → Due ix w' n k) :
    Ok ix w' where
  versioned := hgraph ▸ hok.versioned
  snapshot lsn h := absurd h (hbuild lsn)
  complete _ := by
    have hcomplete := hok.complete htaken
    refine ⟨fun n node k hnode hkey => ?_, fun id tx htx n node k hlook hkey => ?_⟩
    · rw [hgraph] at hnode
      exact (hcomplete.committed n node k hnode hkey).elim (fun h => .inl (hentries _ h)) (howed n k)
    · rw [hgraph] at htx
      have hcov := hcomplete.staged id tx htx n node k hlook hkey
      unfold Covered Accounted at hcov ⊢
      rw [hgraph, hpending]
      rcases hcov with h | hentry | hrest
      · rcases howed n k h with h | h
        · exact .inr (.inl h)
        · exact .inl h
      · exact .inr (.inl (hentries _ hentry))
      · exact .inr (.inr hrest)

/-- When the snapshot begins, all that is committed is owed, and the open transactions are
settled. -/
theorem Ok.beginSnapshot (hok : Ok ix w) (hsettled : Settled ix w .snapshot) :
    Ok ix { w with build := .scanning w.graph.store.head } where
  versioned := hok.versioned
  snapshot lsn hb := by
    cases hb
    exact Nat.le_refl _
  complete _ := ⟨fun n node k hnode hkey => .inr ⟨node, hnode, hkey⟩,
    fun id tx htx n node k hlook hkey => .inr (hsettled id tx htx n node k hlook hkey)⟩

omit [DecidableEq V] in
theorem mem_scanForBackfill (hversioned : Versioned w.graph) (hlsn : lsn ≤ w.graph.store.head)
    (hnode : (w.graph.store.states lsn).node n = some node) (hlabel : node.label = ix.label) :
    (n, node) ∈ w.scanForBackfill ix lsn := by
  have hlt := hversioned.nodes lsn hlsn n (by rw [hnode]; rfl)
  refine mem_filterMap.mpr ⟨n, mem_range.mpr hlt, ?_⟩
  simp [hnode, hlabel]

theorem Ok.scan (hok : Ok ix w) (hb : w.build = .scanning lsn) :
    Ok ix { w with build := .filling (w.scanForBackfill ix lsn) } := by
  refine hok.fill (by rw [hb]; trivial) rfl rfl (by simp) (fun _ h => h) fun n k howed => .inr ?_
  unfold Owed at howed
  rw [hb] at howed
  obtain ⟨node, hnode, hkey⟩ := howed
  have hlabel := (keyOf_eq_some.mp hkey).1
  exact ⟨node, mem_scanForBackfill hok.versioned (hok.snapshot lsn hb) hnode hlabel, hkey⟩

theorem Ok.backfill (hok : Ok ix w) {node' : NodeBag V}
    {rest : List (NodeId × NodeBag V)} (hb : w.build = .filling ((n', node') :: rest)) :
    Ok ix { w.insertKey (ix.keyOf node') n' with build := .filling rest } := by
  refine hok.fill (by rw [hb]; trivial) rfl rfl (by simp) (fun _ => mem_append_left _)
    fun n k howed => ?_
  unfold Owed at howed
  rw [hb] at howed
  obtain ⟨node, hmem, hkey⟩ := howed
  rcases mem_cons.mp hmem with heq | hrest
  · cases heq
    left
    change (k, n') ∈ (w.insertKey (ix.keyOf node') n').entries
    rw [hkey]
    exact mem_insertKey
  · exact .inr ⟨node, hrest, hkey⟩

theorem Ok.flip (hok : Ok ix w) (hb : w.build = .filling []) :
    Ok ix { w with build := .flipped } := by
  refine hok.fill (by rw [hb]; trivial) rfl rfl (by simp) (fun _ h => h) fun n k howed => ?_
  unfold Owed at howed
  rw [hb] at howed
  obtain ⟨_, hmem, -⟩ := howed
  cases hmem

theorem Ok.announce (hok : Ok ix w) (hb : b = .published ∨ b = .registered) :
    Ok ix { w with build := b } where
  versioned := hok.versioned
  snapshot lsn h := by
    have h : b = .scanning lsn := h
    rcases hb with rfl | rfl <;> cases h
  complete htaken := by
    have htaken : b.Taken := htaken
    rcases hb with rfl | rfl <;> exact htaken.elim

theorem ok_step {a : Action V} (hok : Ok ix w) (hsettled : Settled ix w a)
    (hstep : step ix w a = some w') : Ok ix w' := by
  cases a with simp only [step] at hstep
  | begin => exact hok.begin hstep
  | call => exact hok.call hstep
  | maintain =>
    obtain ⟨_, hm, rfl⟩ := map_eq_some_iff.mp hstep
    exact hok.maintain hm
  | commit =>
    split at hstep
    · cases hstep
    · rename_i hpending
      exact hok.commit (by simpa using hpending) hstep
  | append => exact hok.append hstep
  | abort => exact hok.abort hstep
  | publish =>
    split at hstep <;> cases hstep
    exact hok.announce (.inl rfl)
  | register =>
    split at hstep <;> cases hstep
    exact hok.announce (.inr rfl)
  | snapshot =>
    split at hstep <;> cases hstep
    exact hok.beginSnapshot hsettled
  | scan =>
    split at hstep <;> cases hstep
    exact hok.scan ‹_›
  | backfill =>
    split at hstep <;> cases hstep
    exact hok.backfill ‹_›
  | flip =>
    split at hstep <;> cases hstep
    exact hok.flip ‹_›

theorem ok_init : Ok ix ({} : World V K) where
  versioned := versioned_init
  snapshot _ h := by cases h
  complete h := h.elim

end

/-! ## Whole runs -/

section
variable {ix} [DecidableEq V] [DecidableEq K] {w : World V K}

/-- In every run whose backfill snapshot begins when no open transaction holds an unentered
write from before the registration, an Online index returns every node that a snapshot
taken from then on sees with the value. -/
theorem online_index_complete (h : System.Reach (system ix) (Settled ix) w)
    (honline : w.build.state = some .online) {n : NodeId} {node : NodeBag V} {v : V} {k : K}
    (hsees : (w.graph.store.states w.graph.store.head).node n = some node)
    (hlabel : node.label = ix.label) (hvalue : node.bag ix.property = some v)
    (hindexable : ix.canonicalKey v = some k) : n ∈ w.lookupCandidates ix v := by
  have hok : Ok ix w := h.invariant ok_init fun _ _ _ => ok_step
  have hbuild : w.build = .flipped := by
    cases hb : w.build <;> simp [hb, Build.state] at honline ⊢
  have hkey : ix.keyOf node = some k := by
    rw [keyOf_eq_some, hvalue]
    exact ⟨hlabel, hindexable⟩
  have hcomplete := hok.complete (by rw [hbuild]; trivial)
  rcases hcomplete.committed n node k hsees hkey with hentry | howed
  · simp only [World.lookupCandidates, hindexable, honline, IndexState.plannerVisible, if_true]
    exact mem_map.mpr ⟨(k, n), mem_filter.mpr ⟨hentry, by simp⟩, rfl⟩
  · unfold Owed at howed
    rw [hbuild] at howed
    exact howed.elim

end

def nameIndex : IndexSpec Nat Nat := ⟨1, "name", some⟩

def named (v : Nat) : Bag Nat := fun property => if property = "name" then some v else none

def registeredWorld : World Nat Nat :=
  (system nameIndex).after (fun _ _ => True)
    [.begin 0, .call 0 (.createNode 1 (named 5)), .maintain 0, .commit 0, .publish, .register]

theorem reach_step {w w' : World Nat Nat}
    (h : System.Reach (system nameIndex) (Settled nameIndex) w) (a : Action Nat)
    (hok : Settled nameIndex w a) (hs : step nameIndex w a = some w') :
    System.Reach (system nameIndex) (Settled nameIndex) w' :=
  .step h hok hs

theorem reach_registeredWorld :
    System.Reach (system nameIndex) (Settled nameIndex) registeredWorld := by
  have h := reach_step .init (.begin 0) trivial rfl
  have h := reach_step h (.call 0 (.createNode 1 (named 5))) trivial rfl
  have h := reach_step h (.maintain 0) trivial rfl
  have h := reach_step h (.commit 0) trivial rfl
  have h := reach_step h .publish trivial rfl
  exact reach_step h .register trivial rfl

theorem settled_registeredWorld : Settled nameIndex registeredWorld .snapshot := by
  intro id tx hactive
  by_cases h : id = 0
  · subst h
    cases hactive
  · have hnone : registeredWorld.graph.sessions id = none :=
      (update_of_ne h _ _).trans <| (update_of_ne h _ _).trans <|
        update_of_ne h _ _
    exact absurd (hnone.symm.trans hactive) (by simp)

/-- The index is built while a second write changes the value. -/
theorem online_index_complete_named :
    ∃ w, System.Reach (system nameIndex) (Settled nameIndex) w ∧
      (0 : NodeId) ∈ w.lookupCandidates nameIndex 6 := by
  have h := reach_step reach_registeredWorld .snapshot settled_registeredWorld rfl
  have h := reach_step h (.begin 1) trivial rfl
  have h := reach_step h (.call 1 (.setNode 0 fun _ => named 6)) trivial rfl
  have h := reach_step h (.maintain 1) trivial rfl
  have h := reach_step h .scan trivial rfl
  have h := reach_step h (.commit 1) trivial rfl
  have h := reach_step h .backfill trivial rfl
  have h := reach_step h .flip trivial rfl
  have hsees : _ = some (⟨1, named 6⟩ : NodeBag Nat) := rfl
  exact ⟨_, h, online_index_complete h rfl hsees rfl rfl rfl⟩

/-- A write staged before the Building record and committed after the backfill snapshot is
in no candidate list. -/
theorem staged_write_missed : ∃ w, System.Reach (system nameIndex) (fun _ _ => True) w ∧
    w.build.state = some .online ∧ (∀ id, w.graph.sessions id = none) ∧
      (∃ node, (w.graph.store.states w.graph.store.head).node 0 = some node ∧
        node.label = nameIndex.label ∧ node.bag nameIndex.property = some 5) ∧
      (0 : NodeId) ∉ w.lookupCandidates nameIndex 5 := by
  refine ⟨(system nameIndex).after (fun _ _ => True)
    [.begin 0, .call 0 (.createNode 1 (named 5)), .maintain 0, .publish, .register, .snapshot,
      .scan, .flip, .commit 0, .append 0], .after rfl, rfl, ?_, ⟨⟨1, named 5⟩, rfl, rfl, rfl⟩, ?_⟩
  · intro id
    by_cases h : id = 0
    · subst h
      rfl
    · exact (update_of_ne h _ _).trans <| (update_of_ne h _ _).trans <|
        (update_of_ne h _ _).trans <| update_of_ne h _ _
  · decide

end ArcGraph.PropertyIndex
