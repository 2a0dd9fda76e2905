import ArcGraph.Foundation.System
import Mathlib.Data.List.Basic
import Mathlib.Order.Nat

/-!
# Nodes and relationships in transactions

A transaction reads the committed state of its snapshot under its own writes. Records of
nodes and relationships are versioned by their keys, and the first committer of a key wins.
Adjacency is kept beside the records: the creation of a relationship buffers an adjacency
entry, and the entries are appended one by one after the commit has been published. A scan
reads the entries its snapshot may see and drops those whose relationship the transaction
does not see.

The committed states are kept per commit, the writes of a transaction as a list with the
newest first. `B` is what a record holds beside its endpoints: label or type and property
bag. One tenant is modelled, with the reverse index enabled. The exhaustion of the id
space is left out, and so are the physical record pages that mirror the records.
-/

namespace ArcGraph.Graph
open Foundation List Function

abbrev NodeId := Nat

abbrev RelId := Nat

abbrev TxnId := Nat

variable {B α β : Type} {lsn : Nat} {id : TxnId}

structure RelRecord (B : Type) where
  src : NodeId
  dst : NodeId
  props : B

def RelRecord.Touches (rec : RelRecord B) (n : NodeId) : Prop := rec.src = n ∨ rec.dst = n

/-- What is committed at one point: the live nodes and relationships. -/
structure GraphState (B : Type) where
  node : NodeId → Option B := fun _ => none
  rel : RelId → Option (RelRecord B) := fun _ => none

structure TelEntry where
  src : NodeId
  dst : NodeId
  rel : RelId
  createdLsn : Nat

structure PendingTelAppend where
  src : NodeId
  dst : NodeId
  rel : RelId

structure Transaction (B : Type) where
  snapshot : Nat
  nodeWrites : List (NodeId × Option B) := []
  relWrites : List (RelId × Option (RelRecord B)) := []
  pendingTel : List PendingTelAppend := []

/-- `head` is the newest published commit; a stamp is the commit of a key's newest version. -/
structure CrudStore (B : Type) where
  head : Nat := 0
  states : Nat → GraphState B := fun _ => {}
  nodeStamp : NodeId → Nat := fun _ => 0
  relStamp : RelId → Nat := fun _ => 0
  tel : List TelEntry := []
  nextNode : NodeId := 0
  nextRel : RelId := 0

inductive WriteError
  | notFound (kind : String) (id : Nat)
  | notVisible (kind : String) (id : Nat)
  | relationshipsAttached
deriving DecidableEq

def WriteError.message (tenant : String) : WriteError → String
  | notFound kind id => s!"{kind} id {id} not found in tenant {tenant}"
  | notVisible kind id => s!"set_{kind}: {kind} {id} not visible at snapshot"
  | relationshipsAttached => "delete_node: node has relationships attached; use DETACH DELETE"

namespace Transaction
variable (tx : Transaction B) (store : CrudStore B) (n : NodeId)

def readNode : Option B :=
  (tx.nodeWrites.lookup n).getD ((store.states tx.snapshot).node n)

def readRel (r : RelId) : Option (RelRecord B) :=
  (tx.relWrites.lookup r).getD ((store.states tx.snapshot).rel r)

def writeNode (value : Option B) : Transaction B :=
  { tx with nodeWrites := (n, value) :: tx.nodeWrites }

def writeRel (r : RelId) (value : Option (RelRecord B)) : Transaction B :=
  { tx with relWrites := (r, value) :: tx.relWrites }

/-- The relationships of the entries that the snapshot and the transaction see. -/
def visibleRels (entries : List TelEntry) : List RelId :=
  (entries.filter fun e =>
    e.createdLsn ≤ tx.snapshot ∧ (tx.readRel store e.rel).isSome).map (·.rel)

def scanOut : List RelId :=
  tx.visibleRels store (store.tel.filter (·.src = n))

def scanIn : List RelId :=
  tx.visibleRels store (store.tel.filter (·.dst = n))

def attached (n : NodeId) : List RelId :=
  (tx.scanIn store n).foldl (fun attached r => if r ∈ attached then attached else attached ++ [r])
    (tx.scanOut store n)

def deleteRel (r : RelId) : Option WriteError × Transaction B :=
  match tx.readRel store r with
  | none => (some (.notFound "rel" r), tx)
  | some _ => (none, tx.writeRel r none)

/-- Delete relationships up to the first that fails. -/
def deleteRels (store : CrudStore B) : Transaction B → List RelId →
    Option WriteError × Transaction B
  | tx, [] => (none, tx)
  | tx, r :: rest =>
    match tx.deleteRel store r with
    | (some e, tx) => (some e, tx)
    | (none, tx) => deleteRels store tx rest

def deleteNodeRecord (n : NodeId) : Option WriteError × Transaction B :=
  match tx.readNode store n with
  | none => (some (.notFound "node" n), tx)
  | some _ => (none, tx.writeNode n none)

/-- Without DETACH a node with relationships is refused. -/
def deleteNode (n : NodeId) (detach : Bool) : Option WriteError × Transaction B :=
  if tx.attached store n ≠ [] ∧ detach = false then (some .relationshipsAttached, tx)
  else
    match tx.deleteRels store (tx.attached store n) with
    | (some e, tx) => (some e, tx)
    | (none, tx) => tx.deleteNodeRecord store n

/-- SET and REMOVE read the record, change its properties and write it back. -/
def setNode (n : NodeId) (mutation : B → B) : Option WriteError × Transaction B :=
  match tx.readNode store n with
  | none => (some (.notVisible "node" n), tx)
  | some props => (none, tx.writeNode n (some (mutation props)))

def setRel (r : RelId) (mutation : B → B) : Option WriteError × Transaction B :=
  match tx.readRel store r with
  | none => (some (.notVisible "rel" r), tx)
  | some rec => (none, tx.writeRel r (some { rec with props := mutation rec.props }))

end Transaction

inductive WriteCall (B : Type)
  | createNode (props : B)
  | createRel (src dst : NodeId) (props : B)
  | deleteRel (rel : RelId)
  | deleteNode (node : NodeId) (detach : Bool)
  | setNode (node : NodeId) (mutation : B → B)
  | setRel (rel : RelId) (mutation : B → B)

namespace CrudStore
variable (store : CrudStore B)

/-- Stage a call into a transaction. Of the store only the id allocators move. -/
def stage (tx : Transaction B) : WriteCall B → Option WriteError × CrudStore B × Transaction B
  | .createNode props =>
    (none, { store with nextNode := store.nextNode + 1 },
      tx.writeNode store.nextNode (some props))
  | .createRel src dst props =>
    (none, { store with nextRel := store.nextRel + 1 },
      { tx.writeRel store.nextRel (some ⟨src, dst, props⟩) with
        pendingTel := tx.pendingTel ++ [⟨src, dst, store.nextRel⟩] })
  | .deleteRel r =>
    let (e, tx) := tx.deleteRel store r
    (e, store, tx)
  | .deleteNode n detach =>
    let (e, tx) := tx.deleteNode store n detach
    (e, store, tx)
  | .setNode n mutation =>
    let (e, tx) := tx.setNode store n mutation
    (e, store, tx)
  | .setRel r mutation =>
    let (e, tx) := tx.setRel store r mutation
    (e, store, tx)

/-- Some key of the transaction has a version its snapshot does not see. -/
def conflicts (tx : Transaction B) : Bool :=
  tx.nodeWrites.any (fun w => tx.snapshot < store.nodeStamp w.1) ||
    tx.relWrites.any fun w => tx.snapshot < store.relStamp w.1

def installed (tx : Transaction B) : GraphState B where
  node n := (tx.nodeWrites.lookup n).getD ((store.states store.head).node n)
  rel r := (tx.relWrites.lookup r).getD ((store.states store.head).rel r)

def install (tx : Transaction B) : CrudStore B :=
  { store with
    head := store.head + 1
    states := update store.states (store.head + 1) (store.installed tx)
    nodeStamp := fun n =>
      if (tx.nodeWrites.lookup n).isSome then store.head + 1 else store.nodeStamp n
    relStamp := fun r =>
      if (tx.relWrites.lookup r).isSome then store.head + 1 else store.relStamp r }

def telAppend (p : PendingTelAppend) (createdLsn : Nat) : CrudStore B :=
  { store with tel := store.tel ++ [⟨p.src, p.dst, p.rel, createdLsn⟩] }

end CrudStore

/-! ## Many transactions -/

/-- A transaction takes calls, or is committed and has adjacency entries to append. -/
inductive Session (B : Type)
  | active (tx : Transaction B)
  | appending (createdLsn : Nat) (pending : List PendingTelAppend)

structure World (B : Type) where
  store : CrudStore B := {}
  sessions : TxnId → Option (Session B) := fun _ => none

inductive Action (B : Type)
  | begin (id : TxnId)
  | call (id : TxnId) (c : WriteCall B)
  | commit (id : TxnId)
  | append (id : TxnId)
  | abort (id : TxnId)

namespace World
variable (w : World B)

def setSession (id : TxnId) (s : Option (Session B)) : World B :=
  { w with sessions := update w.sessions id s }

def call (id : TxnId) (tx : Transaction B) (c : WriteCall B) : World B :=
  let staged := w.store.stage tx c
  { w with store := staged.2.1 }.setSession id (some (.active staged.2.2))

/-- A transaction that loses against an earlier committer ends without a trace. -/
def commit (id : TxnId) (tx : Transaction B) : World B :=
  if w.store.conflicts tx then w.setSession id none
  else
    { w with store := w.store.install tx }.setSession id
      (some (.appending (w.store.head + 1) tx.pendingTel))

/-- One adjacency entry is appended; after the last the session is over. -/
def append (id : TxnId) (createdLsn : Nat) : List PendingTelAppend → World B
  | [] => w.setSession id none
  | p :: rest =>
    { w with store := w.store.telAppend p createdLsn }.setSession id
      (some (.appending createdLsn rest))

end World

/-- One step of one session; an id is used for one transaction at a time. -/
def step (w : World B) : Action B → Option (World B)
  | .begin id =>
    match w.sessions id with
    | none => some (w.setSession id (some (.active { snapshot := w.store.head })))
    | some _ => none
  | .call id c =>
    match w.sessions id with
    | some (.active tx) => some (w.call id tx c)
    | _ => none
  | .commit id =>
    match w.sessions id with
    | some (.active tx) => some (w.commit id tx)
    | _ => none
  | .append id =>
    match w.sessions id with
    | some (.appending createdLsn pending) => some (w.append id createdLsn pending)
    | _ => none
  | .abort id =>
    match w.sessions id with
    | some (.active _) => some (w.setSession id none)
    | _ => none

def system (B : Type) : System (World B) (Action B) where
  init := {}
  step := step

/-! ## Sessions -/

def Active (w : World B) (id : TxnId) (tx : Transaction B) : Prop :=
  w.sessions id = some (.active tx)

theorem active_setSession_self {w : World B} {s : Option (Session B)}
    {tx : Transaction B} : Active (w.setSession id s) id tx ↔ s = some (.active tx) := by
  simp [Active, World.setSession]

theorem active_setSession_ne {w : World B} {id' : TxnId} {s : Option (Session B)}
    {tx : Transaction B} (h : id' ≠ id) : Active (w.setSession id s) id' tx ↔ Active w id' tx := by
  simp [Active, World.setSession, h]

theorem of_active_setSession {w : World B} {id' : TxnId} {s : Option (Session B)}
    {tx : Transaction B} (h : Active (w.setSession id s) id' tx) :
    id' = id ∧ s = some (.active tx) ∨ id' ≠ id ∧ Active w id' tx :=
  of_update_eq h

/-! ## Writes -/

theorem lookup_cons_self [BEq α] [LawfulBEq α] (k : α) (v : β) (l : List (α × β)) :
    lookup k ((k, v) :: l) = some v := by
  simp

theorem lookup_cons_ne [BEq α] [LawfulBEq α] {k k' : α} (v : β) (l : List (α × β))
    (h : k' ≠ k) : lookup k' ((k, v) :: l) = lookup k' l := by
  rw [lookup_cons, beq_false_of_ne h]

theorem of_lookup_cons [BEq α] [LawfulBEq α] {k k' : α} {v x : β} {l : List (α × β)}
    (h : lookup k' ((k, v) :: l) = some x) :
    (k' = k ∧ v = x) ∨ (k' ≠ k ∧ lookup k' l = some x) := by
  by_cases heq : k' = k
  · subst heq
    exact .inl ⟨rfl, Option.some.inj ((lookup_cons_self ..).symm.trans h)⟩
  · exact .inr ⟨heq, (lookup_cons_ne v l heq).symm.trans h⟩

theorem mem_union_iff {r : RelId} {inbound start : List RelId} :
    r ∈ inbound.foldl (fun attached r => if r ∈ attached then attached else attached ++ [r]) start ↔
      r ∈ start ∨ r ∈ inbound := by
  induction inbound generalizing start with
  | nil => simp
  | cons x _ ih =>
    rw [foldl_cons, ih]
    by_cases hx : x ∈ start
    · rw [if_pos hx, mem_cons]
      constructor
      · exact Or.imp_right .inr
      · rintro (h | rfl | h)
        · exact .inl h
        · exact .inl hx
        · exact .inr h
    · rw [if_neg hx, mem_append, mem_singleton, mem_cons, or_assoc]

/-- The transaction has deleted some relationships it could read. -/
structure Tombstones (store : CrudStore B) (tx tx' : Transaction B) : Prop where
  snapshot : tx'.snapshot = tx.snapshot
  nodeWrites : tx'.nodeWrites = tx.nodeWrites
  pendingTel : tx'.pendingTel = tx.pendingTel
  rels : ∀ r, tx'.relWrites.lookup r = tx.relWrites.lookup r ∨
    tx'.relWrites.lookup r = some none ∧ (tx.readRel store r).isSome = true

open Transaction

section
variable {store : CrudStore B} {tx tx' tx'' : Transaction B}

theorem Tombstones.refl : Tombstones store tx tx := ⟨rfl, rfl, rfl, fun _ => .inl rfl⟩

theorem Tombstones.trans (h : Tombstones store tx tx') (h' : Tombstones store tx' tx'') :
    Tombstones store tx tx'' := by
  refine ⟨h'.snapshot.trans h.snapshot, h'.nodeWrites.trans h.nodeWrites,
    h'.pendingTel.trans h.pendingTel, fun r => ?_⟩
  rcases h'.rels r with h2 | ⟨h2, hread⟩
  · rw [h2]
    exact h.rels r
  · rcases h.rels r with h1 | ⟨h1, hread'⟩
    · refine .inr ⟨h2, ?_⟩
      unfold readRel at hread ⊢
      rwa [h1, h.snapshot] at hread
    · exact .inr ⟨h2, hread'⟩

theorem deleteRel_tombstones (r : RelId) : Tombstones store tx (tx.deleteRel store r).2 ∧
    ((tx.deleteRel store r).1 = none →
      (tx.deleteRel store r).2.relWrites.lookup r = some none) := by
  unfold deleteRel
  cases hread : tx.readRel store r with
  | none => exact ⟨.refl, fun h => by cases h⟩
  | some =>
    refine ⟨⟨rfl, rfl, rfl, fun r' => ?_⟩, fun _ => lookup_cons_self ..⟩
    by_cases heq : r' = r
    · subst heq
      exact .inr ⟨lookup_cons_self .., by rw [hread]; rfl⟩
    · exact .inl (lookup_cons_ne _ _ heq)

theorem deleteRels_tombstones (rs : List RelId) : Tombstones store tx (tx.deleteRels store rs).2 ∧
    ((tx.deleteRels store rs).1 = none →
      ∀ r ∈ rs, (tx.deleteRels store rs).2.relWrites.lookup r = some none) := by
  induction rs generalizing tx with
  | nil => exact ⟨.refl, fun _ r hr => absurd hr not_mem_nil⟩
  | cons r _ ih =>
    obtain ⟨htomb, hdone⟩ := @deleteRel_tombstones B store tx r
    rcases hdel : tx.deleteRel store r with ⟨e, tx1⟩
    rw [hdel] at htomb hdone
    simp only [deleteRels, hdel]
    cases e with
    | some => exact ⟨htomb, fun h => by cases h⟩
    | none =>
      obtain ⟨hrest, hall⟩ := @ih tx1
      refine ⟨htomb.trans hrest, fun hok r' hr' => ?_⟩
      rcases mem_cons.mp hr' with rfl | hr'
      · -- a deleted relationship stays deleted by the rest of the cascade
        rcases hrest.rels r' with h | ⟨h, -⟩
        · rw [h]
          exact hdone rfl
        · exact h
      · exact hall hok r' hr'

/-- A deletion deletes relationships, and then, if it gets so far, the record of the node. -/
theorem deleteNode_cases (n : NodeId) (detach : Bool) :
    ∃ tx1, Tombstones store tx tx1 ∧ ((tx.deleteNode store n detach).2 = tx1 ∨
        (tx.deleteNode store n detach).2 = tx1.writeNode n none ∧
          (tx1.readNode store n).isSome = true ∧
          ∀ r ∈ tx.attached store n, tx1.relWrites.lookup r = some none) := by
  unfold deleteNode
  split
  · exact ⟨tx, .refl, .inl rfl⟩
  · obtain ⟨htomb, hall⟩ := @deleteRels_tombstones B store tx (tx.attached store n)
    rcases hrels : tx.deleteRels store (tx.attached store n) with ⟨e, tx1⟩
    rw [hrels] at htomb hall
    cases e with
    | some => exact ⟨tx1, htomb, .inl rfl⟩
    | none =>
      refine ⟨tx1, htomb, ?_⟩
      dsimp only
      unfold deleteNodeRecord
      cases hread : tx1.readNode store n with
      | none => exact .inl rfl
      | some => exact .inr ⟨rfl, rfl, hall rfl⟩

theorem Tombstones.readNode (h : Tombstones store tx tx') :
    tx'.readNode store = tx.readNode store := by
  funext n
  rw [Transaction.readNode, h.nodeWrites, h.snapshot, Transaction.readNode]

end

/-! ## Installed states -/

theorem states_install_head (tx : Transaction B) (store : CrudStore B) :
    (store.install tx).states (store.install tx).head = store.installed tx :=
  update_self ..

theorem states_install_of_le {store : CrudStore B} {tx : Transaction B}
    (h : lsn ≤ store.head) : (store.install tx).states lsn = store.states lsn :=
  update_of_ne (Nat.ne_of_lt (Nat.lt_succ_of_le h)) ..

theorem states_install {store : CrudStore B} {tx : Transaction B}
    (h : lsn ≤ (store.install tx).head) :
    (lsn ≤ store.head ∧ (store.install tx).states lsn = store.states lsn) ∨
      (lsn = (store.install tx).head ∧ (store.install tx).states lsn = store.installed tx) := by
  rcases Nat.le_succ_iff.mp h with hle | heq
  · exact .inl ⟨hle, states_install_of_le hle⟩
  · exact .inr ⟨heq, heq ▸ states_install_head tx store⟩

end ArcGraph.Graph
