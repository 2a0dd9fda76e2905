import ArcGraph.Graph.Store

/-!
# Relationships without their endpoints

The deletion of a node enumerates its relationships through the adjacency entries of its
snapshot; the creation of a relationship writes the key of the relationship alone. The
conflict check compares neither with the other, and a transaction's own new relationships
have no adjacency entry yet. So a relationship can outlive its endpoint
(`relationships_dangle`).

In every run whose transactions keep `Apart` no relationship of a committed state dangles
(`no_dangling_of_apart`). `Ok` is the invariant: what a transaction has created stays
between nodes that nobody else is deleting, and a transaction that has deleted a node has
deleted every committed relationship of it.
-/

namespace ArcGraph.Graph
open Foundation List Option Transaction
variable {B : Type} {rec : RelRecord B} {s : Option (Session B)} {store' : CrudStore B}

/-- Both ends of every relationship are live. -/
def GraphState.Closed (s : GraphState B) : Prop :=
  ∀ r rec, s.rel r = some rec → ∀ n, rec.Touches n → (s.node n).isSome = true

variable (w : World B)

/-- The nodes of a new relationship are live in the view of its transaction. -/
def InView : Action B → Prop
  | .call id (.createRel src dst _) =>
    match w.sessions id with
    | some (.active tx) =>
      (tx.readNode w.store src).isSome = true ∧ (tx.readNode w.store dst).isSome = true
    | _ => True
  | _ => True

instance (w : World B) (a : Action B) : Decidable (InView w a) := by
  unfold InView
  split
  · split <;> infer_instance
  · infer_instance

def Guarded (id : TxnId) (n : NodeId) : Prop :=
  ∀ id' tx', id' ≠ id → Active w id' tx' → tx'.nodeWrites.lookup n ≠ some none

variable (tx : Transaction B)

/-- The node is written by the transaction, or it is live in the newest committed state. -/
def Current (n : NodeId) : Prop :=
  tx.nodeWrites.lookup n = none → ((w.store.states w.store.head).node n).isSome = true

/-- A deletion finds every relationship of the node: no active transaction, the deleting one
included, has created one that it still has, and those of the newest committed state are in
the snapshot of the deletion with their adjacency entries. -/
structure Enumerable (w : World B) (tx : Transaction B) (n : NodeId) : Prop where
  created : ∀ id' tx', Active w id' tx' → ∀ p ∈ tx'.pendingTel,
    (tx'.readRel w.store p.rel).isSome = true → p.src ≠ n ∧ p.dst ≠ n
  seen : ∀ r rec, (w.store.states w.store.head).rel r = some rec → rec.Touches n →
    ((w.store.states tx.snapshot).rel r).isSome = true ∧
      ∃ e ∈ w.store.tel, e.rel = r ∧ e.src = rec.src ∧ e.dst = rec.dst ∧
        e.createdLsn ≤ tx.snapshot

/-- A relationship is created between nodes that are current and that no other active
transaction has deleted; a node is deleted when its relationships can be enumerated. -/
def Apart : Action B → Prop
  | .call id (.createRel src dst props) =>
    InView w (.call id (.createRel src dst props)) ∧
      ∀ tx, Active w id tx → ∀ n, n = src ∨ n = dst → Current w tx n ∧ Guarded w id n
  | .call id (.deleteNode n _) => ∀ tx, Active w id tx → Enumerable w tx n
  | _ => True

/-! ## The invariant -/

def Stays (n : NodeId) : Prop :=
  (∃ b, tx.nodeWrites.lookup n = some (some b)) ∨
    tx.nodeWrites.lookup n = none ∧ ((w.store.states w.store.head).node n).isSome = true

structure TxnOk (w : World B) (id : TxnId) (tx : Transaction B) : Prop where
  snapshot : tx.snapshot ≤ w.store.head
  nodesKnown : ∀ n v, tx.nodeWrites.lookup n = some v → n < w.store.nextNode
  relsKnown : ∀ r v, tx.relWrites.lookup r = some v → r < w.store.nextRel
  staged : ∀ r rec, tx.relWrites.lookup r = some (some rec) →
    ⟨rec.src, rec.dst, r⟩ ∈ tx.pendingTel ∨
      ∃ old, (w.store.states tx.snapshot).rel r = some old ∧ old.src = rec.src ∧
        old.dst = rec.dst
  pending : ∀ p ∈ tx.pendingTel, ∃ v, tx.relWrites.lookup p.rel = some v ∧
    ∀ rec, v = some rec → rec.src = p.src ∧ rec.dst = p.dst
  created : ∀ p ∈ tx.pendingTel, ∀ rec, tx.relWrites.lookup p.rel = some (some rec) →
    ∀ n, rec.Touches n → Stays w tx n ∧ Guarded w id n
  deleted : ∀ n, tx.nodeWrites.lookup n = some none → ∀ r rec,
    (w.store.states w.store.head).rel r = some rec → rec.Touches n →
      tx.relWrites.lookup r = some none

structure Ok (w : World B) : Prop where
  closed : ∀ lsn ≤ w.store.head, (w.store.states lsn).Closed
  stamped : ∀ lsn ≤ w.store.head, ∀ r, w.store.relStamp r ≤ lsn →
    (w.store.states w.store.head).rel r = (w.store.states lsn).rel r
  nodes : ∀ lsn ≤ w.store.head, ∀ n, ((w.store.states lsn).node n).isSome = true →
    n < w.store.nextNode
  rels : ∀ lsn ≤ w.store.head, ∀ r, ((w.store.states lsn).rel r).isSome = true →
    r < w.store.nextRel
  txns : ∀ id tx, Active w id tx → TxnOk w id tx

theorem ok_init : Ok ({} : World B) where
  closed _ _ _ _ h := by cases h
  stamped _ _ _ _ := rfl
  nodes _ _ _ h := by cases h
  rels _ _ _ h := by cases h
  txns _ _ h := by cases h

/-! ## One call -/

section
variable {w : World B} {id : TxnId} {tx tx' : Transaction B}

variable {r : RelId} {n : NodeId} {w' : World B}

theorem lt_nextRel_of_readRel (hok : Ok w) (h : TxnOk w id tx)
    (hread : (tx.readRel w.store r).isSome = true) : r < w.store.nextRel := by
  unfold readRel at hread
  cases hlook : tx.relWrites.lookup r with
  | some v => exact h.relsKnown r v hlook
  | none =>
    rw [hlook, getD_none] at hread
    exact hok.rels _ h.snapshot r hread

theorem lt_nextNode_of_readNode (hok : Ok w) (h : TxnOk w id tx)
    (hread : (tx.readNode w.store n).isSome = true) : n < w.store.nextNode := by
  unfold readNode at hread
  cases hlook : tx.nodeWrites.lookup n with
  | some v => exact h.nodesKnown n v hlook
  | none =>
    rw [hlook, getD_none] at hread
    exact hok.nodes _ h.snapshot n hread

namespace TxnOk

theorem tombstones (hok : Ok w) (h : TxnOk w id tx) (htomb : Tombstones w.store tx tx') :
    TxnOk w id tx' where
  snapshot := htomb.snapshot ▸ h.snapshot
  nodesKnown := htomb.nodeWrites ▸ h.nodesKnown
  relsKnown r v hv := by
    rcases htomb.rels r with heq | ⟨-, hread⟩
    · exact h.relsKnown r v (heq ▸ hv)
    · exact lt_nextRel_of_readRel hok h hread
  staged r rec hrec := by
    rcases htomb.rels r with heq | ⟨hnone, -⟩
    · rw [htomb.snapshot, htomb.pendingTel]
      exact h.staged r rec (heq ▸ hrec)
    · exact absurd (hnone.symm.trans hrec) (by simp)
  pending p hp := by
    rw [htomb.pendingTel] at hp
    rcases htomb.rels p.rel with heq | ⟨hnone, -⟩
    · rw [heq]
      exact h.pending p hp
    · exact ⟨none, hnone, fun _ hrec => by cases hrec⟩
  created p hp rec hrec n hn := by
    rw [htomb.pendingTel] at hp
    rcases htomb.rels p.rel with heq | ⟨hnone, -⟩
    · obtain ⟨hstays, hguarded⟩ := h.created p hp rec (heq ▸ hrec) n hn
      refine ⟨?_, hguarded⟩
      unfold Stays at hstays ⊢
      rwa [htomb.nodeWrites]
    · exact absurd (hnone.symm.trans hrec) (by simp)
  deleted n hn r rec hrec htouch := by
    rcases htomb.rels r with heq | ⟨hnone, -⟩
    · rw [heq]
      exact h.deleted n (htomb.nodeWrites ▸ hn) r rec hrec htouch
    · exact hnone

theorem writeNode (h : TxnOk w id tx) {v : Option B} (hn : n < w.store.nextNode)
    (hgone : v = none → (∀ p ∈ tx.pendingTel, ∀ rec,
        tx.relWrites.lookup p.rel = some (some rec) → ¬rec.Touches n) ∧
      ∀ r rec, (w.store.states w.store.head).rel r = some rec → rec.Touches n →
        tx.relWrites.lookup r = some none) : TxnOk w id (tx.writeNode n v) where
  snapshot := h.snapshot
  nodesKnown n' u hu := by
    rcases of_lookup_cons hu with ⟨rfl, -⟩ | ⟨-, hu⟩
    · exact hn
    · exact h.nodesKnown n' u hu
  relsKnown := h.relsKnown
  staged := h.staged
  pending := h.pending
  created p hp rec hrec n' hn' := by
    obtain ⟨hstays, hguarded⟩ := h.created p hp rec hrec n' hn'
    refine ⟨?_, hguarded⟩
    by_cases heq : n' = n
    · subst heq
      cases v with
      | none => exact absurd hn' ((hgone rfl).1 p hp rec hrec)
      | some b => exact .inl ⟨b, lookup_cons_self ..⟩
    · unfold Stays at hstays ⊢
      rwa [Transaction.writeNode, lookup_cons_ne _ _ heq]
  deleted n' hn' r rec hrec htouch := by
    rcases of_lookup_cons hn' with ⟨rfl, hnone⟩ | ⟨-, hn'⟩
    · exact (hgone hnone).2 r rec hrec htouch
    · exact h.deleted n' hn' r rec hrec htouch

theorem not_touches (h : TxnOk w id tx) {p : PendingTelAppend} (hp : p ∈ tx.pendingTel)
    (hcreated : (tx.readRel w.store p.rel).isSome = true → p.src ≠ n ∧ p.dst ≠ n)
    (hrec : tx.relWrites.lookup p.rel = some (some rec)) : ¬rec.Touches n := by
  obtain ⟨v, hv, hends⟩ := h.pending p hp
  obtain ⟨hsrc, hdst⟩ := hends rec (some.inj (hv.symm.trans hrec))
  obtain ⟨hne, hne'⟩ := hcreated (by rw [readRel, hrec]; rfl)
  rintro (heq | heq)
  · exact hne (hsrc.symm.trans heq)
  · exact hne' (hdst.symm.trans heq)

theorem setRel (hok : Ok w) (h : TxnOk w id tx) {b : B} (hread : tx.readRel w.store r = some rec) :
    TxnOk w id (tx.writeRel r (some { rec with props := b })) where
  snapshot := h.snapshot
  nodesKnown := h.nodesKnown
  relsKnown r' v hv := by
    rcases of_lookup_cons hv with ⟨rfl, -⟩ | ⟨-, hv⟩
    · exact lt_nextRel_of_readRel hok h (by rw [hread]; rfl)
    · exact h.relsKnown r' v hv
  staged r' rec' hrec' := by
    rcases of_lookup_cons hrec' with ⟨rfl, heq⟩ | ⟨-, hrec'⟩
    · cases heq
      unfold readRel at hread
      cases hlook : tx.relWrites.lookup r' with
      | none =>
        rw [hlook, getD_none] at hread
        exact .inr ⟨rec, hread, rfl, rfl⟩
      | some =>
        rw [hlook, getD_some] at hread
        exact h.staged r' rec (hlook.trans (congrArg some hread))
    · exact h.staged r' rec' hrec'
  pending p hp := by
    obtain ⟨v, hv, hends⟩ := h.pending p hp
    by_cases heq : p.rel = r
    · refine ⟨some { rec with props := b }, by rw [heq]; exact lookup_cons_self .., ?_⟩
      rintro rec' ⟨⟩
      unfold readRel at hread
      rw [← heq, hv, getD_some] at hread
      exact hends rec hread
    · exact ⟨v, (lookup_cons_ne _ _ heq).trans hv, hends⟩
  created p hp rec' hrec' n hn := by
    rcases of_lookup_cons hrec' with ⟨rfl, heq⟩ | ⟨-, hrec'⟩
    · cases heq
      obtain ⟨v, hv, -⟩ := h.pending p hp
      have hlook : tx.relWrites.lookup p.rel = some (some rec) := by
        unfold readRel at hread
        rw [hv, getD_some] at hread
        rw [hv, hread]
      exact h.created p hp rec hlook n hn
    · exact h.created p hp rec' hrec' n hn
  deleted n hn r' rec' hrec' htouch := by
    have hgone := h.deleted n hn r' rec' hrec' htouch
    by_cases heq : r' = r
    · -- a relationship that the transaction has deleted cannot be read
      subst heq
      unfold readRel at hread
      rw [hgone, getD_some] at hread
      cases hread
    · exact (lookup_cons_ne _ _ heq).trans hgone

theorem of_store (h : TxnOk w id tx) (hhead : w'.store.head = w.store.head)
    (hstates : w'.store.states = w.store.states) (hnode : w.store.nextNode ≤ w'.store.nextNode)
    (hrel : w.store.nextRel ≤ w'.store.nextRel)
    (hguard : ∀ p ∈ tx.pendingTel, ∀ rec, tx.relWrites.lookup p.rel = some (some rec) →
      ∀ n, rec.Touches n → Guarded w id n → Guarded w' id n) : TxnOk w' id tx where
  snapshot := hhead ▸ h.snapshot
  nodesKnown n v hv := Nat.lt_of_lt_of_le (h.nodesKnown n v hv) hnode
  relsKnown r v hv := Nat.lt_of_lt_of_le (h.relsKnown r v hv) hrel
  staged := by
    rw [hstates]
    exact h.staged
  pending := h.pending
  created p hp rec hrec n hn := by
    obtain ⟨hstays, hguarded⟩ := h.created p hp rec hrec n hn
    refine ⟨?_, hguard p hp rec hrec n hn hguarded⟩
    unfold Stays at hstays ⊢
    rwa [hhead, hstates]
  deleted := by
    rw [hhead, hstates]
    exact h.deleted

theorem createRel (hok : Ok w) (h : TxnOk w id tx) {src dst : NodeId} {props : B}
    (hends : ∀ n, n = src ∨ n = dst → Stays w tx n ∧ Guarded w id n) :
    TxnOk { w with store := { w.store with nextRel := w.store.nextRel + 1 } } id
      { tx.writeRel w.store.nextRel (some ⟨src, dst, props⟩) with
        pendingTel := tx.pendingTel ++ [⟨src, dst, w.store.nextRel⟩] } where
  snapshot := h.snapshot
  nodesKnown := h.nodesKnown
  relsKnown r v hv := by
    rcases of_lookup_cons hv with ⟨rfl, -⟩ | ⟨-, hv⟩
    · exact Nat.lt_succ_self _
    · exact Nat.lt_succ_of_lt (h.relsKnown r v hv)
  staged r rec hrec := by
    rcases of_lookup_cons hrec with ⟨rfl, heq⟩ | ⟨-, hrec⟩
    · cases heq
      exact .inl (mem_append_right _ (mem_singleton.mpr rfl))
    · rcases h.staged r rec hrec with hp | hold
      · exact .inl (mem_append_left _ hp)
      · exact .inr hold
  pending p hp := by
    rcases mem_append.mp hp with hp | hp
    · obtain ⟨v, hv, hsame⟩ := h.pending p hp
      have hne : p.rel ≠ w.store.nextRel := Nat.ne_of_lt (h.relsKnown p.rel v hv)
      exact ⟨v, (lookup_cons_ne _ _ hne).trans hv, hsame⟩
    · obtain rfl := mem_singleton.mp hp
      refine ⟨some ⟨src, dst, props⟩, lookup_cons_self .., ?_⟩
      rintro rec ⟨⟩
      exact ⟨rfl, rfl⟩
  created p hp rec hrec n hn := by
    rcases mem_append.mp hp with hp | hp
    · obtain ⟨v, hv, -⟩ := h.pending p hp
      have hne : p.rel ≠ w.store.nextRel := Nat.ne_of_lt (h.relsKnown p.rel v hv)
      exact h.created p hp rec ((lookup_cons_ne _ _ hne).symm.trans hrec) n hn
    · obtain rfl := mem_singleton.mp hp
      obtain rfl : ⟨src, dst, props⟩ = rec :=
        some.inj (some.inj ((lookup_cons_self ..).symm.trans hrec))
      exact hends n (hn.imp .symm .symm)
  deleted n hn r rec hrec htouch := by
    have hlt : r < w.store.nextRel := hok.rels _ le_rfl r (by
      show ((w.store.states w.store.head).rel r).isSome = true
      rw [show (w.store.states w.store.head).rel r = some rec from hrec]
      rfl)
    exact (lookup_cons_ne _ _ (Nat.ne_of_lt hlt)).trans (h.deleted n hn r rec hrec htouch)

end TxnOk

theorem Ok.of_store (hok : Ok w) (hhead : w'.store.head = w.store.head)
    (hstates : w'.store.states = w.store.states) (hstamp : w'.store.relStamp = w.store.relStamp)
    (hnode : w.store.nextNode ≤ w'.store.nextNode) (hrel : w.store.nextRel ≤ w'.store.nextRel)
    (htxns : ∀ id tx, Active w' id tx → TxnOk w' id tx) : Ok w' where
  closed := by
    rw [hhead, hstates]
    exact hok.closed
  stamped := by
    rw [hhead, hstates, hstamp]
    exact hok.stamped
  nodes := by
    rw [hhead, hstates]
    exact fun lsn hlsn n hn => Nat.lt_of_lt_of_le (hok.nodes lsn hlsn n hn) hnode
  rels := by
    rw [hhead, hstates]
    exact fun lsn hlsn r hr => Nat.lt_of_lt_of_le (hok.rels lsn hlsn r hr) hrel
  txns := htxns

/-- A call of one transaction: the others are untouched unless it deletes a node that one of
them has linked. -/
theorem Ok.call (hok : Ok w) (hactive : Active w id tx)
    (hhead : store'.head = w.store.head) (hstates : store'.states = w.store.states)
    (hstamp : store'.relStamp = w.store.relStamp) (hnode : w.store.nextNode ≤ store'.nextNode)
    (hrel : w.store.nextRel ≤ store'.nextRel) (htx : TxnOk { w with store := store' } id tx')
    (hdel : ∀ n, tx'.nodeWrites.lookup n = some none → tx.nodeWrites.lookup n = some none ∨
      ∀ id' tx2, Active w id' tx2 → ∀ p ∈ tx2.pendingTel, ∀ rec,
        tx2.relWrites.lookup p.rel = some (some rec) → ¬rec.Touches n) :
    Ok ({ w with store := store' }.setSession id (some (.active tx'))) := by
  refine hok.of_store hhead hstates hstamp hnode hrel fun id2 tx2 hactive2 => ?_
  rcases of_active_setSession hactive2 with ⟨rfl, ⟨⟩⟩ | ⟨-, hbefore⟩
  · refine htx.of_store rfl rfl le_rfl le_rfl fun p _ rec _ n _ hg => ?_
    intro id' tx'' hne h''
    exact hg id' tx'' hne ((active_setSession_ne hne).mp h'')
  · refine (hok.txns id2 tx2 hbefore).of_store hhead hstates hnode hrel ?_
    intro p hp rec hrec n hn hg id' tx'' hne h''
    rcases of_active_setSession h'' with ⟨rfl, ⟨⟩⟩ | ⟨-, hold⟩
    · intro hgone
      rcases hdel n hgone with hold | hfree
      · exact hg id' tx hne hactive hold
      · exact hfree id2 tx2 hbefore p hp rec hrec hn
    · exact hg id' tx'' hne hold

theorem mem_attached (h : Enumerable w tx n)
    (hrec : (w.store.states w.store.head).rel r = some rec) (htouch : rec.Touches n)
    (hlook : tx.relWrites.lookup r ≠ some none) : r ∈ tx.attached w.store n := by
  obtain ⟨hseen, e, he, rfl, hsrc, hdst, hlsn⟩ := h.seen r rec hrec htouch
  have hread : (tx.readRel w.store e.rel).isSome = true := by
    unfold readRel
    cases hv : tx.relWrites.lookup e.rel with
    | none => exact hseen
    | some v =>
      cases v with
      | none => exact absurd hv hlook
      | some => rfl
  have hvisible : ∀ entries : List TelEntry, e ∈ entries →
      e.rel ∈ tx.visibleRels w.store entries := by
    intro entries hmem
    unfold visibleRels
    exact mem_map_of_mem (mem_filter.mpr ⟨hmem, by simpa using ⟨hlsn, hread⟩⟩)
  unfold attached
  apply mem_union_iff.mpr
  rcases htouch with heq | heq
  · exact .inl (hvisible _ (mem_filter.mpr ⟨he, by simpa using hsrc.trans heq⟩))
  · exact .inr (hvisible _ (mem_filter.mpr ⟨he, by simpa using hdst.trans heq⟩))

theorem stays_of_readNode (hread : (tx.readNode w.store n).isSome = true)
    (hcurrent : Current w tx n) : Stays w tx n := by
  unfold readNode at hread
  cases hlook : tx.nodeWrites.lookup n with
  | none => exact .inr ⟨hlook, hcurrent hlook⟩
  | some v =>
    cases v with
    | none =>
      rw [hlook] at hread
      cases hread
    | some b => exact .inl ⟨b, hlook⟩

theorem ok_deleteNode (hok : Ok w) (hactive : Active w id tx) {detach : Bool}
    (henum : Enumerable w tx n) :
    Ok (w.setSession id (some (.active (tx.deleteNode w.store n detach).2))) := by
  have htx := hok.txns id tx hactive
  obtain ⟨tx1, htomb, hcases⟩ := @deleteNode_cases B w.store tx n detach
  have htx1 := htx.tombstones hok htomb
  rcases hcases with hsame | ⟨hdone, hread, hall⟩
  · rw [hsame]
    refine hok.call hactive rfl rfl rfl le_rfl le_rfl htx1 fun n' hn' => ?_
    rw [htomb.nodeWrites] at hn'
    exact .inl hn'
  · have hcreated : ∀ p ∈ tx1.pendingTel, (tx1.readRel w.store p.rel).isSome = true →
        p.src ≠ n ∧ p.dst ≠ n := by
      intro p hp hlive
      rw [htomb.pendingTel] at hp
      refine henum.created id tx hactive p hp ?_
      rcases htomb.rels p.rel with heq | ⟨-, hbefore⟩
      · unfold readRel at hlive ⊢
        rwa [heq, htomb.snapshot] at hlive
      · exact hbefore
    have hgone : ∀ r rec, (w.store.states w.store.head).rel r = some rec → rec.Touches n →
        tx1.relWrites.lookup r = some none := by
      intro r rec hrec htouch
      by_cases hlook : tx.relWrites.lookup r = some none
      · rcases htomb.rels r with heq | ⟨h, -⟩
        · rw [heq, hlook]
        · exact h
      · exact hall r (mem_attached henum hrec htouch hlook)
    rw [hdone]
    have hdeleted := htx1.writeNode (lt_nextNode_of_readNode hok htx1 hread) (v := none) fun _ =>
      ⟨fun p hp rec hrec => htx1.not_touches hp (hcreated p hp) hrec, hgone⟩
    refine hok.call hactive rfl rfl rfl le_rfl le_rfl hdeleted fun n' hn' => ?_
    rcases of_lookup_cons hn' with ⟨rfl, -⟩ | ⟨-, hold⟩
    · -- nobody has a new relationship of the node
      exact .inr fun id' tx2 hactive2 p hp rec hrec =>
        (hok.txns id' tx2 hactive2).not_touches hp (henum.created id' tx2 hactive2 p hp) hrec
    · rw [htomb.nodeWrites] at hold
      exact .inl hold

theorem ok_call {c : WriteCall B} (hok : Ok w) (hactive : Active w id tx)
    (hapart : Apart w (.call id c)) : Ok (w.call id tx c) := by
  have htx := hok.txns id tx hactive
  cases c with
  | createNode =>
    have hgrown : TxnOk { w with store := { w.store with nextNode := w.store.nextNode + 1 } } id
        tx := htx.of_store rfl rfl (Nat.le_succ _) le_rfl fun _ _ _ _ _ _ hg => hg
    refine hok.call hactive rfl rfl rfl (Nat.le_succ _) le_rfl
      (hgrown.writeNode (Nat.lt_succ_self _) fun h => by cases h) fun n hn => ?_
    rcases of_lookup_cons hn with ⟨-, hsome⟩ | ⟨-, hn⟩
    · cases hsome
    · exact .inl hn
  | createRel =>
    obtain ⟨hview, hends⟩ := hapart
    dsimp only [InView] at hview
    rw [show w.sessions id = some (.active tx) from hactive] at hview
    refine hok.call hactive rfl rfl rfl le_rfl (Nat.le_succ _)
      (htx.createRel hok fun n hn => ?_) fun n hn => .inl hn
    obtain ⟨hcurrent, hguarded⟩ := hends tx hactive n hn
    refine ⟨stays_of_readNode ?_ hcurrent, hguarded⟩
    rcases hn with rfl | rfl
    · exact hview.1
    · exact hview.2
  | deleteRel r =>
    have htomb := (@deleteRel_tombstones B w.store tx r).1
    refine hok.call hactive rfl rfl rfl le_rfl le_rfl
      (htx.tombstones hok htomb) fun n hn => .inl ?_
    have hn : (tx.deleteRel w.store r).2.nodeWrites.lookup n = some none := hn
    rwa [htomb.nodeWrites] at hn
  | deleteNode => exact ok_deleteNode hok hactive (hapart tx hactive)
  | setNode n mutation =>
    have hset : TxnOk w id (tx.setNode w.store n mutation).2 ∧
        ∀ n', (tx.setNode w.store n mutation).2.nodeWrites.lookup n' = some none →
          tx.nodeWrites.lookup n' = some none := by
      unfold setNode
      cases hread : tx.readNode w.store n with
      | none => exact ⟨htx, fun _ h => h⟩
      | some =>
        refine ⟨htx.writeNode (lt_nextNode_of_readNode hok htx (by rw [hread]; rfl))
          (fun h => by cases h), ?_⟩
        intro n' hn'
        rcases of_lookup_cons hn' with ⟨-, hsome⟩ | ⟨-, hn'⟩
        · cases hsome
        · exact hn'
    exact hok.call hactive rfl rfl rfl le_rfl le_rfl hset.1
      fun n' hn' => .inl (hset.2 n' hn')
  | setRel r mutation =>
    have hset : TxnOk w id (tx.setRel w.store r mutation).2 ∧
        (tx.setRel w.store r mutation).2.nodeWrites = tx.nodeWrites := by
      unfold setRel
      cases hread : tx.readRel w.store r with
      | none => exact ⟨htx, rfl⟩
      | some => exact ⟨htx.setRel hok hread, rfl⟩
    refine hok.call hactive rfl rfl rfl le_rfl le_rfl hset.1
      fun n hn => .inl ?_
    have hn : (tx.setRel w.store r mutation).2.nodeWrites.lookup n = some none := hn
    rwa [hset.2] at hn

end

/-! ## Commits -/

section
variable {w : World B} {id : TxnId} {tx : Transaction B}

variable {r : RelId} {n : NodeId}

theorem relStamp_le_of_not_conflicts (h : w.store.conflicts tx = false) {v : Option (RelRecord B)}
    (hv : tx.relWrites.lookup r = some v) : w.store.relStamp r ≤ tx.snapshot := by
  obtain ⟨_, _, hl, -⟩ := lookup_eq_some_iff.mp hv
  have hmem : (r, v) ∈ tx.relWrites := by simp [hl]
  simp only [CrudStore.conflicts, Bool.or_eq_false_iff, List.any_eq_false, decide_eq_true_eq,
    Nat.not_lt] at h
  exact h.2 _ hmem

theorem TxnOk.committed (hok : Ok w) (h : TxnOk w id tx) (hfirst : w.store.conflicts tx = false)
    (hrec : tx.relWrites.lookup r = some (some rec)) : ⟨rec.src, rec.dst, r⟩ ∈ tx.pendingTel ∨
      ∃ old, (w.store.states w.store.head).rel r = some old ∧ old.src = rec.src ∧
        old.dst = rec.dst := by
  rcases h.staged r rec hrec with hp | ⟨old, hold, hends⟩
  · exact .inl hp
  · refine .inr ⟨old, ?_, hends⟩
    rw [hok.stamped _ h.snapshot r (relStamp_le_of_not_conflicts hfirst hrec), hold]

theorem touches_congr {rec' : RelRecord B} (hsrc : rec'.src = rec.src)
    (hdst : rec'.dst = rec.dst) (h : rec.Touches n) : rec'.Touches n :=
  h.imp hsrc.trans hdst.trans

theorem installed_node_of_ne (hne : tx.nodeWrites.lookup n ≠ some none)
    (hlive : ((w.store.states w.store.head).node n).isSome = true) :
    ((w.store.installed tx).node n).isSome = true := by
  show ((tx.nodeWrites.lookup n).getD ((w.store.states w.store.head).node n)).isSome = true
  cases hlook : tx.nodeWrites.lookup n with
  | none => exact hlive
  | some v =>
    cases v with
    | none => exact absurd hlook hne
    | some => rfl

theorem installed_node_of_stays (h : Stays w tx n) :
    ((w.store.installed tx).node n).isSome = true := by
  show ((tx.nodeWrites.lookup n).getD ((w.store.states w.store.head).node n)).isSome = true
  rcases h with ⟨b, hb⟩ | ⟨hnone, hlive⟩
  · rw [hb]
    rfl
  · rw [hnone]
    exact hlive

/-- The relationships of the installed state are those the transaction has created, and those
of the newest state that it has not deleted. -/
theorem installed_rel_cases (hok : Ok w) (h : TxnOk w id tx) (hfirst : w.store.conflicts tx = false)
    (hrec : (w.store.installed tx).rel r = some rec) :
    (⟨rec.src, rec.dst, r⟩ ∈ tx.pendingTel ∧ tx.relWrites.lookup r = some (some rec)) ∨
      tx.relWrites.lookup r ≠ some none ∧ ∃ old, (w.store.states w.store.head).rel r = some old ∧
        old.src = rec.src ∧ old.dst = rec.dst := by
  have hrec : (tx.relWrites.lookup r).getD ((w.store.states w.store.head).rel r) = some rec := hrec
  cases hlook : tx.relWrites.lookup r with
  | none =>
    rw [hlook] at hrec
    exact .inr ⟨by simp, rec, hrec, rfl, rfl⟩
  | some =>
    rw [hlook, getD_some] at hrec
    subst hrec
    rcases h.committed hok hfirst hlook with hp | hold
    · exact .inl ⟨hp, rfl⟩
    · exact .inr ⟨by simp, hold⟩

/-- The state that a commit produces has both ends of every relationship. -/
theorem closed_installed (hok : Ok w) (h : TxnOk w id tx)
    (hfirst : w.store.conflicts tx = false) : (w.store.installed tx).Closed := by
  intro r rec hrec n htouch
  rcases installed_rel_cases hok h hfirst hrec with ⟨hp, hlook⟩ | ⟨hkept, old, hold, hsrc, hdst⟩
  · exact installed_node_of_stays (h.created _ hp rec hlook n htouch).1
  · have htouch' := touches_congr hsrc hdst htouch
    refine installed_node_of_ne ?_ (hok.closed _ le_rfl r old hold n htouch')
    intro hdel
    exact hkept (h.deleted n hdel r old hold htouch')

theorem TxnOk.after_commit {id' : TxnId} {tx' : Transaction B} (hok : Ok w)
    (hactive : Active w id tx) (hfirst : w.store.conflicts tx = false) (hne : id' ≠ id)
    (hactive' : Active w id' tx') (hs : ∀ tx2, s ≠ some (.active tx2)) :
    TxnOk ({ w with store := w.store.install tx }.setSession id s) id' tx' := by
  have htx := hok.txns id tx hactive
  have h := hok.txns id' tx' hactive'
  have hguard : ∀ n, Guarded w id' n →
      Guarded ({ w with store := w.store.install tx }.setSession id s) id' n := by
    intro n hg id'' tx'' hne'' h''
    rcases of_active_setSession h'' with ⟨-, heq⟩ | ⟨-, hold⟩
    · exact absurd heq (hs tx'')
    · exact hg id'' tx'' hne'' hold
  refine ⟨Nat.le_succ_of_le h.snapshot, h.nodesKnown, h.relsKnown, ?_, h.pending, ?_, ?_⟩
  · intro r rec hrec
    rcases h.staged r rec hrec with hp | ⟨old, hold, hends⟩
    · exact .inl hp
    · refine .inr ⟨old, ?_, hends⟩
      show ((w.store.install tx).states tx'.snapshot).rel r = some old
      rw [states_install_of_le h.snapshot, hold]
  · intro p hp rec hrec n hn
    obtain ⟨hstays, hguarded⟩ := h.created p hp rec hrec n hn
    refine ⟨?_, hguard n hguarded⟩
    rcases hstays with hb | ⟨hnone, hlive⟩
    · exact .inl hb
    · refine .inr ⟨hnone, ?_⟩
      show (((w.store.install tx).states (w.store.install tx).head).node n).isSome = true
      rw [states_install_head]
      exact installed_node_of_ne (hguarded id tx hne.symm hactive) hlive
  · intro n hn r rec hrec htouch
    have hrec : ((w.store.install tx).states (w.store.install tx).head).rel r = some rec := hrec
    rw [states_install_head] at hrec
    rcases installed_rel_cases hok htx hfirst hrec with ⟨hp, hlook⟩ | ⟨-, old, hold, hsrc, hdst⟩
    · exact absurd hn ((htx.created _ hp rec hlook n htouch).2 id' tx' hne hactive')
    · exact h.deleted n hn r old hold (touches_congr hsrc hdst htouch)

theorem ok_install (hok : Ok w) (hactive : Active w id tx) (hfirst : w.store.conflicts tx = false)
    (hs : ∀ tx2, s ≠ some (.active tx2)) :
    Ok ({ w with store := w.store.install tx }.setSession id s) where
  closed lsn hlsn := by
    show ((w.store.install tx).states lsn).Closed
    rcases states_install hlsn with ⟨hle, hstate⟩ | ⟨-, hstate⟩ <;> rw [hstate]
    · exact hok.closed lsn hle
    · exact closed_installed hok (hok.txns id tx hactive) hfirst
  stamped lsn hlsn r hstamp := by
    show ((w.store.install tx).states (w.store.install tx).head).rel r =
      ((w.store.install tx).states lsn).rel r
    rcases states_install hlsn with ⟨hle, hstate⟩ | ⟨rfl, -⟩
    · -- a key the transaction has not written
      have hstamp : (if (tx.relWrites.lookup r).isSome then w.store.head + 1
          else w.store.relStamp r) ≤ lsn := hstamp
      split at hstamp
      · exact absurd (Nat.lt_of_lt_of_le (Nat.lt_succ_of_le hle) hstamp) (Nat.lt_irrefl _)
      · rename_i hnone
        rw [states_install_head, hstate, ← hok.stamped lsn hle r hstamp]
        show (tx.relWrites.lookup r).getD _ = _
        rw [not_isSome_iff_eq_none.mp hnone, getD_none]
    · rfl
  nodes lsn hlsn n hn := by
    have hn : (((w.store.install tx).states lsn).node n).isSome = true := hn
    rcases states_install hlsn with ⟨hle, hstate⟩ | ⟨-, hstate⟩ <;> rw [hstate] at hn
    · exact hok.nodes lsn hle n hn
    · have hn : ((tx.nodeWrites.lookup n).getD
          ((w.store.states w.store.head).node n)).isSome = true := hn
      cases hlook : tx.nodeWrites.lookup n with
      | some v => exact (hok.txns id tx hactive).nodesKnown n v hlook
      | none =>
        rw [hlook] at hn
        exact hok.nodes _ le_rfl n hn
  rels lsn hlsn r hr := by
    have hr : (((w.store.install tx).states lsn).rel r).isSome = true := hr
    rcases states_install hlsn with ⟨hle, hstate⟩ | ⟨-, hstate⟩ <;> rw [hstate] at hr
    · exact hok.rels lsn hle r hr
    · have hr : ((tx.relWrites.lookup r).getD
          ((w.store.states w.store.head).rel r)).isSome = true := hr
      cases hlook : tx.relWrites.lookup r with
      | some v => exact (hok.txns id tx hactive).relsKnown r v hlook
      | none =>
        rw [hlook] at hr
        exact hok.rels _ le_rfl r hr
  txns id' tx' hactive' := by
    rcases of_active_setSession hactive' with ⟨-, heq⟩ | ⟨hne, hold⟩
    · exact absurd heq (hs tx')
    · exact .after_commit hok hactive hfirst hne hold hs

end

/-! ## Runs -/

section
variable {w w' : World B} {id : TxnId}

theorem Ok.frame (hok : Ok w) (hhead : w'.store.head = w.store.head)
    (hstates : w'.store.states = w.store.states) (hstamp : w'.store.relStamp = w.store.relStamp)
    (hnode : w'.store.nextNode = w.store.nextNode) (hrel : w'.store.nextRel = w.store.nextRel)
    (hactive : ∀ id tx, Active w' id tx → Active w id tx ∨ tx = { snapshot := w.store.head }) :
    Ok w' := by
  have hnode := Nat.le_of_eq hnode.symm
  have hrel := Nat.le_of_eq hrel.symm
  refine hok.of_store hhead hstates hstamp hnode hrel fun id tx h => ?_
  rcases hactive id tx h with h | rfl
  · refine (hok.txns id tx h).of_store hhead hstates hnode hrel ?_
    intro p _ rec _ n _ hg id' tx' hne h'
    rcases hactive id' tx' h' with h' | rfl
    · exact hg id' tx' hne h'
    · exact fun hlook => by cases hlook
  · exact {
      snapshot := Nat.le_of_eq hhead.symm
      nodesKnown := fun _ _ h => by cases h
      relsKnown := fun _ _ h => by cases h
      staged := fun _ _ h => by cases h
      pending := fun _ h => absurd h not_mem_nil
      created := fun _ h => absurd h not_mem_nil
      deleted := fun _ h => by cases h }

theorem active_of_setSession_inactive
    (hs : ∀ tx, s ≠ some (.active tx)) (id' : TxnId) (tx : Transaction B)
    (h : Active ({ w with store := store' }.setSession id s) id' tx) :
    Active w id' tx ∨ tx = { snapshot := w.store.head } := by
  exact .inl ((of_active_setSession h).resolve_left fun heq => hs tx heq.2).2

theorem ok_step {a : Action B} (hok : Ok w) (hapart : Apart w a) (hstep : step w a = some w') :
    Ok w' := by
  cases a with simp only [step] at hstep
  | begin id =>
    split at hstep
    · rw [← some.inj hstep]
      refine hok.frame rfl rfl rfl rfl rfl fun id' tx h => ?_
      rcases of_active_setSession h with ⟨-, ⟨⟩⟩ | ⟨-, hold⟩
      · exact .inr rfl
      · exact .inl hold
    · cases hstep
  | call =>
    split at hstep
    · rename_i tx hactive
      rw [← some.inj hstep]
      exact ok_call hok hactive hapart
    · cases hstep
  | commit =>
    split at hstep
    · rename_i tx hactive
      rw [← some.inj hstep]
      unfold World.commit
      split
      · exact hok.frame rfl rfl rfl rfl rfl
          (active_of_setSession_inactive fun _ h => by cases h)
      · rename_i hfirst
        exact ok_install hok hactive (by simpa using hfirst) fun _ h => by cases h
    · cases hstep
  | append =>
    split at hstep
    · rename_i createdLsn pending hsession
      rw [← some.inj hstep]
      cases pending with
      | nil | cons =>
        exact hok.frame rfl rfl rfl rfl rfl
          (active_of_setSession_inactive fun _ h => by cases h)
    · cases hstep
  | abort =>
    split at hstep
    · rw [← some.inj hstep]
      exact hok.frame rfl rfl rfl rfl rfl
        (active_of_setSession_inactive fun _ h => by cases h)
    · cases hstep

theorem ok_of_reach (h : System.Reach (system B) Apart w) : Ok w :=
  h.invariant ok_init fun _ _ _ hok hapart hstep => ok_step hok hapart hstep

end

/-- In every run whose transactions keep apart every committed state has both ends of its
relationships, and the commit of a transaction that has deleted a node produces a state
without relationships of that node. -/
theorem no_dangling_of_apart (w : World B) (h : System.Reach (system B) Apart w) :
    (∀ lsn ≤ w.store.head, (w.store.states lsn).Closed) ∧
    ∀ id tx, Active w id tx → w.store.conflicts tx = false → ∀ n,
      tx.nodeWrites.lookup n = some none → ∀ r rec,
        (w.store.installed tx).rel r = some rec → ¬rec.Touches n := by
  have hok := ok_of_reach h
  refine ⟨hok.closed, fun id tx hactive hfirst n hdel r rec hrec htouch => ?_⟩
  have hlive := closed_installed hok (hok.txns id tx hactive) hfirst r rec hrec n htouch
  have hdead : (w.store.installed tx).node n = none := by
    show (tx.nodeWrites.lookup n).getD _ = none
    rw [hdel, getD_some]
  rw [hdead] at hlive
  cases hlive

def twoNodes : World Unit :=
  ({} : World Unit).setSession 0 (some (.active { snapshot := 0 }))
    |>.call 0 { snapshot := 0 } (.createNode ())
    |>.call 0 { snapshot := 0, nodeWrites := [(0, some ())] } (.createNode ())

theorem apart_twoNodes : Apart twoNodes (.call 0 (.createRel 0 1 ())) := by
  refine ⟨⟨rfl, rfl⟩, fun tx htx n hn => ⟨?_, ?_⟩⟩
  · cases htx
    rcases hn with rfl | rfl <;> exact fun h => by cases h
  · intro id' tx' hne h
    simp only [twoNodes, Active, World.call, World.setSession, Function.update_of_ne hne] at h
    cases h

/-- A transaction that creates two nodes and a relationship between them, and commits. -/
theorem no_dangling_of_apart_ownNodes : ∃ w : World Unit, System.Reach (system Unit) Apart w ∧
    ((w.store.states 1).rel 0).isSome = true ∧ (w.store.states 1).Closed := by
  have hbegin : System.Reach (system Unit) Apart _ :=
    .step (a := .begin 0) .init trivial rfl
  have hfirst : System.Reach (system Unit) Apart _ :=
    .step (a := .call 0 (.createNode ())) hbegin trivial rfl
  have hsecond : System.Reach (system Unit) Apart twoNodes :=
    .step (a := .call 0 (.createNode ())) hfirst trivial rfl
  have hlinked : System.Reach (system Unit) Apart _ := .step hsecond apart_twoNodes rfl
  have hcommitted : System.Reach (system Unit) Apart _ :=
    .step (a := .commit 0) hlinked trivial rfl
  exact ⟨_, hcommitted, rfl, (no_dangling_of_apart _ hcommitted).1 1 (Nat.le_refl 1)⟩

def unlinked : List (Action Unit) :=
  [.begin 0, .call 0 (.createNode ()), .call 0 (.createNode ()), .commit 0, .append 0]

def concurrent : List (Action Unit) :=
  unlinked ++ [.begin 1, .begin 2, .call 1 (.createRel 0 1 ()), .call 2 (.deleteNode 1 false),
    .commit 1, .commit 2]

/-- A transaction deletes, without DETACH, the end of a relationship it has just created. -/
def ownRelationship : List (Action Unit) :=
  unlinked ++ [.begin 1, .call 1 (.createRel 0 1 ()), .call 1 (.deleteNode 1 false), .commit 1]

theorem relationships_dangle :
    (∃ w : World Unit, System.Reach (system Unit) InView w ∧ w.store.head = 3 ∧
      ((w.store.states 3).rel 0).isSome = true ∧ (w.store.states 3).node 1 = none) ∧
    ∃ w : World Unit, System.Reach (system Unit) InView w ∧ w.store.head = 2 ∧
      ((w.store.states 2).rel 0).isSome = true ∧ (w.store.states 2).node 1 = none :=
  ⟨⟨(system Unit).after InView concurrent, .after (by decide +kernel),
      by decide +kernel, by decide +kernel, by decide +kernel⟩,
    ⟨(system Unit).after InView ownRelationship, .after (by decide +kernel),
      by decide +kernel, by decide +kernel, by decide +kernel⟩⟩

end ArcGraph.Graph
