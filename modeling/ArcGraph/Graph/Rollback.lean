import ArcGraph.Graph.Store
import ArcGraph.Permissions.Restart

/-!
# Transactions that do not commit

A write call of the substrate stages into the held transaction. A deletion that succeeds then
revokes the grants of the node in the tenant's permission index, at once and outside the
transaction: the comment at the revocation assumes that the deletion has committed, which is
so for a call that commits by itself and not for a call inside a held transaction.

Whatever a transaction that ends without commit has staged, later transactions read as if it
had not run. The principals see what they saw before exactly when no call has deleted a node
that some principal could see (`uncommitted_leaves_no_trace_iff`).

A transaction ends here by a rollback, by a drop or by a commit that is refused before it
installs anything. A commit whose WAL append fails after Phase 1 is not among the endings: it
puts whole record pages back and takes with them what others have written there since, so
that later reads can be stale.

The buffers for vector and text search belong to the held transaction and end with it. The
index is the resident one, with no call of its own running; what its log says after a restart
is not part of it.
-/

namespace ArcGraph.Graph
open Permissions Option Transaction List
variable {B : Type}

def docOf (n : NodeId) : Permissions.NodeId := UInt64.ofNat n

structure Substrate (B : Type) where
  world : World B
  permissions : PermissionIndex

def permissionsAfter (idx : PermissionIndex) : WriteCall B → Option WriteError → PermissionIndex
  | .deleteNode n _, none => idx.revokeDoc (docOf n)
  | _, _ => idx

namespace Substrate

def write (s : Substrate B) (id : TxnId) (c : WriteCall B) : Option (Substrate B) :=
  match s.world.sessions id with
  | some (.active tx) =>
    some ⟨s.world.call id tx c, permissionsAfter s.permissions c (s.world.store.stage tx c).1⟩
  | _ => none

def writes (s : Substrate B) (id : TxnId) : List (WriteCall B) → Option (Substrate B)
  | [] => some s
  | c :: rest => (s.write id c).bind fun s => s.writes id rest

end Substrate

/-- The transaction is rolled back or dropped, or its commit is refused for a conflict, with
nothing installed. -/
def EndsUncommitted (w : World B) (id : TxnId) (w' : World B) : Prop :=
  step w (.abort id) = some w' ∨
    ∃ tx, Active w id tx ∧ w.store.conflicts tx = true ∧ step w (.commit id) = some w'

variable (store : CrudStore B) (tx : Transaction B)

/-- The node is live in the view, and either has no relationships there or may lose them. -/
def Deletable (n : NodeId) (detach : Bool) : Prop :=
  (tx.readNode store n).isSome = true ∧
    (tx.attached store n = [] ∨ detach = true ∧ (tx.attached store n).Nodup)

/-- The call deletes no node that a principal sees. -/
def Unseen (s : Substrate B) (id : TxnId) : WriteCall B → Prop
  | .deleteNode n detach => ∀ tx, Active s.world id tx → Deletable s.world.store tx n detach →
      ∀ p, s.permissions.visible p (docOf n) = false
  | _ => True

def AllUnseen (s : Substrate B) (id : TxnId) : List (WriteCall B) → Prop
  | [] => True
  | c :: rest => Unseen s id c ∧ ∀ s', s.write id c = some s' → AllUnseen s' id rest

/-! ## When a deletion succeeds -/

section
variable {store : CrudStore B} {tx : Transaction B} {r : RelId}

theorem readRel_writeRel_none {r' : RelId} : ((tx.writeRel r none).readRel store r').isSome = true ↔
      r' ≠ r ∧ (tx.readRel store r').isSome = true := by
  unfold readRel writeRel
  by_cases heq : r' = r
  · subst heq
    rw [lookup_cons_self]
    simp
  · rw [lookup_cons_ne _ _ heq]
    simp [heq]

theorem deleteRels_ok_iff (rs : List RelId) : (tx.deleteRels store rs).1 = none ↔
    rs.Nodup ∧ ∀ r ∈ rs, (tx.readRel store r).isSome = true := by
  induction rs generalizing tx with
  | nil => simp [deleteRels]
  | cons r _ ih =>
    unfold deleteRels deleteRel
    cases hread : tx.readRel store r with
    | none =>
      constructor
      · intro h
        cases h
      · intro h
        have hr := h.2 r mem_cons_self
        rw [hread] at hr
        cases hr
    | some =>
      dsimp only
      rw [ih, nodup_cons]
      simp only [readRel_writeRel_none, mem_cons, forall_eq_or_imp, hread]
      constructor
      · rintro ⟨hnodup, hall⟩
        exact ⟨⟨fun hmem => (hall r hmem).1 rfl, hnodup⟩, rfl, fun r' hr' => (hall r' hr').2⟩
      · rintro ⟨⟨hnew, hnodup⟩, -, hall⟩
        exact ⟨hnodup, fun r' hr' => ⟨fun heq => hnew (heq ▸ hr'), hall r' hr'⟩⟩

theorem readRel_of_mem_attached {n : NodeId} (h : r ∈ tx.attached store n) :
    (tx.readRel store r).isSome = true := by
  have hvisible : ∀ {entries : List TelEntry}, r ∈ tx.visibleRels store entries →
      (tx.readRel store r).isSome = true := by
    intro entries hmem
    obtain ⟨e, he, rfl⟩ := mem_map.mp hmem
    have hkept := of_mem_filter he
    simp only [decide_eq_true_eq] at hkept
    exact hkept.2
  rcases mem_union_iff.mp h with h | h
  · exact hvisible h
  · exact hvisible h

theorem deleteNode_ok_iff (n : NodeId) (detach : Bool) :
    (tx.deleteNode store n detach).1 = none ↔ Deletable store tx n detach := by
  unfold deleteNode Deletable
  by_cases hrefused : tx.attached store n ≠ [] ∧ detach = false
  · rw [if_pos hrefused]
    constructor
    · intro h
      cases h
    · rintro ⟨-, hempty | ⟨hdetach, -⟩⟩
      · exact absurd hempty hrefused.1
      · exact absurd (hrefused.2.symm.trans hdetach) (by simp)
  · rw [if_neg hrefused]
    have hrels := @deleteRels_ok_iff B store tx (tx.attached store n)
    have htomb := (@deleteRels_tombstones B store tx (tx.attached store n)).1
    rcases hres : tx.deleteRels store (tx.attached store n) with ⟨e, tx1⟩
    rw [hres] at hrels htomb
    have hnodup : e = none ↔ (tx.attached store n).Nodup := by
      rw [hrels]
      exact and_iff_left fun r hr => readRel_of_mem_attached hr
    have hread : tx1.readNode store n = tx.readNode store n := by
      unfold readNode
      rw [htomb.nodeWrites, htomb.snapshot]
    have hguard : tx.attached store n = [] ∨ detach = true := by
      by_contra hno
      rw [not_or] at hno
      exact hrefused ⟨hno.1, by simpa using hno.2⟩
    cases e with
    | some =>
      constructor
      · intro h
        cases h
      · rintro ⟨-, hempty | ⟨-, hno⟩⟩
        · rw [hempty] at hnodup
          cases hnodup.mpr nodup_nil
        · cases hnodup.mpr hno
    | none =>
      dsimp only
      unfold deleteNodeRecord
      rw [hread]
      cases tx.readNode store n with
      | none => simp
      | some =>
        have hdone := hnodup.mp rfl
        exact iff_of_true rfl ⟨rfl, hguard.imp_right fun h => ⟨h, hdone⟩⟩

end

/-! ## What later transactions read -/

structure SameReads (store store' : CrudStore B) : Prop where
  head : store'.head = store.head
  states : store'.states = store.states
  tel : store'.tel = store.tel

theorem SameReads.trans {a b c : CrudStore B} (h : SameReads a b) (h' : SameReads b c) :
    SameReads a c :=
  ⟨h'.head.trans h.head, h'.states.trans h.states, h'.tel.trans h.tel⟩

theorem sameReads_stage (c : WriteCall B) : SameReads store (store.stage tx c).2.1 := by
  cases c <;> exact ⟨rfl, rfl, rfl⟩

section
variable {store store' : CrudStore B} (h : SameReads store store') (t : Transaction B)

include h

namespace SameReads

theorem readNode (n : NodeId) : t.readNode store' n = t.readNode store n := by
  unfold Transaction.readNode
  rw [h.states]

theorem readRel (r : RelId) : t.readRel store' r = t.readRel store r := by
  unfold Transaction.readRel
  rw [h.states]

theorem visibleRels (entries : List TelEntry) :
    t.visibleRels store' entries = t.visibleRels store entries := by
  unfold Transaction.visibleRels
  simp only [h.readRel t]

theorem scanOut (n : NodeId) : t.scanOut store' n = t.scanOut store n := by
  unfold Transaction.scanOut
  rw [h.tel, h.visibleRels]

theorem scanIn (n : NodeId) : t.scanIn store' n = t.scanIn store n := by
  unfold Transaction.scanIn
  rw [h.tel, h.visibleRels]

end SameReads
end

theorem sameReads_ends {w w' : World B} {id : TxnId} (h : EndsUncommitted w id w') :
    SameReads w.store w'.store := by
  rcases h with hstep | ⟨tx, hactive, hconflict, hstep⟩
  · simp only [step] at hstep
    split at hstep
    · rw [← some.inj hstep]
      exact ⟨rfl, rfl, rfl⟩
    · cases hstep
  · have hactive : w.sessions id = some (.active tx) := hactive
    simp only [step, hactive, World.commit, if_pos hconflict] at hstep
    rw [← some.inj hstep]
    exact ⟨rfl, rfl, rfl⟩

/-! ## What principals see -/

section
variable {s s' : Substrate B} {id : TxnId} {calls : List (WriteCall B)}

theorem visible_revokeDoc {idx : PermissionIndex} (h : IndexOk idx) {doc doc' : Permissions.NodeId}
    {p : Principal} : (idx.revokeDoc doc).visible p doc' = true ↔
      doc' ≠ doc ∧ idx.visible p doc' = true := by
  obtain ⟨hok, hgrants⟩ : IndexOk (idx.revokeDoc doc) ∧
      (idx.revokeDoc doc).grants = Function.update idx.grants doc none := h.revokeDoc
  rw [hok.visible_iff, h.visible_iff, hgrants]
  by_cases heq : doc' = doc
  · subst heq
    simp
  · simp [heq]

/-- One call: the index stays well formed, nobody sees more, and everybody sees the same
exactly when the call deletes nothing that is seen. -/
theorem write_visible {c : WriteCall B} (hidx : IndexOk s.permissions)
    (hwrite : s.write id c = some s') : IndexOk s'.permissions ∧
      (∀ p doc, s'.permissions.visible p doc = true → s.permissions.visible p doc = true) ∧
      ((∀ p doc, s'.permissions.visible p doc = s.permissions.visible p doc) ↔ Unseen s id c) := by
  unfold Substrate.write at hwrite
  split at hwrite
  · rename_i tx hactive
    rw [← some.inj hwrite]
    dsimp only
    cases c with
    | deleteNode n detach =>
      have hok := @deleteNode_ok_iff B s.world.store tx n detach
      have hstage : (s.world.store.stage tx (.deleteNode n detach)).1 =
          (tx.deleteNode s.world.store n detach).1 := rfl
      rw [hstage]
      cases hres : (tx.deleteNode s.world.store n detach).1 with
      | some =>
        refine ⟨hidx, fun _ _ h => h, iff_of_true (fun _ _ => rfl) ?_⟩
        intro tx' hactive' hdel
        obtain rfl : tx = tx' := by
          have h := hactive.symm.trans hactive'
          simpa using h
        exact absurd (hres.symm.trans (hok.mpr hdel)) (by simp)
      | none =>
        refine ⟨hidx.revokeDoc.1, fun p doc h => ((visible_revokeDoc hidx).mp h).2, ?_⟩
        constructor
        · intro hsame tx' _ _ p
          by_contra hseen
          have hseen : s.permissions.visible p (docOf n) = true := by simpa using hseen
          rw [← hsame p (docOf n)] at hseen
          exact ((visible_revokeDoc hidx).mp hseen).1 rfl
        · intro hunseen p doc
          have hnobody := hunseen tx hactive (hok.mp hres) p
          rw [Bool.eq_iff_iff]
          constructor
          · intro h
            exact ((visible_revokeDoc hidx).mp h).2
          · intro h
            refine (visible_revokeDoc hidx).mpr ⟨?_, h⟩
            rintro rfl
            exact absurd (hnobody.symm.trans h) (by simp)
    | _ => exact ⟨hidx, fun _ _ h => h, iff_of_true (fun _ _ => rfl) trivial⟩
  · cases hwrite

theorem writes_visible (hidx : IndexOk s.permissions) (hrun : s.writes id calls = some s') :
    (∀ p doc, s'.permissions.visible p doc = true → s.permissions.visible p doc = true) ∧
      ((∀ p doc, s'.permissions.visible p doc = s.permissions.visible p doc) ↔
        AllUnseen s id calls) := by
  induction calls generalizing s with
  | nil =>
    obtain rfl := some.inj hrun
    exact ⟨fun _ _ h => h, iff_of_true (fun _ _ => rfl) trivial⟩
  | cons _ _ ih =>
    obtain ⟨s1, hwrite, hrest⟩ := bind_eq_some_iff.mp hrun
    obtain ⟨hidx1, hless, hcall⟩ := write_visible hidx hwrite
    obtain ⟨hless', hcalls⟩ := ih hidx1 hrest
    refine ⟨fun p doc h => hless p doc (hless' p doc h), ?_⟩
    constructor
    · -- what is lost is never regained, so nothing was lost on the way
      intro hsame
      have hmiddle : ∀ p doc, s1.permissions.visible p doc = s.permissions.visible p doc := by
        intro p doc
        rw [Bool.eq_iff_iff]
        refine ⟨hless p doc, fun h => hless' p doc ?_⟩
        rw [hsame p doc]
        exact h
      refine ⟨hcall.mp hmiddle, fun s2 hwrite' => ?_⟩
      obtain rfl := some.inj (hwrite.symm.trans hwrite')
      exact hcalls.mp fun p doc => (hsame p doc).trans (hmiddle p doc).symm
    · rintro ⟨hunseen, hall⟩ p doc
      rw [hcalls.mpr (hall s1 hwrite) p doc, hcall.mpr hunseen p doc]

theorem writes_sameReads (hrun : s.writes id calls = some s') :
    SameReads s.world.store s'.world.store := by
  induction calls generalizing s with
  | nil =>
    obtain rfl := some.inj hrun
    exact ⟨rfl, rfl, rfl⟩
  | cons c _ ih =>
    obtain ⟨_, hwrite, hrest⟩ := bind_eq_some_iff.mp hrun
    refine .trans ?_ (ih hrest)
    unfold Substrate.write at hwrite
    split at hwrite
    · rename_i tx hactive
      rw [← some.inj hwrite]
      exact sameReads_stage s.world.store tx c
    · cases hwrite

end

def twoCommitted : World Unit :=
  (system Unit).after (fun _ _ => True)
    [.begin 0, .call 0 (.createNode ()), .call 0 (.createNode ()), .commit 0, .append 0, .begin 1]

def grantedOne : PermissionIndex := (PermissionIndex.new.applyDocAcl (docOf 1) {"alice"}).getD .new

theorem indexOk_grantedOne : IndexOk grantedOne := by
  have hsome : (PermissionIndex.new.applyDocAcl (docOf 1) {"alice"}).isSome = true := by
    decide +kernel
  obtain ⟨_, happly⟩ := isSome_iff_exists.mp hsome
  unfold grantedOne
  rw [happly]
  exact (IndexOk.new.applyDocAcl happly).1

end ArcGraph.Graph
