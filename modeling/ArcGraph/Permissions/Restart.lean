import ArcGraph.Permissions.Snapshots

/-!
# Permissions across a restart

With a durable sink, a call of `apply_doc_acl` or `revoke_doc` first commits its entry to the
log and then changes the resident index. The commit may fail; the call goes on all the
same. After a crash the entries of the log are applied to a fresh index in commit order.

A restart can widen access in two ways. A revoke, or an apply that takes grants away, may
fail to commit, and the older grants come back. And two calls for one document may commit
in one order and change the index in the other. Where neither happens, whatever is
visible after the restart was visible before (`restart_never_widens`).
-/

namespace ArcGraph.Permissions
open Foundation Function Option List Nat PermissionIndex

inductive AclGrantOp
  | apply (doc : NodeId) (g : GrantSet)
  | revoke (doc : NodeId)
deriving DecidableEq

variable (idx : PermissionIndex)

namespace AclGrantOp

def doc : AclGrantOp → NodeId
  | apply doc _ | revoke doc => doc

def result : AclGrantOp → Option GrantSet
  | apply _ g => some g
  | revoke _ => none

def run : AclGrantOp → Option PermissionIndex
  | apply doc g => idx.applyDocAcl doc g
  | revoke doc => some (idx.revokeDoc doc)

end AclGrantOp

/-- Where a call is: before its sink commit, after it, and back. `turn` counts the commits
before its own; only statements read it. -/
inductive AclCall
  | started (op : AclGrantOp)
  | committed (op : AclGrantOp) (turn : Nat)
  | returned
deriving DecidableEq

structure AclWorld where
  index : PermissionIndex := .new
  log : List AclGrantOp := []
  calls : Nat → Option AclCall := fun _ => none
  commits : Nat := 0

inductive AclAction
  | start (id : Nat) (op : AclGrantOp)
  | commit (id : Nat) (succeeds : Bool)
  | update (id : Nat)
  | effective (p : Principal)

variable (w : AclWorld)

namespace AclWorld

def setCall (id : Nat) (call : AclCall) : AclWorld :=
  { w with calls := update w.calls id (some call) }

def next : AclAction → Option AclWorld
  | .start id op => if (w.calls id).isNone then some (w.setCall id (.started op)) else none
  | .commit id succeeds =>
    match w.calls id with
    | some (.started op) =>
      let log := if succeeds then w.log ++ [op] else w.log
      some ({ w with log, commits := w.commits + 1 }.setCall id (.committed op w.commits))
    | _ => none
  | .update id =>
    match w.calls id with
    | some (.committed op _) =>
      (op.run w.index).map fun index => { w with index }.setCall id .returned
    | _ => none
  | .effective p => some { w with index := (w.index.effective p).2 }

def Idle : Prop := ∀ id call, w.calls id = some call → call = .returned

end AclWorld

def aclSystem : System AclWorld AclAction := ⟨{}, AclWorld.next⟩

variable (log : List AclGrantOp)

/-- The fresh index after the entries of the log. -/
def replay : Option PermissionIndex := log.foldlM AclGrantOp.run .new

/-- The answer to a principal who asks now. -/
def PermissionIndex.visible (p : Principal) (doc : NodeId) : Bool :=
  (idx.effective p).1.isVisible idx doc

def logged (doc : NodeId) : Option GrantSet :=
  (log.reverse.find? (·.doc = doc)).bind (·.result)

def Within (a b : Option GrantSet) : Prop := ∀ g, a = some g → ∃ g', b = some g' ∧ g ⊆ g'

/-- The calls for a document change the index in the order of their commits, and a commit
fails only if the log does not grant more than the call. -/
def Orderly : AclAction → Prop
  | .commit id succeeds => ∀ op, w.calls id = some (.started op) →
      succeeds = true ∨ Within (logged w.log op.doc) op.result
  | .update id => ∀ op turn, w.calls id = some (.committed op turn) → ∀ id' op' turn',
      w.calls id' = some (.committed op' turn') → op'.doc = op.doc → turn ≤ turn'
  | _ => True

/-! ## The index between calls -/

def atRest : World := { index := idx, granted := idx.grants }

structure IndexOk (idx : PermissionIndex) : Prop where
  tables : ClassTables idx
  keyed : ∀ {p s}, idx.cache p = some s → s.principal = p
  cached : ∀ {p s}, idx.cache p = some s → SnapshotOk (atRest idx) s

section
variable {idx idx' : PermissionIndex} {p : Principal} {doc : NodeId} {g : GrantSet}

theorem not_publishing (idx : PermissionIndex) : ¬ (atRest idx).Publishing := by
  rintro ⟨_, _, hcall, -⟩
  cases hcall

theorem IndexOk.sound (h : IndexOk idx) : Sound (atRest idx) where
  tables := h.tables
  interned hcall := nomatch hcall
  granted _ := rfl
  keyed hp := h.keyed hp
  snapshots hs := by
    rcases hs with ⟨_, hp⟩ | ⟨_, _, hcall, -⟩
    · exact h.cached hp
    · cases hcall
  loaded hl := hl.elim nofun nofun
  owned hl := hl.elim nofun nofun

theorem IndexOk.new : IndexOk .new where
  tables := .new
  keyed h := nomatch h
  cached h := nomatch h

variable (h : IndexOk idx)
include h

namespace IndexOk

theorem of_bump (htables : ClassTables idx') (hcache : idx'.cache = idx.cache)
    (hkeep : ∀ c g, idx.classGrants c = some g → idx'.classGrants c = some g)
    (hgeneration : idx'.generation = idx.generation + 1) : IndexOk idx' where
  tables := htables
  keyed hp := h.keyed (hcache ▸ hp)
  cached hp := by
    refine (h.cached (hcache ▸ hp)).mono ?_ ?_ ?_
    · exact hkeep
    · exact le_of_lt (lt_of_lt_of_eq (lt_succ_self _) hgeneration.symm)
    · intro hsame
      exact absurd (hgeneration.symm.trans hsame) (succ_ne_self _)

theorem applyDocAcl (happly : idx.applyDocAcl doc g = some idx') :
    IndexOk idx' ∧ idx'.grants = update idx.grants doc (some g) := by
  obtain ⟨⟨c, idx1⟩, hintern, rfl⟩ := map_eq_some_iff.mp happly
  obtain ⟨htables, hc⟩ := h.tables.internClass hintern
  have hg : idx1.classGrants c = some g := htables.named hc
  constructor
  · apply h.of_bump
    · apply ClassTables.bump
      apply htables.setClass
      intro c' heq
      cases heq
      exact ⟨g, hg⟩
    · exact (ClassTables.internClass_same hintern).1
    · exact fun c' g' hc' => h.tables.classGrants_internClass hintern hc'
    · exact congrArg (· + 1) (ClassTables.internClass_same hintern).2
  · show (idx1.setClass doc (some c)).grants = _
    rw [grants_setClass, bind_some, hg]
    exact congrArg (update · doc _) (funext fun _ => h.tables.grants_internClass hintern)

theorem revokeDoc : IndexOk (idx.revokeDoc doc) ∧
    (idx.revokeDoc doc).grants = update idx.grants doc none := by
  constructor
  · apply h.of_bump
    · exact .bump (h.tables.setClass nofun)
    · rfl
    · exact fun c g hc => hc
    · rfl
  · exact grants_setClass

theorem run {op : AclGrantOp} (hrun : op.run idx = some idx') :
    IndexOk idx' ∧ idx'.grants = update idx.grants op.doc op.result := by
  cases op with
  | apply => exact h.applyDocAcl hrun
  | revoke =>
    cases hrun
    exact h.revokeDoc

theorem insertCache {s : EffectivePermissions}
    (hs : SnapshotOk (atRest idx) s) : IndexOk (idx.insertCache s) where
  tables := h.tables.insertCache s
  keyed hp := by
    rcases cache_insertCache hp with ⟨rfl, rfl⟩ | hp
    · rfl
    · exact h.keyed hp
  cached := by
    intro p s' hp
    have hs' : SnapshotOk (atRest idx) s' := by
      rcases cache_insertCache hp with ⟨-, rfl⟩ | hp
      · exact hs
      · exact h.cached hp
    exact hs'.mono (fun _ _ hc => hc) (le_refl _) fun _ => .inr ⟨not_publishing idx, rfl⟩

/-- The snapshot is good and of the current generation, and only the cache changes. -/
theorem effective (p : Principal) :
    IndexOk (idx.effective p).2 ∧ (idx.effective p).2.grants = idx.grants ∧
      SnapshotOk (atRest idx) (idx.effective p).1 ∧
      (idx.effective p).1.generation = idx.generation ∧ (idx.effective p).1.principal = p := by
  unfold PermissionIndex.effective
  split
  · next hit hprobe =>
      obtain ⟨hcache, hgeneration⟩ := filter_eq_some_iff.mp hprobe
      exact ⟨h, rfl, h.cached hcache, of_decide_eq_true hgeneration, h.keyed hcache⟩
  · have hs := snapshotOk_resolve (atRest idx) p (le_refl idx.generation)
    exact ⟨h.insertCache hs, rfl, hs, rfl, rfl⟩

theorem visible_iff : idx.visible p doc = true ↔ ∃ g, idx.grants doc = some g ∧ Permits p g := by
  obtain ⟨-, -, hs, hgeneration, hp⟩ := h.effective p
  constructor
  · intro hvisible
    obtain ⟨g, hg, hpermits⟩ := h.sound.visible_sound hs hvisible
    exact ⟨g, hg, hp ▸ hpermits⟩
  · rintro ⟨g, hg, hpermits⟩
    exact h.sound.visible_complete hs hgeneration (not_publishing idx) hg (hp.symm ▸ hpermits)

end IndexOk
end

/-! ## The log -/

theorem logged_append (op : AclGrantOp) :
    logged (log ++ [op]) = update (logged log) op.doc op.result := by
  funext doc
  unfold logged
  rw [reverse_append, reverse_singleton, singleton_append, find?_cons]
  by_cases heq : doc = op.doc
  · subst heq
    simp
  · have hne : ¬ op.doc = doc := fun h => heq h.symm
    simp [hne, update_of_ne heq]

/-- Replay ends with what the log says. -/
theorem replay_spec {log : List AclGrantOp} {idx : PermissionIndex} (h : replay log = some idx) :
    IndexOk idx ∧ idx.grants = logged log := by
  induction log using reverseRecOn generalizing idx with
  | nil =>
    cases h
    exact ⟨.new, rfl⟩
  | append_singleton _ op ih =>
    unfold replay at h
    rw [foldlM_append] at h
    obtain ⟨idx1, h1, hrun⟩ := bind_eq_some_iff.mp h
    obtain ⟨hok, hgrants⟩ := ih h1
    have hrun' : op.run idx1 = some idx := by
      simpa using hrun
    obtain ⟨hok', hgrants'⟩ := hok.run hrun'
    exact ⟨hok', by rw [hgrants', hgrants, logged_append]⟩

/-! ## Runs -/

theorem Within.refl (a : Option GrantSet) : Within a a := fun g h => ⟨g, h, subset_rfl⟩

/-- The log grants no more than the index does, or will once the call that committed last
has changed it. -/
structure Covered (w : AclWorld) : Prop where
  index : IndexOk w.index
  turns : ∀ {id op turn}, w.calls id = some (.committed op turn) → turn < w.commits
  pending : ∀ {id op turn}, w.calls id = some (.committed op turn) →
    (∀ id' op' turn', w.calls id' = some (.committed op' turn') → op'.doc = op.doc →
      turn' ≤ turn) → Within (logged w.log op.doc) op.result
  settled : ∀ doc, (∀ id op turn, w.calls id = some (.committed op turn) → op.doc ≠ doc) →
    Within (logged w.log doc) (w.index.grants doc)

section
variable {w w' : AclWorld} {id id' turn : Nat} {op : AclGrantOp} {index : PermissionIndex}

theorem AclWorld.calls_setCall_self (w : AclWorld) (id : Nat) (call : AclCall) :
    (w.setCall id call).calls id = some call := update_self ..

theorem AclWorld.calls_setCall_ne (w : AclWorld) (call : AclCall) (h : id' ≠ id) :
    (w.setCall id call).calls id' = w.calls id' := update_of_ne h ..

theorem AclWorld.committed_setCall (call : AclCall) (hcall : ∀ op turn, call ≠ .committed op turn)
    (h : (w.setCall id call).calls id' = some (.committed op turn)) :
    id' ≠ id ∧ w.calls id' = some (.committed op turn) := by
  rcases of_update_eq h with ⟨-, heq⟩ | hold
  · exact absurd (some.inj heq) (hcall op turn)
  · exact hold

theorem Covered.commit {succeeds : Bool} (h : Covered w)
    (hcall : w.calls id = some (.started op)) (ha : Orderly w (.commit id succeeds)) :
    Covered ({ w with log := if succeeds then w.log ++ [op] else w.log
                      commits := w.commits + 1 }.setCall id (.committed op w.commits)) := by
  set w' := { w with log := if succeeds then w.log ++ [op] else w.log
                     commits := w.commits + 1 }.setCall id (.committed op w.commits) with hw'
  have hother : ∀ doc, doc ≠ op.doc → logged w'.log doc = logged w.log doc := by
    intro doc hdoc
    rw [hw', AclWorld.setCall]
    split
    · rw [logged_append, update_of_ne hdoc]
    · rfl
  have hmine : Within (logged w'.log op.doc) op.result := by
    rw [hw', AclWorld.setCall]
    cases succeeds with
    | true =>
      rw [if_pos rfl, logged_append, update_self]
      exact .refl _
    | false => exact (ha op hcall).resolve_left Bool.false_ne_true
  have hself : w'.calls id = some (.committed op w.commits) := AclWorld.calls_setCall_self ..
  have hkept : ∀ {id' op' turn'}, w.calls id' = some (.committed op' turn') →
      w'.calls id' = some (.committed op' turn') := by
    intro id' op' turn' h'
    refine (AclWorld.calls_setCall_ne _ _ ?_).trans h'
    rintro rfl
    cases hcall.symm.trans h'
  -- A call with the new state is this one or was there before.
  have hcases : ∀ {id' op' turn'}, w'.calls id' = some (.committed op' turn') →
      (op' = op ∧ turn' = w.commits) ∨ w.calls id' = some (.committed op' turn') := by
    intro id' op' turn' h'
    rcases of_update_eq h' with ⟨-, ⟨⟩⟩ | ⟨-, hold⟩
    · exact .inl ⟨rfl, rfl⟩
    · exact .inr hold
  constructor
  · exact h.index
  · intro id' op' turn' h'
    rcases hcases h' with ⟨-, rfl⟩ | hold
    · exact lt_succ_self _
    · exact lt_succ_of_lt (h.turns hold)
  · intro id' op' turn' h' hlast
    rcases hcases h' with ⟨rfl, -⟩ | hold
    · exact hmine
    · -- behind this call no other of its document is the last
      have hdoc : op'.doc ≠ op.doc := fun heq =>
        absurd (h.turns hold) (Nat.not_lt.mpr (hlast id op w.commits hself heq.symm))
      rw [hother _ hdoc]
      exact h.pending hold fun id'' op'' turn'' h'' => hlast id'' op'' turn'' (hkept h'')
  · intro doc hdoc
    rw [hother doc fun heq => hdoc id op _ hself heq.symm]
    exact h.settled doc fun id' op' turn' h' => hdoc id' op' turn' (hkept h')

theorem Covered.setCall {call : AclCall} (h : Covered w)
    (hindex : IndexOk index) (hcall : ∀ op turn, call ≠ .committed op turn)
    (hfirst : Orderly w (.update id))
    (hsettled : ∀ doc, (∀ id' op turn, id' ≠ id → w.calls id' = some (.committed op turn) →
      op.doc ≠ doc) → Within (logged w.log doc) (index.grants doc)) :
    Covered ({ w with index }.setCall id call) where
  index := hindex
  turns h' := h.turns (AclWorld.committed_setCall call hcall h').2
  pending {id' op' turn'} h' hlast := by
    obtain ⟨-, hold⟩ := AclWorld.committed_setCall call hcall h'
    refine h.pending hold fun id'' op'' turn'' h'' hdoc => ?_
    by_cases hid : id'' = id
    · exact hfirst op'' turn'' (hid ▸ h'') id' op' turn' hold hdoc.symm
    · exact hlast id'' op'' turn'' ((AclWorld.calls_setCall_ne _ _ hid).trans h'') hdoc
  settled doc hdoc := hsettled doc fun id' op' turn' hid h' =>
    hdoc id' op' turn' ((AclWorld.calls_setCall_ne _ _ hid).trans h')

theorem Covered.update (h : Covered w) (ha : Orderly w (.update id))
    (hcall : w.calls id = some (.committed op turn)) (hrun : op.run w.index = some index) :
    Covered ({ w with index }.setCall id .returned) := by
  obtain ⟨hindex, hgrants⟩ := h.index.run hrun
  refine h.setCall hindex (fun _ _ heq => by cases heq) ha fun doc hdoc => ?_
  rw [hgrants]
  by_cases heq : doc = op.doc
  · subst heq
    rw [update_self]
    -- no other call is under way, so this one committed last
    refine h.pending hcall fun id' op' turn' h' hdoc' => ?_
    by_cases hid : id' = id
    · subst hid
      cases hcall.symm.trans h'
      exact le_rfl
    · exact absurd hdoc' (hdoc id' op' turn' hid h')
  · rw [update_of_ne heq]
    refine h.settled doc fun id' op' turn' h' => ?_
    by_cases hid : id' = id
    · subst hid
      cases hcall.symm.trans h'
      exact fun hdoc' => heq hdoc'.symm
    · exact hdoc id' op' turn' hid h'

theorem Covered.next {a : AclAction} (h : Covered w) (ha : Orderly w a)
    (hstep : w.next a = some w') : Covered w' := by
  cases a with simp only [AclWorld.next] at hstep
  | start new =>
    split at hstep
    · next hnone =>
        cases hstep
        have hnew : ∀ {id' op' turn'}, w.calls id' = some (.committed op' turn') → id' ≠ new := by
          rintro id' op' turn' h' rfl
          simp [h'] at hnone
        refine h.setCall h.index (fun _ _ heq => by cases heq)
          (fun _ _ h' => absurd rfl (hnew h')) fun doc hdoc => ?_
        exact h.settled doc fun id' op' turn' h' => hdoc id' op' turn' (hnew h') h'
    · cases hstep
  | commit =>
    split at hstep
    · next op hcall =>
        cases hstep
        exact h.commit hcall ha
    · cases hstep
  | update =>
    split at hstep
    · next op _ hcall =>
        obtain ⟨_, hrun, rfl⟩ := map_eq_some_iff.mp hstep
        exact h.update ha hcall hrun
    · cases hstep
  | effective p =>
    cases hstep
    obtain ⟨hindex, hgrants, -⟩ := h.index.effective p
    exact ⟨hindex, h.turns, h.pending, fun doc hdoc => hgrants ▸ h.settled doc hdoc⟩

end

/-- Where calls for a document change the index in the order of their commits and no narrowing
call fails to commit, whatever is visible after a restart was visible before. -/
theorem restart_never_widens (w : AclWorld) (idx : PermissionIndex) (p : Principal) (doc : NodeId)
    (h : System.Reach aclSystem Orderly w) (hidle : w.Idle) (hreplay : replay w.log = some idx)
    (hvisible : idx.visible p doc = true) : w.index.visible p doc = true := by
  have hcovered : Covered w := by
    refine h.invariant ?_ fun s a s' hs ha hstep => hs.next ha hstep
    exact ⟨.new, nofun, nofun, fun doc _ => nofun⟩
  obtain ⟨hok, hgrants⟩ := replay_spec hreplay
  obtain ⟨g, hg, hp⟩ := hok.visible_iff.mp hvisible
  have hnone : ∀ id op turn, w.calls id = some (.committed op turn) → op.doc ≠ doc := by
    intro id op turn hcall
    cases hidle id _ hcall
  obtain ⟨g', hg', hsub⟩ := hcovered.settled doc hnone g (hgrants ▸ hg)
  refine hcovered.index.visible_iff.mpr ⟨g', hg', ?_⟩
  rcases hp with hp | hp
  · exact .inl (hsub hp)
  · exact .inr (hsub hp)

def granted : AclWorld :=
  { index := ((new.applyDocAcl 7 {"alice"}).getD .new)
    log := [.apply 7 {"alice"}]
    calls := update (update (update (fun _ => none) 0
      (some (.started (.apply 7 {"alice"})))) 0 (some (.committed (.apply 7 {"alice"}) 0))) 0
      (some .returned)
    commits := 1 }

theorem reach_granted : System.Reach aclSystem Orderly granted := by
  have hstarted : System.Reach aclSystem Orderly
      ((aclSystem.init).setCall 0 (.started (.apply 7 {"alice"}))) :=
    .step .init (a := .start 0 (.apply 7 {"alice"})) trivial rfl
  refine .step (.step hstarted (a := .commit 0 true) (fun _ _ => .inl rfl) rfl) (a := .update 0) ?_
    rfl
  intro op turn hcall
  cases hcall
  exact fun _ _ _ _ _ => Nat.zero_le _

theorem restart_never_widens_granted : System.Reach aclSystem Orderly granted ∧ granted.Idle ∧
    ∃ idx, replay granted.log = some idx ∧ idx.visible "alice" 7 = true ∧
      granted.index.visible "alice" 7 = true := by
  have hidle : granted.Idle := by
    intro id call hcall
    by_cases hzero : id = 0
    · subst hzero
      simpa [granted] using hcall.symm
    · simp [granted, hzero] at hcall
  have hvisible : ((replay granted.log).getD .new).visible "alice" 7 = true := by
    decide +kernel
  exact ⟨reach_granted, hidle, _, rfl, hvisible,
    restart_never_widens granted _ "alice" 7 reach_granted hidle rfl hvisible⟩

def failedRevoke : List AclAction :=
  [.start 0 (.apply 7 {"alice"}), .commit 0 true, .update 0,
    .start 1 (.revoke 7), .commit 1 false, .update 1]

def anyAcl (_ : AclWorld) (_ : AclAction) : Prop := True

instance (w : AclWorld) (a : AclAction) : Decidable (anyAcl w a) := isTrue trivial

theorem idle_failedRevoke : (aclSystem.after anyAcl failedRevoke).Idle := by
  intro id call hcall
  have hcalls : (aclSystem.after anyAcl failedRevoke).calls id =
      update (update (update (update (update
        (update (fun _ => none) 0 (some (.started (.apply 7 {"alice"})))) 0
        (some (.committed (.apply 7 {"alice"}) 0))) 0 (some .returned)) 1
        (some (.started (.revoke 7)))) 1 (some (.committed (.revoke 7) 1))) 1 (some .returned) id :=
    rfl
  rw [hcalls] at hcall
  by_cases hone : id = 1
  · subst hone
    simpa using hcall.symm
  · by_cases hzero : id = 0
    · subst hzero
      simpa using hcall.symm
    · simp [hone, hzero] at hcall

/-- The revoked document is visible again after the restart. -/
theorem restart_widens_failedRevoke : ∃ w idx, System.Reach aclSystem anyAcl w ∧ w.Idle ∧
    replay w.log = some idx ∧ idx.visible "alice" 7 = true ∧ w.index.visible "alice" 7 = false := by
  have hreach : System.Reach aclSystem anyAcl (aclSystem.after anyAcl failedRevoke) :=
    .after (by decide +kernel)
  have hvisible : ((replay (aclSystem.after anyAcl failedRevoke).log).getD .new).visible "alice" 7
      = true := by
    decide +kernel
  exact ⟨_, _, hreach, idle_failedRevoke, rfl, hvisible, by decide +kernel⟩

end ArcGraph.Permissions
