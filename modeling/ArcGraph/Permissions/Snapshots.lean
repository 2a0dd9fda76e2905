import ArcGraph.Permissions.Index

/-!
# Permission snapshots under concurrency

Calls of `apply_doc_acl`, `revoke_doc` and `effective` run in any number of threads. Their
atomic steps are: interning a class, setting a document's class, moving the generation,
loading the generation, probing the cache, scanning the classes, filling the cache.
Whether a document is visible through a snapshot can be asked at any time.

An old snapshot can only deny more (`visible_sound`). A snapshot of the current generation
has every class unless an apply is between its class and its bump (`Sound.complete`). So a
call of `effective` that runs while nobody writes gives an exact one.
-/

namespace ArcGraph.Permissions
open Foundation Function Option PermissionIndex ClassTables Nat

inductive Call
  | applyIntern (doc : NodeId) (g : GrantSet)
  | applyInsert (doc : NodeId) (g : GrantSet) (c : AclClassId)
  | revokeRemove (doc : NodeId)
  | bump (apply : Bool)
  | effectiveLoad (p : Principal)
  | effectiveProbe (p : Principal) (generation : Nat)
  | effectiveScan (p : Principal) (generation : Nat)
  | effectiveInsert (p : Principal) (snapshot : EffectivePermissions)
  | effectiveDone (p : Principal) (snapshot : EffectivePermissions)
  | done

namespace Call

/-- A call of `apply_doc_acl` or `revoke_doc` that has not returned. -/
def IsWriter : Call → Prop
  | applyIntern .. | applyInsert .. | revokeRemove .. | bump .. => True
  | _ => False

def snapshot? : Call → Option EffectivePermissions
  | effectiveInsert _ snapshot | effectiveDone _ snapshot => some snapshot
  | _ => none

def IsPublishing : Call → Prop
  | applyInsert .. => True
  | bump apply => apply = true
  | _ => False

end Call

/-- Each call has a number of its own. `granted` says what the latest update of a document
granted. -/
structure World where
  index : PermissionIndex := .new
  calls : Nat → Option Call := fun _ => none
  granted : NodeId → Option GrantSet := fun _ => none

inductive Action
  | apply (id : Nat) (doc : NodeId) (g : GrantSet)
  | revoke (id : Nat) (doc : NodeId)
  | effective (id : Nat) (p : Principal)
  | step (id : Nat)

variable (w : World)

namespace World
variable (id : Nat)

def setCall (call : Call) : World :=
  { w with calls := update w.calls id (some call) }

def start (call : Call) : Option World :=
  if (w.calls id).isNone then some (w.setCall id call) else none

def advance : Call → Option World
  | .applyIntern doc g =>
    (w.index.internClass g).map fun (c, index) =>
      { w with index }.setCall id (.applyInsert doc g c)
  | .applyInsert doc g c =>
    some ({ w with
      index := w.index.setClass doc (some c)
      granted := update w.granted doc (some g) }.setCall id (.bump true))
  | .revokeRemove doc =>
    some ({ w with
      index := w.index.setClass doc none
      granted := update w.granted doc none }.setCall id (.bump false))
  | .bump _ => some ({ w with index := w.index.bump }.setCall id .done)
  | .effectiveLoad p => some (w.setCall id (.effectiveProbe p w.index.generation))
  | .effectiveProbe p generation =>
    match w.index.probe p generation with
    | some hit => some (w.setCall id (.effectiveDone p hit))
    | none => some (w.setCall id (.effectiveScan p generation))
  | .effectiveScan p generation =>
    some (w.setCall id (.effectiveInsert p (w.index.resolve p generation)))
  | .effectiveInsert p snapshot =>
    some ({ w with index := w.index.insertCache snapshot }.setCall id
      (.effectiveDone p snapshot))
  | .effectiveDone .. | .done => none

def next : Action → Option World
  | .apply id doc g => w.start id (.applyIntern doc g)
  | .revoke id doc => w.start id (.revokeRemove doc)
  | .effective id p => w.start id (.effectiveLoad p)
  | .step id => (w.calls id).bind (w.advance id)

def Issued (s : EffectivePermissions) : Prop :=
  (∃ p, w.index.cache p = some s) ∨ ∃ id call, w.calls id = some call ∧ call.snapshot? = some s

def Publishing : Prop := ∃ id call, w.calls id = some call ∧ call.IsPublishing

def Quiet : Prop := ∀ id call, w.calls id = some call → ¬ call.IsWriter

end World

def system : System World Action := ⟨{}, World.next⟩

def anyStep (_ : World) (_ : Action) : Prop := True

instance (w : World) (a : Action) : Decidable (anyStep w a) := isTrue trivial

def readsOnly (_ : World) : Action → Prop
  | .apply .. | .revoke .. => False
  | _ => True

/-- The states that later steps by readers lead to. -/
def QuietlyLater (w' : World) : Prop := System.Reach ⟨w, World.next⟩ readsOnly w'

/-! ## The invariant -/

structure SnapshotOk (w : World) (s : EffectivePermissions) : Prop where
  sound : ∀ c, s.allowed c = true → ∃ g, w.index.classGrants c = some g ∧ Permits s.principal g
  generation_le : s.generation ≤ w.index.generation
  complete : s.generation = w.index.generation → w.Publishing ∨
    ∀ c g, w.index.classGrants c = some g → Permits s.principal g → s.allowed c = true

structure Sound (w : World) : Prop where
  tables : ClassTables w.index
  interned : ∀ {id doc g c}, w.calls id = some (.applyInsert doc g c) →
    w.index.classIntern g = some c
  granted : ∀ doc, w.granted doc = w.index.grants doc
  keyed : ∀ {p s}, w.index.cache p = some s → s.principal = p
  snapshots : ∀ {s}, w.Issued s → SnapshotOk w s
  loaded : ∀ {id p generation}, w.calls id = some (.effectiveProbe p generation) ∨
    w.calls id = some (.effectiveScan p generation) → generation ≤ w.index.generation
  owned : ∀ {id p s}, w.calls id = some (.effectiveInsert p s) ∨
    w.calls id = some (.effectiveDone p s) → s.principal = p

variable {index : PermissionIndex} {g : GrantSet} {a : Action}

section
variable {w w' : World} {id : Nat} {call : Call} {s : EffectivePermissions}

theorem calls_setCall_self : (w.setCall id call).calls id = some call := update_self ..

theorem calls_setCall_ne {id' : Nat} (h : id' ≠ id) :
    (w.setCall id call).calls id' = w.calls id' := update_of_ne h ..

/-- A snapshot stays good while classes are only added, and those under a publishing apply or
a new generation. -/
theorem SnapshotOk.mono (h : SnapshotOk w s)
    (hkeep : ∀ c g, w.index.classGrants c = some g → w'.index.classGrants c = some g)
    (hgeneration : w.index.generation ≤ w'.index.generation)
    (hsame : w'.index.generation = w.index.generation → w'.Publishing ∨
      (¬ w.Publishing ∧ w'.index.classGrants = w.index.classGrants)) : SnapshotOk w' s where
  sound c hc := by
    obtain ⟨g, hg, hp⟩ := h.sound c hc
    exact ⟨g, hkeep c g hg, hp⟩
  generation_le := h.generation_le.trans hgeneration
  complete hs := by
    have hle := h.generation_le
    have heq : w'.index.generation = w.index.generation := by omega
    rcases hsame heq with hpub | ⟨hquiet, hgrants⟩
    · exact .inl hpub
    · rcases h.complete (by omega) with hpub | hall
      · exact absurd hpub hquiet
      · rw [hgrants]
        exact .inr hall

theorem snapshotOk_resolve (w : World) (p : Principal) {generation : Nat}
    (h : generation ≤ w.index.generation) : SnapshotOk w (w.index.resolve p generation) where
  sound c hc := by
    obtain ⟨g, hg, hp⟩ := (any_eq_true ..).mp hc
    exact ⟨g, hg, of_decide_eq_true hp⟩
  generation_le := h
  complete _ := by
    refine .inr fun c g hg hp => ?_
    show (w.index.classGrants c).any _ = true
    rw [hg]
    exact decide_eq_true hp

/-- What a step must respect: it replaces the index, the record of grants and one call. -/
structure Respects (w : World) (old : Call) (index : PermissionIndex)
    (granted : NodeId → Option GrantSet) (call : Call) : Prop where
  tables : ClassTables index
  keepIntern : ∀ {g c}, w.index.classIntern g = some c → index.classIntern g = some c
  keepGrants : ∀ {c g}, w.index.classGrants c = some g → index.classGrants c = some g
  interned : ∀ {doc g c}, call = .applyInsert doc g c → index.classIntern g = some c
  granted : ∀ doc, granted doc = index.grants doc
  keyed : ∀ {p s}, index.cache p = some s → s.principal = p
  cached : ∀ {p s}, index.cache p = some s → SnapshotOk w s
  carried : ∀ {s}, call.snapshot? = some s → SnapshotOk w s
  loaded : ∀ {p generation}, call = .effectiveProbe p generation ∨
    call = .effectiveScan p generation → generation ≤ index.generation
  owned : ∀ {p s}, call = .effectiveInsert p s ∨ call = .effectiveDone p s → s.principal = p
  generation_le : w.index.generation ≤ index.generation
  publishing : index.generation = w.index.generation → call.IsPublishing ∨
    (¬ old.IsPublishing ∧ index.classGrants = w.index.classGrants)

variable {old : Call}

section
variable (h : Sound w) {doc : NodeId}
include h

namespace Sound

theorem of_respects {granted : NodeId → Option GrantSet}
    (hold : ∀ call, w.calls id = some call → call = old)
    (hstep : Respects w old index granted call) :
    Sound ({ w with index, granted }.setCall id call) := by
  have hsnapshot : ∀ {s}, SnapshotOk w s →
      SnapshotOk ({ w with index, granted }.setCall id call) s := by
    intro s hs
    apply hs.mono (fun c g => hstep.keepGrants) hstep.generation_le
    intro hgeneration
    rcases hstep.publishing hgeneration with hpub | ⟨hread, hgrants⟩
    · exact .inl ⟨id, call, calls_setCall_self, hpub⟩
    · by_cases hw : w.Publishing
      · obtain ⟨id', call', hcall', hpub⟩ := hw
        have hid : id' ≠ id := by
          intro heq
          subst heq
          exact hread (hold call' hcall' ▸ hpub)
        exact .inl ⟨id', call', (calls_setCall_ne hid).trans hcall', hpub⟩
      · exact .inr ⟨hw, hgrants⟩
  constructor
  · exact hstep.tables
  · intro id' doc g c hcall
    rcases of_update_eq hcall with ⟨-, heq⟩ | ⟨-, hold⟩
    · exact hstep.interned (some.inj heq)
    · exact hstep.keepIntern (h.interned hold)
  · exact hstep.granted
  · exact hstep.keyed
  · intro s hs
    apply hsnapshot
    rcases hs with ⟨p, hp⟩ | ⟨id', call', hcall, hs⟩
    · exact hstep.cached hp
    · rcases of_update_eq hcall with ⟨-, ⟨⟩⟩ | ⟨-, hold⟩
      · exact hstep.carried hs
      · exact h.snapshots (.inr ⟨id', call', hold, hs⟩)
  · intro id' p generation hload
    by_cases hid : id' = id
    · subst hid
      rw [calls_setCall_self, some.injEq, some.injEq] at hload
      exact hstep.loaded hload
    · rw [calls_setCall_ne hid] at hload
      exact (h.loaded hload).trans hstep.generation_le
  · intro id' p s howned
    by_cases hid : id' = id
    · subst hid
      rw [calls_setCall_self, some.injEq, some.injEq] at howned
      exact hstep.owned howned
    · rw [calls_setCall_ne hid] at howned
      exact h.owned howned

theorem respects_same (hread : ¬ old.IsPublishing)
    (hinsert : ∀ doc g c, call ≠ .applyInsert doc g c)
    (hcarried : ∀ s, call.snapshot? = some s → SnapshotOk w s)
    (hloaded : ∀ p generation, call = .effectiveProbe p generation ∨
      call = .effectiveScan p generation → generation ≤ w.index.generation)
    (howned : ∀ p s, call = .effectiveInsert p s ∨ call = .effectiveDone p s → s.principal = p) :
    Respects w old w.index w.granted call where
  tables := h.tables
  keepIntern hc := hc
  keepGrants hc := hc
  interned heq := absurd heq (hinsert _ _ _)
  granted := h.granted
  keyed hp := h.keyed hp
  cached hp := h.snapshots (.inl ⟨_, hp⟩)
  carried := hcarried _
  loaded := hloaded _ _
  owned := howned _ _
  generation_le := le_refl _
  publishing _ := .inr ⟨hread, rfl⟩

theorem applyIntern {c : AclClassId} (hintern : w.index.internClass g = some (c, index)) :
    Respects w (.applyIntern doc g) index w.granted (.applyInsert doc g c) where
  tables := (h.tables.internClass hintern).1
  keepIntern := by
    intro g' c' hc'
    rcases internClass_cases hintern with ⟨-, rfl⟩ | ⟨hnone, -, rfl⟩
    · exact hc'
    · have hne : g' ≠ g := by
        intro heq
        subst heq
        cases hnone.symm.trans hc'
      exact (update_of_ne hne ..).trans hc'
  keepGrants hc := h.tables.classGrants_internClass hintern hc
  interned heq := by
    cases heq
    exact (h.tables.internClass hintern).2
  granted doc' := (h.granted doc').trans (h.tables.grants_internClass hintern).symm
  keyed hp := h.keyed ((internClass_same hintern).1 ▸ hp)
  cached hp := h.snapshots (.inl ⟨_, (internClass_same hintern).1 ▸ hp⟩)
  carried hs := nomatch hs
  loaded hl := hl.elim nofun nofun
  owned hl := hl.elim nofun nofun
  generation_le := (internClass_same hintern).2.ge
  publishing _ := .inl trivial

theorem setClass {o : Option AclClassId} {g : Option GrantSet} {apply : Bool}
    (hg : o.bind w.index.classGrants = g)
    (ho : ∀ c, o = some c → ∃ g, w.index.classGrants c = some g)
    (hpub : old.IsPublishing → apply = true) :
    Respects w old (w.index.setClass doc o) (update w.granted doc g) (.bump apply) where
  tables := h.tables.setClass ho
  keepIntern hc := hc
  keepGrants hc := hc
  interned heq := nomatch heq
  granted doc' := by
    rw [grants_setClass, hg, show w.granted = _ from funext h.granted]
  keyed hp := h.keyed hp
  cached hp := h.snapshots (.inl ⟨_, hp⟩)
  carried hs := nomatch hs
  loaded hl := hl.elim nofun nofun
  owned hl := hl.elim nofun nofun
  generation_le := le_refl _
  publishing _ := by
    by_cases hold : old.IsPublishing
    · exact .inl (hpub hold)
    · exact .inr ⟨hold, rfl⟩

theorem bump : Respects w old w.index.bump w.granted .done where
  tables := h.tables.bump
  keepIntern hc := hc
  keepGrants hc := hc
  interned heq := nomatch heq
  granted := h.granted
  keyed hp := h.keyed hp
  cached hp := h.snapshots (.inl ⟨_, hp⟩)
  carried hs := nomatch hs
  loaded hl := hl.elim nofun nofun
  owned hl := hl.elim nofun nofun
  generation_le := le_succ _
  publishing heq := absurd heq (succ_ne_self _)

theorem insertCache {p : Principal} (hs : SnapshotOk w s) (hp : s.principal = p) :
    Respects w (.effectiveInsert p s) (w.index.insertCache s) w.granted (.effectiveDone p s) where
  tables := h.tables.insertCache s
  keepIntern hc := hc
  keepGrants hc := hc
  interned heq := nomatch heq
  granted := h.granted
  keyed hp := by
    rcases cache_insertCache hp with ⟨rfl, rfl⟩ | hp
    · rfl
    · exact h.keyed hp
  cached hp := by
    rcases cache_insertCache hp with ⟨-, rfl⟩ | hp
    · exact hs
    · exact h.snapshots (.inl ⟨_, hp⟩)
  carried hs' := by
    cases hs'
    exact hs
  loaded hl := hl.elim nofun nofun
  owned hl := by
    rcases hl with hl | hl
    · cases hl
    · cases hl
      exact hp
  generation_le := le_refl _
  publishing _ := .inr ⟨fun hpub => hpub, rfl⟩

theorem advance (hold : w.calls id = some old) (hstep : w.advance id old = some w') : Sound w' := by
  have hcall : ∀ call, w.calls id = some call → call = old := fun call h =>
    some.inj (h.symm.trans hold)
  cases old with
  | applyIntern =>
    obtain ⟨⟨_, _⟩, hintern, rfl⟩ := map_eq_some_iff.mp hstep
    exact h.of_respects hcall (h.applyIntern hintern)
  | applyInsert _ g =>
    cases hstep
    have hc := h.tables.named (h.interned hold)
    refine h.of_respects hcall (h.setClass hc ?_ fun _ => rfl)
    intro c' heq
    cases heq
    exact ⟨g, hc⟩
  | revokeRemove =>
    cases hstep
    exact h.of_respects hcall (h.setClass rfl (fun _ heq => nomatch heq) fun hpub => nomatch hpub)
  | bump =>
    cases hstep
    exact h.of_respects hcall h.bump
  | effectiveLoad =>
    cases hstep
    refine h.of_respects hcall (h.respects_same (fun hpub => hpub) nofun nofun ?_ ?_)
    · intro p' generation hl
      rcases hl with hl | hl
      · cases hl
        exact le_refl _
      · cases hl
    · exact fun _ _ hl => hl.elim nofun nofun
  | effectiveProbe p =>
    simp only [World.advance] at hstep
    split at hstep
    · next hit hprobe =>
        cases hstep
        obtain ⟨hcache, -⟩ := filter_eq_some_iff.mp hprobe
        refine h.of_respects hcall (h.respects_same (fun hpub => hpub) nofun ?_ ?_ ?_)
        · intro s hs
          cases hs
          exact h.snapshots (.inl ⟨p, hcache⟩)
        · exact fun _ _ hl => hl.elim nofun nofun
        · intro p' s hl
          rcases hl with hl | hl
          · cases hl
          · cases hl
            exact h.keyed hcache
    · cases hstep
      refine h.of_respects hcall (h.respects_same (fun hpub => hpub) nofun nofun ?_ ?_)
      · intro p' generation' hl
        rcases hl with hl | hl
        · cases hl
        · cases hl
          exact h.loaded (.inl hold)
      · exact fun _ _ hl => hl.elim nofun nofun
  | effectiveScan p =>
    cases hstep
    refine h.of_respects hcall (h.respects_same (fun hpub => hpub) nofun ?_ ?_ ?_)
    · intro s hs
      cases hs
      exact snapshotOk_resolve w p (h.loaded (.inr hold))
    · exact fun _ _ hl => hl.elim nofun nofun
    · intro p' s hl
      rcases hl with hl | hl
      · cases hl
        rfl
      · cases hl
  | effectiveInsert =>
    cases hstep
    exact h.of_respects hcall
      (h.insertCache (h.snapshots (.inr ⟨id, _, hold, rfl⟩)) (h.owned (.inl hold)))
  | effectiveDone => cases hstep
  | done => cases hstep

theorem next (hstep : w.next a = some w') : Sound w' := by
  have hstart : ∀ {id call}, w.start id call = some w' → call.snapshot? = none →
      (∀ doc g c, call ≠ .applyInsert doc g c) →
      (∀ p generation, ¬ (call = .effectiveProbe p generation ∨
        call = .effectiveScan p generation)) → Sound w' := by
    intro id call hs hsnapshot hinsert hload
    unfold World.start at hs
    split at hs
    · next hnone =>
        cases hs
        have hstep : Respects w .done w.index w.granted call := by
          refine h.respects_same (fun hpub => hpub) hinsert ?_ ?_ ?_
          · intro s hs
            cases hsnapshot.symm.trans hs
          · exact fun p generation hl => absurd hl (hload p generation)
          · intro p s hl
            rcases hl with rfl | rfl
            · cases hsnapshot
            · cases hsnapshot
        refine h.of_respects ?_ hstep
        intro call' hcall'
        simp [hcall'] at hnone
    · cases hs
  cases a with
  | apply
  | revoke
  | effective => exact hstart hstep rfl nofun fun _ _ hl => hl.elim nofun nofun
  | step =>
    obtain ⟨_, hold, hadvance⟩ := bind_eq_some_iff.mp hstep
    exact h.advance hold hadvance

end Sound
end

theorem sound_of_reach (h : System.Reach system anyStep w) : Sound w := by
  refine h.invariant ?_ fun s a s' hs _ hstep => hs.next hstep
  constructor
  · exact new
  · exact nofun
  · exact fun doc => rfl
  · exact nofun
  · intro s hs
    rcases hs with ⟨_, hp⟩ | ⟨_, _, hcall, -⟩
    · cases hp
    · cases hcall
  · exact fun hl => hl.elim nofun nofun
  · exact fun hl => hl.elim nofun nofun

end

/-! ## What snapshots say -/

section
variable {w : World} {s : EffectivePermissions} {doc : NodeId}

theorem isVisible_iff : s.isVisible w.index doc = true ↔
    ∃ c, w.index.docClass doc = some c ∧ s.allowed c = true :=
  any_eq_true ..

theorem granted_iff (h : Sound w) : w.granted doc = some g ↔
    ∃ c, w.index.docClass doc = some c ∧ w.index.classGrants c = some g := by
  rw [h.granted]
  exact bind_eq_some_iff

/-- A snapshot shows what is granted at the time of the question, and no more. -/
theorem Sound.visible_sound (h : Sound w) (hs : SnapshotOk w s)
    (hvisible : s.isVisible w.index doc = true) :
    ∃ g, w.granted doc = some g ∧ Permits s.principal g := by
  obtain ⟨c, hc, hallowed⟩ := isVisible_iff.mp hvisible
  obtain ⟨g, hg, hp⟩ := hs.sound c hallowed
  exact ⟨g, (granted_iff h).mpr ⟨c, hc, hg⟩, hp⟩

/-- A snapshot of the current generation shows all of it while no apply is publishing. -/
theorem Sound.visible_complete (h : Sound w) (hs : SnapshotOk w s)
    (hgeneration : s.generation = w.index.generation) (hquiet : ¬ w.Publishing)
    (hg : w.granted doc = some g) (hp : Permits s.principal g) :
    s.isVisible w.index doc = true := by
  obtain ⟨c, hc, hcg⟩ := (granted_iff h).mp hg
  rcases hs.complete hgeneration with hpub | hall
  · exact absurd hpub hquiet
  · exact isVisible_iff.mpr ⟨c, hc, hall c g hcg hp⟩

end

/-! ## While nobody writes -/

def Call.OfGeneration (n : Nat) : Call → Prop
  | .effectiveProbe _ generation | .effectiveScan _ generation => generation = n
  | .effectiveInsert _ s | .effectiveDone _ s => s.generation = n
  | _ => True

/-- What holds after `w` while nobody writes, of the calls `w` did not have. -/
structure Later (w : World) (w' : World) : Prop where
  quiet : w'.Quiet
  generation : w'.index.generation = w.index.generation
  fresh : ∀ id call, w.calls id = none → w'.calls id = some call →
    call.OfGeneration w.index.generation

variable {w w' w'' : World} {id : Nat}

theorem Later.setCall {call : Call} (h : Later w w')
    (hread : ¬ call.IsWriter) (hindex : index.generation = w'.index.generation)
    (hcall : w.calls id = none → call.OfGeneration w.index.generation) :
    Later w ({ w' with index }.setCall id call) where
  quiet id' call' hcall' := by
    rcases of_update_eq hcall' with ⟨-, ⟨⟩⟩ | ⟨-, hold⟩
    · exact hread
    · exact h.quiet id' call' hold
  generation := hindex.trans h.generation
  fresh id' call' hnone hcall' := by
    rcases of_update_eq hcall' with ⟨rfl, ⟨⟩⟩ | ⟨-, hold⟩
    · exact hcall hnone
    · exact h.fresh id' call' hnone hold

theorem Later.advance {old : Call} (h : Later w w')
    (hold : w'.calls id = some old) (hstep : w'.advance id old = some w'') : Later w w'' := by
  have hquiet := h.quiet id old hold
  have hfresh := h.fresh id old
  cases old with
  | applyIntern => exact absurd trivial hquiet
  | applyInsert => exact absurd trivial hquiet
  | revokeRemove => exact absurd trivial hquiet
  | bump => exact absurd trivial hquiet
  | effectiveLoad =>
    cases hstep
    exact h.setCall (fun hw => hw) rfl fun _ => h.generation
  | effectiveProbe =>
    simp only [World.advance] at hstep
    split at hstep
    · next hit hprobe =>
        cases hstep
        obtain ⟨-, hgeneration⟩ := filter_eq_some_iff.mp hprobe
        refine h.setCall (fun hw => hw) rfl fun hnone => ?_
        exact (of_decide_eq_true hgeneration).trans (hfresh hnone hold)
    · cases hstep
      exact h.setCall (fun hw => hw) rfl fun hnone => hfresh hnone hold
  | effectiveScan | effectiveInsert =>
    cases hstep
    exact h.setCall (fun hw => hw) rfl fun hnone => hfresh hnone hold
  | effectiveDone => cases hstep
  | done => cases hstep

theorem Later.next (h : Later w w') (ha : readsOnly w' a)
    (hstep : w'.next a = some w'') : Later w w'' := by
  cases a with
  | apply => exact ha.elim
  | revoke => exact ha.elim
  | effective =>
    simp only [World.next, World.start] at hstep
    split at hstep
    · cases hstep
      exact h.setCall (fun hw => hw) rfl fun _ => trivial
    · cases hstep
  | step =>
    obtain ⟨_, hold, hadvance⟩ := bind_eq_some_iff.mp hstep
    exact h.advance hold hadvance

theorem later_of_quietlyLater (hw : w.Quiet) (h : QuietlyLater w w') : Later w w' := by
  refine h.invariant ?_ fun s a s' hs ha hstep => hs.next ha hstep
  exact ⟨hw, rfl, fun id call hnone hcall => absurd (hnone.symm.trans hcall) nofun⟩

theorem Sound.quietlyLater (hw : Sound w) (h : QuietlyLater w w') : Sound w' :=
  h.invariant hw fun _ _ _ hs _ hstep => hs.next hstep

theorem not_publishing_of_quiet (h : w.Quiet) : ¬ w.Publishing := by
  rintro ⟨id, call, hcall, hpub⟩
  have hread := h id call hcall
  cases call with
  | applyInsert => exact hread trivial
  | bump => exact hread trivial
  | _ => exact hpub

/-- Snapshots never widen, classes are never shared by different sets, and a snapshot taken
while nobody writes is exact. -/
theorem snapshots_never_widen (w : World) (h : System.Reach system anyStep w) :
    (∀ id p s doc, w.calls id = some (.effectiveDone p s) → s.isVisible w.index doc = true →
      ∃ g, w.granted doc = some g ∧ Permits p g) ∧
    (∀ g g' c, w.index.classIntern g = some c → w.index.classIntern g' = some c → g = g') ∧
    (∀ w' id p s doc, w.Quiet → w.calls id = none → QuietlyLater w w' →
      w'.calls id = some (.effectiveDone p s) →
      (s.isVisible w'.index doc = true ↔ ∃ g, w'.granted doc = some g ∧ Permits p g)) := by
  have hsound := sound_of_reach h
  refine ⟨?_, fun g g' c => hsound.tables.eq_of_classIntern, ?_⟩
  · intro id p s doc hcall hvisible
    rw [← hsound.owned (.inr hcall)]
    exact hsound.visible_sound (hsound.snapshots (.inr ⟨id, _, hcall, rfl⟩)) hvisible
  · intro w' id p s doc hquiet hnone hrun hcall
    have hsound' := hsound.quietlyLater hrun
    have hlater := later_of_quietlyLater hquiet hrun
    have hs := hsound'.snapshots (.inr ⟨id, _, hcall, rfl⟩)
    rw [← hsound'.owned (.inr hcall)]
    constructor
    · exact hsound'.visible_sound hs
    · rintro ⟨g, hg, hp⟩
      have hgeneration : s.generation = w'.index.generation :=
        (hlater.fresh id _ hnone hcall).trans hlater.generation.symm
      exact hsound'.visible_complete hs hgeneration (not_publishing_of_quiet hlater.quiet) hg hp

def grantThenSnapshot : List Action :=
  [.apply 0 7 {"alice"}, .step 0, .step 0, .step 0,
    .effective 1 "alice", .step 1, .step 1, .step 1, .step 1]

theorem snapshots_never_widen_grantThenSnapshot :
    ∃ w s, System.Reach system anyStep w ∧ w.calls 1 = some (.effectiveDone "alice" s) ∧
      s.isVisible w.index 7 = true ∧ ∃ g, w.granted 7 = some g ∧ Permits "alice" g := by
  have hreach : System.Reach system anyStep (system.after anyStep grantThenSnapshot) :=
    .after (by decide +kernel)
  have hvisible : (resolve (system.after anyStep grantThenSnapshot).index "alice"
      1).isVisible (system.after anyStep grantThenSnapshot).index 7 = true := by
    decide +kernel
  exact ⟨_, _, hreach, rfl, hvisible, (snapshots_never_widen _ hreach).1 1 "alice" _ 7 rfl hvisible⟩

end ArcGraph.Permissions
