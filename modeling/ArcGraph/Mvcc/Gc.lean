import ArcGraph.Mvcc.SnapshotIsolation

/-!
# Garbage collection against concurrent begins

`oldest_active_snapshot` scans `active` between two loads of the begin
generation. The fences miss a begin in two windows: one that has bumped the
generation before the first load and inserts its sentinel behind the scan, and
one that starts after the second load and reads `visible` before the collection
does. A run in which neither happens reclaims no version that a snapshot can
read; a run through the first window reclaims one.
-/

namespace ArcGraph.Mvcc
open VersionChain Foundation Function List Nat

namespace Phase

def ended : Phase → Bool
  | .returned _ | .abandoned _ => true
  | _ => false

end Phase

namespace Call

/-- The transaction a call runs for, with what `active` holds under its id. -/
def entryOf : Call → Option (TxnId × Option ActiveEntry)
  | .beginning id .allocated => some (id, none)
  | .beginning id .fenced => some (id, none)
  | .beginning id .pending => some (id, some .pending)
  | .beginning id (.loaded _) => some (id, some .pending)
  | .active id snapshot => some (id, some (.snapshot snapshot))
  | .conflicted id snapshot => some (id, some (.snapshot snapshot))
  | .commit c phase =>
    if phase.ended then none else c.txn.map fun id => (id, some (.snapshot c.snapshot))
  | _ => none

def isFenced : Call → Bool
  | .beginning _ .fenced => true
  | _ => false

theorem snapshot_commit (c : Commit) (phase : Phase) :
    (commit c phase).snapshot? = if phase.ended then none else c.txn.map fun _ => c.snapshot := by
  cases phase <;> cases h : c.txn <;> simp [snapshot?, Phase.ended, h]

/-- A call with a snapshot is known to `active`, by its snapshot or still by the
sentinel. -/
theorem entry_of_snapshot {call : Call} {snapshot : Nat} (h : call.snapshot? = some snapshot) :
    ∃ id e, call.entryOf = some (id, some e) ∧ (e = .snapshot snapshot ∨ e = .pending) := by
  cases call with
  | beginning id stage =>
    cases stage with
    | loaded => exact ⟨id, _, rfl, .inr rfl⟩
    | allocated | fenced | pending => simp [snapshot?] at h
  | active id | conflicted id =>
    cases h
    exact ⟨id, _, rfl, .inl rfl⟩
  | commit =>
    rw [snapshot_commit] at h
    split at h
    · cases h
    · rename_i hend
      obtain ⟨id, hid, rfl⟩ := Option.map_eq_some_iff.mp h
      exact ⟨id, _, by simp [entryOf, hend, hid], .inl rfl⟩
  | idle | gc | ended => simp [snapshot?] at h

end Call

/-! ## The two windows -/

/-- No begin stands between its bump and its sentinel when a collection reads the
generation, and none has bumped it when the collection goes on to read
`visible`. -/
def beginsFenced (s : State) : Action → Prop
  | .gcFence _ => ∀ t, (s.calls t).isFenced = false
  | .gcLoad t =>
    match s.calls t with
    | .gc (.empty gen) => gen = s.beginGeneration
    | _ => True
  | _ => True

/-! ## What a step does to `active` -/

/-- A step of a collection before it touches a chain, outside the windows. -/
def GcMove (s : State) (old call : Call) : Prop :=
  ∃ a, s.calls a.call = old ∧ beginsFenced s a ∧ Collects s a old call

/-- What a step does to `active`, the transaction ids and the generation, where the call `t`
becomes `call`. -/
structure Registry (t : CallId) (s s' : State) (call : Call) : Prop where
  calls : s'.calls = update s.calls t call
  generation_le : s.beginGeneration ≤ s'.beginGeneration
  nextTxnId_le : s.nextTxnId ≤ s'.nextTxnId
  /-- No entry but that of the call changes. -/
  active : ∀ id, s'.active id = s.active id ∨ ∃ e, (s.calls t).entryOf = some (id, e)
  /-- The call keeps its entry or has the next id, or it announces itself or its snapshot. -/
  entry : ∀ id e, call.entryOf = some (id, e) →
    (s'.active id = s.active id ∧ ((s.calls t).entryOf = some (id, e) ∨
      id = s.nextTxnId ∧ e = none ∧ id < s'.nextTxnId)) ∨
    s'.active id = e ∧ ((s.calls t = .beginning id .fenced ∧ e = some .pending) ∨
      ∃ lsn, (s.calls t).entryOf = some (id, some .pending) ∧ e = some (.snapshot lsn))
  snapshot : ∀ lsn, call.snapshot? = some lsn → lsn = s.visible ∨ (s.calls t).snapshot? = some lsn
  fenced : call.isFenced = true → s.beginGeneration < s'.beginGeneration
  collects : ∀ phase, call = .gc phase → s.calls t = .gc phase ∨
    s'.visible = s.visible ∧ GcMove s (s.calls t) call

variable {s s' : State} {t t' : CallId} {a : Action} {gen lsn anchor : Nat} {floor : Option Nat}
  {anyPending : Bool} {calls : CallId → Call} {id : TxnId} {phase : GcPhase}
  {P : TxnId → ActiveEntry → Prop} {chain : VersionChain} {ts : List CallId} {e : ActiveEntry}
  {old call : Call} {v : Version} {c : Commit} {phase' : Phase}

open Call

theorem Registry.kept (calls : s'.calls = update s.calls t call) (hactive : s'.active = s.active)
    (hnext : s'.nextTxnId = s.nextTxnId) (hgen : s'.beginGeneration = s.beginGeneration)
    (hentry : call.entryOf = (s.calls t).entryOf)
    (hsnap : ∀ lsn, call.snapshot? = some lsn → (s.calls t).snapshot? = some lsn)
    (hfenced : call.isFenced = false) (hgc : ∀ phase, call = .gc phase → s.calls t = .gc phase) :
    Registry t s s' call :=
  ⟨calls, hgen.ge, hnext.ge, fun _ => .inl (by rw [hactive]),
    fun _ _ h => .inl ⟨by rw [hactive], .inl (hentry ▸ h)⟩, fun lsn h => .inr (hsnap lsn h),
    by simp [hfenced], fun phase h => .inl (hgc phase h)⟩

theorem active_setActive {e : Option ActiveEntry} (hold : (s.calls t).entryOf = some (id, e))
    (new : Option ActiveEntry) (id' : TxnId) :
    (s.setActive id new).active id' = s.active id' ∨ ∃ e, (s.calls t).entryOf = some (id', e) := by
  by_cases hid : id' = id
  · exact .inr ⟨e, hid ▸ hold⟩
  · exact .inl (update_of_ne hid ..)

theorem Registry.ended {e : Option ActiveEntry} (hold : (s.calls t).entryOf = some (id, e))
    (hentry : call.entryOf = none) (hsnap : call.snapshot? = none) (hfenced : call.isFenced = false)
    (hgc : ∀ phase, call ≠ .gc phase) :
    Registry t s ((s.setActive id none).setCall t call) call :=
  ⟨rfl, le_rfl, le_rfl, active_setActive hold none, by simp [hentry], by simp [hsnap],
    by simp [hfenced], fun phase h => absurd h (hgc phase)⟩

theorem registry_commit {c' : Commit} {phase : Phase} (hc : s.calls t = .commit c phase)
    (hcalls : s'.calls = update s.calls t (.commit c' phase')) (htxn : c'.txn = c.txn)
    (hsnap : c'.snapshot = c.snapshot) (hend : phase.ended = false) (hend' : phase'.ended = false)
    (hactive : s'.active = s.active) (hnext : s'.nextTxnId = s.nextTxnId)
    (hgen : s'.beginGeneration = s.beginGeneration) : Registry t s s' (.commit c' phase') := by
  refine .kept hcalls hactive hnext hgen ?_ ?_ rfl fun _ h => by cases h
  · simp [hc, entryOf, hend, hend', htxn, hsnap]
  · intro snapshot h
    simpa [hc, snapshot_commit, hend, hend', htxn, hsnap] using h

theorem registry_release {phase : Phase} (hc : s.calls t = .commit c phase)
    (hend : phase.ended = false) (hend' : phase'.ended = true) :
    Registry t s ((s.release c.txn).setCall t (.commit c phase')) (.commit c phase') := by
  have hentry : (commit c phase').entryOf = none := by simp [entryOf, hend']
  have hsnap : (commit c phase').snapshot? = none := by simp [snapshot_commit, hend']
  cases htxn : c.txn with
  | none =>
    refine .kept rfl rfl rfl rfl ?_ (by simp [hsnap]) rfl fun _ h => by cases h
    rw [hentry, hc]
    simp [entryOf, htxn]
  | some id =>
    refine .ended (e := some (.snapshot c.snapshot)) ?_ hentry hsnap rfl fun _ h => by cases h
    simp [hc, entryOf, hend, htxn]

theorem GcMove.entry (h : GcMove s old call) :
    call.entryOf = none ∧ call.snapshot? = none ∧ call.isFenced = false := by
  obtain ⟨_, -, -, h⟩ := h
  cases h <;> exact ⟨rfl, rfl, rfl⟩

theorem step_registry (hf : beginsFenced s a) (h : s.step a = some s') :
    ∃ call, Registry a.call s s' call := by
  cases stepped_of_step h with
  | allocate =>
    refine ⟨_, rfl, le_rfl, le_succ _, fun _ => .inl rfl, fun id e h => ?_, fun _ h => (by cases h),
      fun h => (by cases h), fun _ h => by cases h⟩
    cases h
    exact .inl ⟨rfl, .inr ⟨rfl, rfl, lt_succ_self _⟩⟩
  | bump hc =>
    refine ⟨_, rfl, le_succ _, le_rfl, fun _ => .inl rfl, fun id e h => ?_, fun _ h => (by cases h),
      fun _ => lt_succ_self _, fun _ h => by cases h⟩
    cases h
    exact .inl ⟨rfl, .inl (by rw [Action.call, hc]; rfl)⟩
  | announce hc =>
    refine ⟨_, rfl, le_rfl, le_rfl, active_setActive (by rw [Action.call, hc]; rfl) _,
      fun id e h => ?_, fun _ h => (by cases h), fun h => (by cases h), fun _ h => by cases h⟩
    cases h
    exact .inr ⟨update_self .., .inl ⟨hc, rfl⟩⟩
  | load hc =>
    refine ⟨_, rfl, le_rfl, le_rfl, fun _ => .inl rfl, fun id e h => ?_, fun _ h => ?_,
      fun h => (by cases h), fun _ h => by cases h⟩ <;> cases h
    · exact .inl ⟨rfl, .inl (by rw [Action.call, hc]; rfl)⟩
    · exact .inl rfl
  | enter hc =>
    refine ⟨_, rfl, le_rfl, le_rfl, active_setActive (by rw [Action.call, hc]; rfl) _,
      fun id e h => ?_, fun _ h => ?_, fun h => (by cases h), fun _ h => by cases h⟩ <;> cases h
    · exact .inr ⟨update_self .., .inr ⟨_, by rw [Action.call, hc]; rfl, rfl⟩⟩
    · exact .inr (by rw [Action.call, hc]; rfl)
  | @quit _ id snapshot hc =>
    have hold : (s.calls a.call).entryOf = some (id, some (.snapshot snapshot)) := by
      rcases hc with hc | hc <;> rw [hc] <;> rfl
    exact ⟨_, .ended hold rfl rfl rfl fun _ h => by cases h⟩
  | conflict hc | install _ _ _ hc =>
    refine ⟨_, .kept rfl rfl rfl rfl ?_ ?_ rfl fun _ h => by cases h⟩
    · rw [Action.call, hc]
      rfl
    · intro lsn h
      rw [Action.call, hc]
      exact h
  | move hc hmove hphase =>
    cases hmove False with
    | abandon _ hleft => exact hleft.elim
    | finish err => exact absurd rfl (hphase err)
    | stage | builderError | append | apply | unwind =>
      exact ⟨_, registry_commit hc rfl rfl rfl rfl rfl rfl rfl rfl⟩
  | normalize hc | sidechannel hc | publish hc | rollback hc =>
    exact ⟨_, registry_commit hc rfl rfl rfl rfl rfl rfl rfl rfl⟩
  | advance hc hphase =>
    refine ⟨_, registry_commit hc rfl rfl rfl ?_ rfl rfl rfl rfl⟩
    rcases hphase with ⟨rfl, -⟩ | ⟨e, rfl, -⟩ <;> rfl
  | abandon hc | finish hc => exact ⟨_, registry_release hc rfl rfl⟩
  | noPages hc =>
    refine ⟨_, .kept rfl rfl rfl rfl ?_ (fun _ h => by cases h) rfl fun _ h => by cases h⟩
    rw [Action.call, hc]
    rfl
  | indexPages hc hphase =>
    refine ⟨_, .kept rfl rfl rfl rfl ?_ (fun _ h => ?_) rfl fun _ h => by cases h⟩
    · rw [Action.call, hc]
      rcases hphase with rfl | ⟨rfl, -⟩ <;> rfl
    · rcases hphase with rfl | ⟨rfl, -⟩ <;> cases h
  | collect hc hmove =>
    have hmove : GcMove s (s.calls a.call) _ := ⟨_, rfl, hf, hc ▸ hmove⟩
    obtain ⟨hentry, hsnap, hfenced⟩ := hmove.entry
    exact ⟨_, rfl, le_rfl, le_rfl, fun _ => .inl rfl, by simp [hentry], by simp [hsnap],
      by simp [hfenced], fun _ _ => .inr ⟨rfl, hmove⟩⟩
  | @retain t _ _ hc =>
    refine ⟨s.calls t, .kept (update_eq_self t s.calls).symm rfl rfl rfl rfl (fun _ h => h) ?_
      fun _ h => h⟩
    rw [hc]
    rfl

/-- Transaction ids are used once, and `active` holds for each what its call says. -/
structure Registered (s : State) : Prop where
  entry : ∀ t id e, (s.calls t).entryOf = some (id, e) → s.active id = e
  fresh : ∀ t id e, (s.calls t).entryOf = some (id, e) → id < s.nextTxnId
  active_lt : ∀ id e, s.active id = some e → id < s.nextTxnId
  unique : ∀ t t' id e e', (s.calls t).entryOf = some (id, e) →
    (s.calls t').entryOf = some (id, e') → t = t'

theorem registered_new : Registered .new where
  entry := fun _ _ _ h => by cases h
  fresh := fun _ _ _ h => by cases h
  active_lt := fun _ _ h => by cases h
  unique := fun _ _ _ _ _ h => by cases h

theorem entry_of_update {x : TxnId × Option ActiveEntry}
    (h : (update calls t call t').entryOf = some x) :
    (t' = t ∧ call.entryOf = some x) ∨ (t' ≠ t ∧ (calls t').entryOf = some x) := by
  by_cases ht : t' = t
  · subst ht
    exact .inl ⟨rfl, by simpa using h⟩
  · exact .inr ⟨ht, by simpa [ht] using h⟩

/-- The entry of the call stands under the id it had or under a new one. -/
theorem Registered.own (h : Registered s) (hr : Registry t s s' call) {e : Option ActiveEntry}
    (he : call.entryOf = some (id, e)) : s'.active id = e ∧ id < s'.nextTxnId ∧
      ((∃ e0, (s.calls t).entryOf = some (id, e0)) ∨ s.nextTxnId ≤ id) := by
  have hlt : ∀ {e0}, (s.calls t).entryOf = some (id, e0) → id < s'.nextTxnId := fun h0 =>
    lt_of_lt_of_le (h.fresh t id _ h0) hr.nextTxnId_le
  rcases hr.entry id e he with
    ⟨hactive, hold | ⟨rfl, rfl, hnew⟩⟩ | ⟨hactive, ⟨hc, -⟩ | ⟨_, hold, -⟩⟩
  · exact ⟨hactive.trans (h.entry t id e hold), hlt hold, .inl ⟨e, hold⟩⟩
  · refine ⟨hactive.trans ?_, hnew, .inr le_rfl⟩
    -- no entry has been made under the next id
    cases hact : s.active s.nextTxnId with
    | none => rfl
    | some e => exact absurd (h.active_lt _ e hact) (lt_irrefl _)
  · have hold : (s.calls t).entryOf = some (id, none) := by rw [hc]; rfl
    exact ⟨hactive, hlt hold, .inl ⟨_, hold⟩⟩
  · exact ⟨hactive, hlt hold, .inl ⟨_, hold⟩⟩

theorem Registered.of_registry (h : Registered s) (hr : Registry t s s' call) : Registered s' := by
  -- the ids of the other calls are neither the old nor a new id of this one
  have hother : ∀ t' id e, t' ≠ t → (s.calls t').entryOf = some (id, e) →
      ¬ ((∃ e0, (s.calls t).entryOf = some (id, e0)) ∨ s.nextTxnId ≤ id) := by
    rintro t' id e hne he (⟨e0, h0⟩ | hle)
    · exact hne (h.unique t' t id e e0 he h0)
    · exact not_lt.mpr hle (h.fresh t' id e he)
  refine ⟨fun t' id e he => ?_, fun t' id e he => ?_, fun id e he => ?_,
    fun t1 t2 id e1 e2 h1 h2 => ?_⟩
  · rw [hr.calls] at he
    rcases entry_of_update he with ⟨-, he⟩ | ⟨hne, he⟩
    · exact (h.own hr he).1
    · rcases hr.active id with heq | hold
      · rw [heq]
        exact h.entry t' id e he
      · exact absurd (.inl hold) (hother t' id e hne he)
  · rw [hr.calls] at he
    rcases entry_of_update he with ⟨-, he⟩ | ⟨-, he⟩
    · exact (h.own hr he).2.1
    · exact lt_of_lt_of_le (h.fresh t' id e he) hr.nextTxnId_le
  · refine lt_of_lt_of_le ?_ hr.nextTxnId_le
    rcases hr.active id with heq | ⟨e0, hold⟩
    · exact h.active_lt id e (heq ▸ he)
    · exact h.fresh t id e0 hold
  · rw [hr.calls] at h1 h2
    rcases entry_of_update h1 with ⟨rfl, h1'⟩ | ⟨hne1, h1'⟩ <;>
      rcases entry_of_update h2 with ⟨rfl, h2'⟩ | ⟨hne2, h2'⟩
    · rfl
    · exact absurd (h.own hr h1').2.2 (hother t2 id e2 hne2 h2')
    · exact absurd (h.own hr h2').2.2 (hother t1 id e1 hne1 h1')
    · exact h.unique t1 t2 id e1 e2 h1' h2'

/-! ## The scan -/

/-- Every transaction with an entry in `active` meets `P`. -/
def Met (s : State) (P : TxnId → ActiveEntry → Prop) : Prop :=
  ∀ t id e, (s.calls t).entryOf = some (id, some e) → P id e

/-- While the generation is still `gen`, no begin stands between its bump and its
sentinel. -/
structure Quiet (s : State) (gen : Nat) : Prop where
  le : gen ≤ s.beginGeneration
  none_fenced : gen = s.beginGeneration → ∀ t, (s.calls t).isFenced = false

def Noted (floor : Option Nat) (anyPending : Bool) (e : ActiveEntry) : Prop :=
  anyPending = true ∨ ∃ lsn f, e = .snapshot lsn ∧ floor = some f ∧ f ≤ lsn

/-- What a collection knows at each of its points, as long as the generation it
started from is current; the anchor it ends with bounds every snapshot. -/
def Sound (s : State) : GcPhase → Prop
  | .fenced gen => Quiet s gen
  | .scanning gen must visited floor anyPending =>
    Quiet s gen ∧ (gen = s.beginGeneration → Met s fun id _ => id ∈ must) ∧
      (Met s fun id e => id ∈ visited → Noted floor anyPending e) ∧
      (∀ id ∈ visited, id < s.nextTxnId) ∧
      ∀ t id, (s.calls t).entryOf = some (id, none) → id ∉ visited
  | .scanned gen floor anyPending =>
    Quiet s gen ∧ (gen = s.beginGeneration → Met s fun _ e => Noted floor anyPending e)
  | .empty gen => Quiet s gen ∧ (gen = s.beginGeneration → Met s fun _ _ => False)
  | .retaining anchor => ∀ t snapshot, (s.calls t).snapshot? = some snapshot → anchor ≤ snapshot

theorem isFenced_of_update (h : ∀ t, (calls t).isFenced = false) (hcall : call.isFenced = false)
    (t' : CallId) : (update calls t call t').isFenced = false := by
  rw [update_apply]
  split
  · exact hcall
  · exact h t'

theorem snapshot_of_update (h : (update calls t call t').snapshot? = some lsn) :
    call.snapshot? = some lsn ∨ (calls t').snapshot? = some lsn := by
  by_cases ht : t' = t
  · subst ht
    exact .inl (by simpa using h)
  · exact .inr (by simpa [ht] using h)

theorem Quiet.of_registry (h : Quiet s gen) (hr : Registry t s s' call) : Quiet s' gen := by
  have hle := hr.generation_le
  refine ⟨h.le.trans hle, fun hgen => ?_⟩
  have hcur : gen = s.beginGeneration := by
    have := h.le
    omega
  refine hr.calls ▸ isFenced_of_update (h.none_fenced hcur) ?_
  cases hcall : call.isFenced with
  | false => rfl
  | true =>
    have := hr.fenced hcall
    omega

/-- An entry persists, or its sentinel becomes its snapshot; a new sentinel comes
from a begin that has bumped the generation. -/
theorem Met.of_registry (h : Met s P) (hr : Registry t s s' call)
    (hup : ∀ id lsn, P id .pending → P id (.snapshot lsn))
    (hnew : ∀ t id, s.calls t = .beginning id .fenced → P id .pending) : Met s' P := by
  intro t' id e he
  rw [hr.calls] at he
  rcases entry_of_update he with ⟨-, he⟩ | ⟨-, he⟩
  · rcases hr.entry id _ he with ⟨-, he | ⟨-, he, -⟩⟩ | ⟨-, ⟨hc, he⟩ | ⟨lsn, hold, he⟩⟩
    · exact h t id e he
    · cases he
    · cases he
      exact hnew t id hc
    · cases he
      exact hup id lsn (h t id _ hold)
  · exact h t' id e he

theorem Met.of_registry_quiet (hq : Quiet s gen)
    (h : gen = s.beginGeneration → Met s P) (hr : Registry t s s' call)
    (hup : ∀ id lsn, P id .pending → P id (.snapshot lsn)) (hgen : gen = s'.beginGeneration) :
    Met s' P := by
  have hle := hr.generation_le
  have hcur : gen = s.beginGeneration := by
    have := hq.le
    omega
  refine (h hcur).of_registry hr hup fun t' id hc => ?_
  have hf := hq.none_fenced hcur t'
  rw [hc] at hf
  cases hf

theorem unentered_of_registry (hr : Registry t s s' call)
    (h : (s'.calls t').entryOf = some (id, none)) :
    id = s.nextTxnId ∨ ∃ t0, (s.calls t0).entryOf = some (id, none) := by
  rw [hr.calls] at h
  rcases entry_of_update h with ⟨-, h⟩ | ⟨-, h⟩
  · rcases hr.entry id _ h with ⟨-, h | ⟨rfl, -⟩⟩ | ⟨-, ⟨-, h⟩ | ⟨_, -, h⟩⟩
    · exact .inr ⟨t, h⟩
    · exact .inl rfl
    · cases h
    · cases h
  · exact .inr ⟨t', h⟩

theorem snapshot_of_registry (hr : Registry t s s' call) (h : (s'.calls t').snapshot? = some lsn) :
    lsn = s.visible ∨ ∃ t0, (s.calls t0).snapshot? = some lsn := by
  rw [hr.calls] at h
  rcases snapshot_of_update h with h | h
  · exact (hr.snapshot lsn h).imp_right fun h => ⟨t, h⟩
  · exact .inr ⟨t', h⟩

theorem Noted.snapshot (lsn : Nat) (h : Noted floor anyPending .pending) :
    Noted floor anyPending (.snapshot lsn) := by
  rcases h with h | ⟨_, _, h, -⟩
  · exact .inl h
  · cases h

/-- Every step keeps what a collection knows. -/
theorem Sound.of_registry (h : Sound s phase)
    (hb : (gc phase).Below s.visible) (hr : Registry t s s' call) : Sound s' phase := by
  cases phase with
  | fenced => exact .of_registry h hr
  | scanning _ _ visited =>
    obtain ⟨hq, hmust, hnoted, hlt, hout⟩ := h
    refine ⟨hq.of_registry hr, .of_registry_quiet hq hmust hr fun _ _ h => h,
      hnoted.of_registry hr (fun id lsn h hv => (h hv).snapshot lsn) ?_,
      fun id hid => lt_of_lt_of_le (hlt id hid) hr.nextTxnId_le, fun t' id he hid => ?_⟩
    · -- a begin about to insert its sentinel has not been visited
      intro t' id hc hid
      exact absurd hid (hout t' id (by rw [hc]; rfl))
    · rcases unentered_of_registry hr he with rfl | ⟨t0, h0⟩
      · exact lt_irrefl _ (hlt _ hid)
      · exact hout t0 id h0 hid
  | scanned =>
    obtain ⟨hq, hnoted⟩ := h
    exact ⟨hq.of_registry hr, .of_registry_quiet hq hnoted hr fun _ lsn h => h.snapshot lsn⟩
  | empty =>
    obtain ⟨hq, hnone⟩ := h
    exact ⟨hq.of_registry hr, .of_registry_quiet hq hnone hr fun _ _ h => h⟩
  | retaining =>
    intro t' lsn hs
    rcases snapshot_of_registry hr hs with rfl | ⟨t0, h0⟩
    · exact hb
    · exact h t0 lsn h0

theorem Noted.of_floor_le {f : Nat} (h : Noted floor anyPending e)
    (hf : ∀ f0, floor = some f0 → f ≤ f0) : Noted (some f) anyPending e := by
  rcases h with h | ⟨lsn, f0, rfl, rfl, hle⟩
  · exact .inl h
  · exact .inr ⟨lsn, f, rfl, rfl, (hf f0 rfl).trans hle⟩

theorem Sound.visit {must visited : List TxnId} {floor' : Option Nat} {anyPending' : Bool}
    (hr : Registered s) (h : Sound s (.scanning gen must visited floor anyPending))
    (hactive : s.active id = some e)
    (hkeep : ∀ e, Noted floor anyPending e → Noted floor' anyPending' e)
    (hnew : Noted floor' anyPending' e) :
    Sound s (.scanning gen must (id :: visited) floor' anyPending') := by
  obtain ⟨hq, hmust, hnoted, hlt, hout⟩ := h
  refine ⟨hq, hmust, fun t id' e' he hid => ?_, ?_, fun t id' he hid => ?_⟩
  · rcases mem_cons.mp hid with rfl | hid
    · have heq := hr.entry t id' (some e') he
      rw [hactive] at heq
      cases heq
      exact hnew
    · exact hkeep e' (hnoted t id' e' he hid)
  · exact forall_mem_cons.mpr ⟨hr.active_lt _ e hactive, hlt⟩
  · rcases mem_cons.mp hid with rfl | hid
    · have heq := hr.entry t id' none he
      rw [hactive] at heq
      cases heq
    · exact hout t id' he hid

theorem GcMove.sound (hr : Registered s)
    (hm : GcMove s old (.gc phase)) (hold : ∀ phase0, old = .gc phase0 → Sound s phase0) :
    Sound s phase := by
  obtain ⟨_, hc, hf, hm⟩ := hm
  cases hm with
  | fence => exact ⟨le_rfl, fun _ => hf⟩
  | scan _ gen =>
    have hq : Quiet s gen := hold _ rfl
    refine ⟨hq, fun _ t id e he => ?_, fun _ _ _ _ hid => absurd hid not_mem_nil,
      fun _ hid => absurd hid not_mem_nil, fun _ _ _ => not_mem_nil⟩
    have hact := hr.entry t id (some e) he
    exact mem_filter.mpr ⟨mem_range.mpr (hr.active_lt id e hact), by simp [hact]⟩
  | sentinel _ hactive =>
    exact .visit hr (hold _ rfl) hactive (fun _ _ => .inl rfl) (.inl rfl)
  | @snapshot _ _ _ _ _ floor _ lsn hactive =>
    refine .visit hr (hold _ rfl) hactive (fun e h => h.of_floor_le fun f0 hf => ?_)
      (.inr ⟨lsn, _, rfl, rfl, ?_⟩)
    · subst hf
      exact min_le_left ..
    · cases floor with
      | none => exact le_rfl
      | some f => exact min_le_right ..
  | scanned _ hmet =>
    obtain ⟨hq, hmust, hnoted, -, -⟩ := hold _ rfl
    refine ⟨hq, fun hgen t id e he => ?_⟩
    rcases hmet id (hmust hgen t id e he) with hv | hnone
    · exact hnoted t id e he hv
    · have hact := hr.entry t id (some e) he
      rw [hnone] at hact
      cases hact
  | clamp => exact fun _ _ _ => zero_le _
  | anchor _ hgen =>
    obtain ⟨-, hnoted⟩ := hold _ rfl
    intro t lsn hs
    obtain ⟨id, e, he, hcase⟩ := entry_of_snapshot hs
    rcases hnoted hgen t id e he with h | ⟨lsn', f, rfl, hf, hle⟩
    · cases h
    · cases hf
      rcases hcase with heq | heq
      · cases heq
        exact hle
      · cases heq
  | nothing _ hgen =>
    obtain ⟨hq, hnoted⟩ := hold _ rfl
    refine ⟨hq, fun _ t id e he => ?_⟩
    rcases hnoted hgen t id e he with h | ⟨_, _, -, h, -⟩ <;> cases h
  | load =>
    obtain ⟨-, hnone⟩ := hold _ rfl
    simp only [Action.call] at hc
    simp only [beginsFenced, hc] at hf
    intro t lsn hs
    obtain ⟨id, e, he, -⟩ := entry_of_snapshot hs
    exact (hnone hf t id e he).elim

/-- Everything the safety of a collection rests on. -/
structure Collecting (s : State) : Prop where
  bounded : Bounded s
  ordered : Ordered s
  registered : Registered s
  sound : ∀ t phase, s.calls t = .gc phase → Sound s phase

theorem collecting_new : Collecting .new where
  bounded := (inv_new True).bounded
  ordered := ordered_new
  registered := registered_new
  sound := fun _ _ h => by cases h

theorem Collecting.step (h : Collecting s) (hf : beginsFenced s a) (hs : s.step a = some s') :
    Collecting s' := by
  obtain ⟨-, hb, ho⟩ := h.ordered.step h.bounded hs
  obtain ⟨call, hr⟩ := step_registry hf hs
  refine ⟨hb, ho, h.registered.of_registry hr, fun t phase hc => ?_⟩
  have hcases : s.calls t = .gc phase ∨
      t = a.call ∧ s'.visible = s.visible ∧ GcMove s (s.calls a.call) (.gc phase) := by
    rw [hr.calls] at hc
    rcases of_update_eq hc with ⟨rfl, rfl⟩ | ⟨-, hold⟩
    · exact (hr.collects phase rfl).imp_right fun h => ⟨rfl, h⟩
    · exact .inl hold
  rcases hcases with hc0 | ⟨rfl, hvis, hm⟩
  · have hbelow := h.bounded.calls t
    rw [hc0] at hbelow
    exact (h.sound t phase hc0).of_registry hbelow hr
  · -- what the collection learns it learns in the state it leaves
    have hsound := hm.sound h.registered fun phase0 hc0 => h.sound _ phase0 hc0
    have hbelow := hb.calls a.call
    rw [hc, hvis] at hbelow
    exact hsound.of_registry hbelow hr

theorem collecting_of_reach (h : system.Reach beginsFenced s) : Collecting s :=
  h.invariant collecting_new fun _ _ _ hi hf hs => hi.step hf hs

/-! ## Safety -/

theorem mem_retain :
    v ∈ retain anchor chain ↔ v ∈ chain ∧ ∀ e, v.expiredLsn = some e → anchor < e := by
  cases h : v.expiredLsn <;> simp [retain, h]

/-- A version that a snapshot at or above the anchor can read stays. -/
theorem mem_retain_of_visibleTo {snapshot : Nat}
    (hv : v ∈ chain) (hle : anchor ≤ snapshot) (hvis : v.visibleTo snapshot = true) :
    v ∈ retain anchor chain := by
  refine mem_retain.mpr ⟨hv, fun e he => ?_⟩
  have := (Version.visibleTo_iff.mp hvis).2 e he
  omega

/-- Outside the two windows no step of a collection removes a version that a
transaction with a snapshot can read. -/
theorem gc_keeps_readable {s s' : State} (h : system.Reach beginsFenced s) {a : Action}
    (ha : a.isGcLocal = true ∨ a.isRetain = true) (hs : system.step s a = some s') {k : VersionKey}
    {v : Version} (hv : v ∈ s.versions k) (hgone : v ∉ s'.versions k) {t : CallId} {snapshot : Nat}
    (hsnap : (s.calls t).snapshot? = some snapshot) : v.visibleTo snapshot = false := by
  cases stepped_of_step hs with
  | @retain g key anchor hc =>
    have hanchor := (collecting_of_reach h).sound g _ hc t snapshot hsnap
    by_contra hvis
    rw [Bool.not_eq_false] at hvis
    change v ∉ s.versions.update key (retain anchor) k at hgone
    by_cases hk : k = key
    · subst hk
      rw [Versions.update_self] at hgone
      exact hgone (mem_retain_of_visibleTo hv hanchor hvis)
    · rw [Versions.update_of_ne _ _ hk] at hgone
      exact hgone hv
  | install | normalize | sidechannel | rollback | abandon | finish =>
    rcases ha with ha | ha <;> cases ha
  | _ => exact absurd hv hgone

/-- `beginsFenced` for runs of the listed calls, where it can be evaluated. -/
def beginsFencedIn (ts : List CallId) (s : State) (a : Action) : Prop :=
  a.call ∈ ts ∧
    match a with
    | .gcFence _ => ∀ t ∈ ts, (s.calls t).isFenced = false
    | .gcLoad t => s.calls t = .gc (.empty s.beginGeneration)
    | _ => True

instance (ts : List CallId) (s : State) (a : Action) : Decidable (beginsFencedIn ts s a) := by
  unfold beginsFencedIn
  cases a <;> infer_instance

theorem beginsFenced_of_listed (hidle : ∀ t, t ∉ ts → s.calls t = .idle)
    (h : beginsFencedIn ts s a) : beginsFenced s a := by
  cases a with
  | gcFence =>
    intro t
    by_cases ht : t ∈ ts
    · exact h.2 t ht
    · rw [hidle t ht]
      rfl
  | gcLoad g =>
    have hc : s.calls g = .gc (.empty s.beginGeneration) := h.2
    simp only [beginsFenced, hc]
  | _ => trivial

theorem reach_of_listed (h : system.Reach (beginsFencedIn ts) s) : system.Reach beginsFenced s := by
  refine (h.strengthen (P := fun s => ∀ t, t ∉ ts → s.calls t = .idle) (fun _ _ => rfl) ?_).1
  intro s a s' hidle hl hs
  have hf := beginsFenced_of_listed hidle hl
  refine ⟨hf, fun t ht => ?_⟩
  have hne : t ≠ a.call := fun heq => ht (heq ▸ hl.1)
  obtain ⟨_, hr⟩ := step_registry hf hs
  rw [hr.calls, update_of_ne hne]
  exact hidle t ht

/-- Key 1 is written twice, a reader begins at the second write, and a collection
sees the reader's snapshot. -/
def collectRun : List Action :=
  beginRun 0 ++ commitRun 0 (putRequest 1 42) ++ beginRun 2 ++ commitRun 2 (putRequest 1 43) ++
    beginRun 1 ++ [.gcFence 9, .gcScan 9, .gcVisit 9 3, .gcScanned 9, .gcRecheck 9]

/-- The collection removes the first version of the key, which the reader does not see. -/
theorem gc_keeps_readable_collectRun :
    ∃ s s', system.Reach beginsFenced s ∧
      s = system.after (beginsFencedIn [0, 1, 2, 9]) collectRun ∧
      system.step s (.gcRetain 9 (7, 1)) = some s' ∧ (s.calls 1).snapshot? = some 2 ∧
      ∃ v ∈ s.versions (7, 1), v ∉ s'.versions (7, 1) ∧ v.visibleTo 2 = false := by
  let s := system.after (beginsFencedIn [0, 1, 2, 9]) collectRun
  have h : system.Reach beginsFenced s := reach_of_listed (.after (by decide +kernel))
  have hs : system.step s (.gcRetain 9 (7, 1)) = some (system.next s (.gcRetain 9 (7, 1))) :=
    System.step_next (by decide +kernel)
  have hsnap : (s.calls 1).snapshot? = some 2 := by decide +kernel
  have hv : ⟨1, some 2, some [42]⟩ ∈ s.versions (7, 1) := by decide +kernel
  have hgone : ⟨1, some 2, some [42]⟩ ∉ (system.next s (.gcRetain 9 (7, 1))).versions (7, 1) := by
    decide +kernel
  exact ⟨s, _, h, rfl, hs, hsnap, _, hv, hgone, gc_keeps_readable h (.inr rfl) hs hv hgone hsnap⟩

/-- Transaction 2 is about to overwrite key 1 when transaction 1 begins. Its
begin bumps the generation, the collection reads it and scans past the place of
the sentinel, the begin reads `visible`, and transaction 2 publishes and leaves
`active` before the scan reaches it. -/
def lateSentinelRun : List Action :=
  beginRun 0 ++ commitRun 0 (putRequest 1 42) ++ beginRun 2 ++
    [.commit 2 (putRequest 1 43), .build 2 (some []), .append 2 true, .begin 1, .begin 1,
      .gcFence 9, .gcScan 9, .begin 1, .begin 1, .turn 2, .publish 2, .advance 2, .finish 2,
      .gcScanned 9, .gcRecheck 9, .gcLoad 9]

/-- The collection removes the version that transaction 1 has begun to read. -/
theorem gc_reclaims_readable :
    ∃ s s', system.Reach disciplined s ∧ system.step s (.gcRetain 9 (7, 1)) = some s' ∧
      (s.calls 1).snapshot? = some 1 ∧
      ∃ v ∈ s.versions (7, 1), v ∉ s'.versions (7, 1) ∧ v.visibleTo 1 = true := by
  let s := system.after disciplined lateSentinelRun
  have hs : system.step s (.gcRetain 9 (7, 1)) = some (system.next s (.gcRetain 9 (7, 1))) :=
    System.step_next (by decide +kernel)
  exact ⟨s, _, .after (by decide +kernel), hs, by decide +kernel,
    ⟨1, some 2, some [42]⟩, by decide +kernel, by decide +kernel, by decide⟩

/-! ## Commits and later begins -/

/-- A step keeps a call's snapshot or loads it from `visible`. -/
theorem snapshot_of_step (h : s.step a = some s') (hs : (s'.calls t).snapshot? = some lsn) :
    lsn = s.visible ∨ (s.calls t).snapshot? = some lsn := by
  cases a with
  | gcFence | gcLoad =>
    simp only [State.step, State.stepGcFence, State.stepGcLoad] at h
    split at h <;> cases h
    exact .inr ((snapshot_of_update hs).resolve_left fun h => by cases h)
  | _ =>
    obtain ⟨_, hr⟩ := step_registry (by trivial) h
    rcases of_update_eq (congrFun hr.calls t).symm with ⟨rfl, heq⟩ | ⟨-, heq⟩
    · exact hr.snapshot lsn (heq ▸ hs)
    · exact .inr (heq ▸ hs)

/-- A transaction that loads its snapshot after a commit was published sees the commit. -/
theorem snapshot_covers_published (h : system.Reach (fun _ _ => True) s)
    (hc : s.calls t = .commit c phase') (hcom : phase'.committed = true)
    (hnew : (s.calls t').snapshot? = none)
    (hrun : System.Reach ⟨s, State.step⟩ (fun _ _ => True) s')
    (hs : (s'.calls t').snapshot? = some lsn) : c.commitLsn ≤ lsn := by
  have hi := ordered_of_reach h
  have hpub := (hi.2.placed t c _ hc).published hcom
  -- `visible` stays above the commit, and so does every snapshot loaded from it
  refine (hrun.invariant (P := fun s => (Bounded s ∧ Ordered s) ∧ c.commitLsn ≤ s.visible ∧
    ∀ lsn, (s.calls t').snapshot? = some lsn → c.commitLsn ≤ lsn)
    ⟨hi, hpub, by simp [hnew]⟩ ?_).2.2 lsn hs
  rintro s a s' ⟨hi, hvis, hseen⟩ - hs
  obtain ⟨hmono, hi'⟩ := hi.2.step hi.1 hs
  refine ⟨hi', hvis.trans hmono, fun lsn hlsn => ?_⟩
  rcases snapshot_of_step hs hlsn with rfl | hold
  · exact hvis
  · exact hseen lsn hold

theorem snapshot_covers_putCommit : (putCommit 1 0 1 1 42 []).commitLsn ≤ 1 := by
  let s := system.after (fun _ _ => True) (beginRun 0 ++ commitRun 0 (putRequest 1 42))
  let s' := System.after ⟨s, State.step⟩ (fun _ _ => True) (beginRun 1)
  have hc : s.calls 0 = .commit (putCommit 1 0 1 1 42 []) (.returned none) := by decide +kernel
  have hs : (s'.calls 1).snapshot? = some 1 := by decide +kernel
  exact snapshot_covers_published (.after rfl) hc rfl (by decide +kernel) (.after rfl) hs

end ArcGraph.Mvcc
