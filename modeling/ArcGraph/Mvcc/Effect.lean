import ArcGraph.Mvcc.TxnManager

/-!
# What a step can do to the version store

The steps of the transaction manager fall into nine effects on the counter, the
watermarks, the chains and the commits in progress. `step_effect` inverts the
step function once; the invariants are proved over the effects.
-/

namespace ArcGraph.Mvcc
open Wal VersionChain List Function
variable {vs : Versions} {key : MvccKey} {delta : DeltaOp} {deltas : List DeltaOp}

namespace Versions

@[simp] theorem update_self (vs : Versions) (k : VersionKey) (f : VersionChain → VersionChain) :
    vs.update k f k = f (vs k) := by
  simp [update]

variable {k : VersionKey}

theorem update_of_ne (vs : Versions) {k' : VersionKey} (f : VersionChain → VersionChain)
    (h : k' ≠ k) : vs.update k f k' = vs k' := by
  simp [update, h]

variable {f : Option Bytes → VersionChain → VersionChain} {tenant : TenantId}
  {ws : List (MvccKey × Option Bytes)}

theorem applyWrites_of_notMem (h : ∀ key val, (key, val) ∈ ws → k ≠ (tenant, key)) :
    applyWrites f tenant ws vs k = vs k := by
  induction ws generalizing vs with
  | nil => rfl
  | cons w _ ih =>
    rw [applyWrites, ih fun key val hm => h key val (mem_cons_of_mem _ hm)]
    exact update_of_ne _ _ (h w.1 w.2 mem_cons_self)

theorem applyWrites_of_mem (hnd : (ws.map Prod.fst).Nodup)
    {val : Option Bytes} (h : (key, val) ∈ ws) :
    applyWrites f tenant ws vs (tenant, key) = f val (vs (tenant, key)) := by
  induction ws generalizing vs with
  | nil => simp at h
  | cons w _ ih =>
    obtain ⟨hw, hrest⟩ := nodup_cons.mp hnd
    rw [applyWrites]
    rcases mem_cons.mp h with rfl | h
    · rw [applyWrites_of_notMem, update_self]
      rintro key' val' hm heq
      obtain rfl : key = key' := congrArg Prod.snd heq
      exact hw (mem_map.mpr ⟨_, hm, rfl⟩)
    · rw [ih hrest h]
      have hne : key ≠ w.1 := by
        rintro rfl
        exact hw (mem_map.mpr ⟨_, h, rfl⟩)
      rw [update_of_ne _ _ (by simp [hne])]

/-- The entries stamped `lsn` are exactly the values of one write set, on
well-formed chains. -/
structure Holds (tenant : TenantId) (lsn : Nat) (values : WriteSet) (vs : Versions) : Prop where
  wellFormed : ∀ k, WellFormed (vs k)
  mem_iff : ∀ k v, (lsn, v) ∈ entries (vs k) ↔
    ∃ key, k = (tenant, key) ∧ (key, v) ∈ values.entries

def Agree (lsn : Nat) (vs vs' : Versions) : Prop :=
  ∀ k e, e.1 ≠ lsn → (e ∈ entries (vs' k) ↔ e ∈ entries (vs k))

end Versions

namespace WriteSet

theorem replace_keys (w : WriteSet) (key : MvccKey) (value : Option Bytes) :
    (w.replace key value).entries.map Prod.fst = w.entries.map Prod.fst := by
  simp only [replace, map_map]
  refine map_congr_left fun e _ => ?_
  simp only [comp]
  split <;> rfl

variable {w : WriteSet} {v : Option Bytes}

theorem mem_replace {value : Option Bytes} {k : MvccKey} (hkey : ∃ v, (key, v) ∈ w.entries) :
    (k, v) ∈ (w.replace key value).entries ↔
      (k = key ∧ v = value) ∨ (k ≠ key ∧ (k, v) ∈ w.entries) := by
  simp only [replace, mem_map]
  constructor
  · rintro ⟨e, he, heq⟩
    by_cases hk : e.1 = key
    · simp only [hk, if_true, Prod.mk.injEq] at heq
      exact .inl ⟨heq.1.symm, heq.2.symm⟩
    · simp only [hk, if_false] at heq
      subst heq
      exact .inr ⟨hk, he⟩
  · rintro (⟨rfl, rfl⟩ | ⟨hk, he⟩)
    · obtain ⟨_, hv0⟩ := hkey
      exact ⟨_, hv0, by simp⟩
    · exact ⟨_, he, by simp [hk]⟩

theorem mem_of_get? (h : w.get? key = some v) : (key, v) ∈ w.entries := by
  obtain ⟨_, _, hl, -⟩ := lookup_eq_some_iff.mp h
  rw [hl]
  exact mem_append_right _ mem_cons_self

end WriteSet

open Versions

namespace Versions
variable {tenant : TenantId} {lsn : Nat} {values values' : WriteSet} {vs' : Versions}

theorem Holds.normalizeDelta (h : Holds tenant lsn values vs)
    (hn : normalizeDelta tenant lsn (values, vs) delta = .ok (values', vs')) :
    Holds tenant lsn values' vs' ∧ Agree lsn vs vs' ∧
      values'.entries.map Prod.fst = values.entries.map Prod.fst := by
  unfold Versions.normalizeDelta at hn
  split at hn
  · cases hn
  · cases hn
    exact ⟨h, fun _ _ _ => .rfl, rfl⟩
  · rename_i key value _
    split at hn
    · rename_i original hget
      split at hn
      · cases hn
        have hkey : ∃ v, (key, v) ∈ values.entries := ⟨_, WriteSet.mem_of_get? hget⟩
        have hset := (h.wellFormed (tenant, key)).setValue lsn (some value)
        refine ⟨⟨fun k => ?_, fun k v => ?_⟩, fun k e he => ?_, WriteSet.replace_keys ..⟩
        · by_cases hk : k = (tenant, key)
          · subst hk
            rw [update_self]
            exact hset.1
          · rw [update_of_ne _ _ hk]
            exact h.wellFormed k
        · by_cases hk : k = (tenant, key)
          · subst hk
            rw [update_self, hset.2, mem_map_setEntry]
            have hold : ∃ v, (lsn, v) ∈ entries (vs (tenant, key)) := by
              obtain ⟨v, hv⟩ := hkey
              exact ⟨v, (h.mem_iff _ v).mpr ⟨key, rfl, hv⟩⟩
            simp [WriteSet.mem_replace hkey, hold]
          · rw [update_of_ne _ _ hk, h.mem_iff k v]
            refine exists_congr fun key' => and_congr_right fun hk' => ?_
            have hne : key' ≠ key := by
              rintro rfl
              exact hk hk'
            simp [WriteSet.mem_replace hkey, hne]
        · by_cases hk : k = (tenant, key)
          · subst hk
            rw [update_self, hset.2, mem_map_setEntry]
            have hne : e ≠ (lsn, some value) := by
              rintro rfl
              exact he rfl
            simp [he, hne]
          · rw [update_of_ne _ _ hk]
      · cases hn
        exact ⟨h, fun _ _ _ => .rfl, rfl⟩
    · cases hn
      exact ⟨h, fun _ _ _ => .rfl, rfl⟩

theorem Holds.normalize (h : Holds tenant lsn values vs)
    (hn : normalize tenant lsn deltas (values, vs) = .ok (values', vs')) :
    Holds tenant lsn values' vs' ∧ Agree lsn vs vs' ∧
      values'.entries.map Prod.fst = values.entries.map Prod.fst := by
  induction deltas generalizing values vs with
  | nil =>
    cases hn
    exact ⟨h, fun _ _ _ => .rfl, rfl⟩
  | cons _ _ ih =>
    simp only [normalize] at hn
    split at hn
    · cases hn
    · rename_i st hst
      obtain ⟨h1, hag1, hk1⟩ := h.normalizeDelta hst
      obtain ⟨h2, hag2, hk2⟩ := ih h1 hn
      exact ⟨h2, fun k e he => (hag2 k e he).trans (hag1 k e he), hk2.trans hk1⟩

end Versions

/-! ## Effects -/

namespace Call

def IsCommit : Call → Prop
  | .commit _ _ => True
  | _ => False

/-- Every LSN a call has read from `visible`, directly or through `active`, lies
at or below `v`. -/
def Below (v : Nat) : Call → Prop
  | .beginning _ (.loaded snapshot) => snapshot ≤ v
  | .active _ snapshot => snapshot ≤ v
  | .conflicted _ snapshot => snapshot ≤ v
  | .commit c _ => c.snapshot ≤ v
  | .gc (.scanning _ _ _ floor _) => ∀ f, floor = some f → f ≤ v
  | .gc (.scanned _ floor _) => ∀ f, floor = some f → f ≤ v
  | .gc (.retaining anchor) => anchor ≤ v
  | _ => True

theorem Below.mono {call : Call} {v v' : Nat} (h : call.Below v) (hv : v ≤ v') : call.Below v' := by
  unfold Below at h ⊢
  split <;> simp_all only
  all_goals first
    | omega
    | exact fun f hf => Nat.le_trans (h f hf) hv

end Call

/-- The snapshots in `active` and those in the calls' locals were read from
`visible`. -/
structure Bounded (s : State) : Prop where
  calls : ∀ t, (s.calls t).Below s.visible
  active : ∀ id lsn, s.active id = some (.snapshot lsn) → lsn ≤ s.visible

/-- The counter, the watermarks and the chains are untouched. -/
structure Frame (s s' : State) : Prop where
  counter : s'.counter = s.counter
  visible : s'.visible = s.visible
  installOrder : s'.installOrder = s.installOrder
  versions : s'.versions = s.versions

/-- The moves of one commit that touch no shared field but `active`. It is
abandoned only if `left` holds. -/
inductive Move (left : Prop) (s : State) (c : Commit) : Phase → Commit → Phase → Prop
  | stage (sidechannel : List SideChannelWrite) :
      Move left s c .installed { c with sidechannel := sidechannel } .staged
  | builderError : Move left s c .installed c (.decided (some .builder))
  | abandon (e : CommitError) (hleft : left) : Move left s c .installed c (.abandoned e)
  | append (err : Option CommitError) : Move left s c .staged c (.decided err)
  | apply (h : c.range.predecessor ≤ s.installOrder) :
      Move left s c (.decided none) c (.applying [] c.sidechannel)
  | unwind (e : CommitError) (h : c.range.predecessor ≤ s.installOrder) :
      Move left s c (.decided (some e)) c (.unwinding e)
  | finish (err : Option CommitError) : Move left s c (.advanced err) c (.returned err)

/-- What one step does to everything but `active`, the generation and the
transaction ids. Versions are reclaimed only if `gc` holds, side-channel writes
are known to meet their assertion if `asserted` does, and a commit leaves without
handing its turn over only if `left` does. -/
inductive Effect (gc asserted left : Prop) (s s' : State) : Prop
  | quiet (t : CallId) (call : Call) (hold : ¬ (s.calls t).IsCommit) (hnew : ¬ call.IsCommit)
      (calls : s'.calls = update s.calls t call) (frame : Frame s s')
  | opened (t : CallId) (c : Commit) (phase : Phase) (hold : ¬ (s.calls t).IsCommit)
      (hphase : phase = .installed ∨ phase = .staged ∨ ∃ e, phase = .abandoned e ∧ left)
      (hbase : c.range.base = s.counter + 1) (hvalues : c.values = c.writes)
      (hsup : c.superseded = s.versions.superseded c.tenant c.writes)
      (hsnapshot : c.snapshot ≤ s.visible)
      (hvalid : s.versions.validates c.tenant c.snapshot c.writes = true)
      (calls : s'.calls = update s.calls t (.commit c phase))
      (counter : s'.counter = c.commitLsn) (visible : s'.visible = s.visible)
      (installOrder : s'.installOrder = s.installOrder)
      (versions : s'.versions = s.versions.installWrites c.tenant c.commitLsn c.writes)
  | moved (t : CallId) (c c' : Commit) (phase phase' : Phase)
      (call : s.calls t = .commit c phase) (move : Move left s c phase c' phase')
      (calls : s'.calls = update s.calls t (.commit c' phase')) (frame : Frame s s')
  | normalized (t : CallId) (c : Commit) (values : WriteSet) (vs : Versions)
      (sidechannel : List SideChannelWrite) (deltas : List DeltaOp)
      (call : s.calls t = .commit c .installed)
      (hn : normalize c.tenant c.commitLsn deltas (c.values, s.versions) =
        .ok (values, vs))
      (calls : s'.calls = update s.calls t
        (.commit { c with values := values, sidechannel := sidechannel } .staged))
      (counter : s'.counter = s.counter) (visible : s'.visible = s.visible)
      (installOrder : s'.installOrder = s.installOrder) (versions : s'.versions = vs)
  | sidechannel (t : CallId) (c : Commit) (applied : List SideChannelWrite)
      (w : SideChannelWrite) (rest : List SideChannelWrite)
      (call : s.calls t = .commit c (.applying applied (w :: rest)))
      (hlast : asserted →
        ∀ v, (s.versions w.versionKey).getLast? = some v → v.createdLsn < c.commitLsn)
      (calls : s'.calls = update s.calls t (.commit c (.applying (applied ++ [w]) rest)))
      (counter : s'.counter = s.counter) (visible : s'.visible = s.visible)
      (installOrder : s'.installOrder = s.installOrder)
      (versions : s'.versions =
        s.versions.update w.versionKey (install c.commitLsn w.value))
  | published (t : CallId) (c : Commit) (applied : List SideChannelWrite)
      (call : s.calls t = .commit c (.applying applied []))
      (calls : s'.calls = update s.calls t (.commit c .published))
      (counter : s'.counter = s.counter) (visible : s'.visible = c.commitLsn)
      (installOrder : s'.installOrder = s.installOrder) (versions : s'.versions = s.versions)
  | rolledBack (t : CallId) (c : Commit) (e : CommitError)
      (call : s.calls t = .commit c (.unwinding e))
      (calls : s'.calls = update s.calls t (.commit c (.rolledBack e)))
      (counter : s'.counter = s.counter) (visible : s'.visible = s.visible)
      (installOrder : s'.installOrder = s.installOrder)
      (versions : s'.versions = s.versions.rollbackWrites c.tenant c.commitLsn c.writes)
  | advanced (t : CallId) (c : Commit) (phase : Phase) (err : Option CommitError)
      (call : s.calls t = .commit c phase)
      (hphase : (phase = .published ∧ err = none) ∨ ∃ e, phase = .rolledBack e ∧ err = some e)
      (calls : s'.calls = update s.calls t (.commit c (.advanced err)))
      (counter : s'.counter = s.counter) (visible : s'.visible = s.visible)
      (installOrder : s'.installOrder = max s.installOrder c.commitLsn)
      (versions : s'.versions = s.versions)
  | retained (hgc : gc) (key : VersionKey) (anchor : Nat) (hanchor : anchor ≤ s.visible)
      (calls : s'.calls = s.calls) (counter : s'.counter = s.counter)
      (visible : s'.visible = s.visible) (installOrder : s'.installOrder = s.installOrder)
      (versions : s'.versions = s.versions.update key (retain anchor))

variable (s : State)

/-- The debug assertion of `apply_sidechannel_mvcc_write`, whose callers promise
to serialise the writes of a key: the chain ends below the commit LSN. -/
def State.sidechannelOrdered : Action → Bool
  | .sidechannel t =>
    match s.calls t with
    | .commit c (.applying _ (w :: _)) =>
      ((s.versions w.versionKey).getLast?).all fun v => decide (v.createdLsn < c.commitLsn)
    | _ => true
  | _ => true

/-- The exits that leave a range allocated and its turn kept: a write of another
tenant on the standalone index path, and an intent its format refuses. -/
def State.leavesTurn : Action → Bool
  | .indexPages _ _ sidechannel => !sidechannel.all fun w => w.tenantId = TenantId.system
  | .assign t =>
    match s.calls t with
    | .commit c .installed =>
      c.format.any fun format => (assignIntents c.range format 0 c.intents).isNone
    | _ => false
  | _ => false

theorem frame_setCall (t : CallId) (call : Call) : Frame s (s.setCall t call) :=
  ⟨rfl, rfl, rfl, rfl⟩

variable (txn : Option TxnId)

theorem frame_release (t : CallId) (call : Call) : Frame s ((s.release txn).setCall t call) := by
  cases txn <;> exact ⟨rfl, rfl, rfl, rfl⟩

theorem calls_release (t : CallId) (call : Call) :
    ((s.release txn).setCall t call).calls = update s.calls t call := by
  cases txn <;> rfl

variable {s s' : State} {t : CallId} {asserted gc : Prop} {format : DeltaFormat} {a : Action}

theorem effect_quiet {left : Prop} {old : Call} (call : Call) (hold : s.calls t = old)
    (ho : ¬ old.IsCommit) (hn : ¬ call.IsCommit)
    (hcalls : s'.calls = update s.calls t call) (hframe : Frame s s') :
    Effect gc asserted left s s' :=
  .quiet t call (hold ▸ ho) hn hcalls hframe

def Action.call : Action → CallId
  | .begin t | .abort t | .commit t _ | .build t _ | .assign t | .append t _ | .turn t
  | .sidechannel t | .publish t | .rollback t | .advance t | .finish t | .indexPages t _ _
  | .gcFence t | .gcScan t | .gcVisit t _ | .gcScanned t | .gcRecheck t | .gcLoad t
  | .gcRetain t _ | .gcDone t => t

def Action.isRetain : Action → Bool
  | .gcRetain _ _ => true
  | _ => false

/-- The steps that compute the anchor of a collection. -/
def Action.isGcLocal : Action → Bool
  | .gcFence _ | .gcScan _ | .gcVisit _ _ | .gcScanned _ | .gcRecheck _ | .gcLoad _
  | .gcDone _ => true
  | _ => false

theorem validates_of_assignIntents {range : RedoLsnRange} {index : Nat}
    {intents : List DeltaIntent} {ops : List DeltaOp}
    (h : assignIntents range format index intents = some ops) :
    ∀ op ∈ ops, op.validateForFormat format = .ok () := by
  induction intents generalizing index ops with
  | nil =>
    cases h
    simp
  | cons _ _ ih =>
    simp only [assignIntents] at h
    split at h
    · cases h
    · split at h
      · cases h
      · rename_i op hop
        obtain ⟨_, hops', rfl⟩ := Option.map_eq_some_iff.mp h
        refine forall_mem_cons.mpr ⟨?_, ih hops'⟩
        exact DeltaIntent.validate_of_assignForFormat hop

variable (tenant : TenantId)

theorem Versions.normalizeDelta_ok (lsn : Nat) (st : WriteSet × Versions)
    (h : delta.validateForFormat format = .ok ()) :
    ∃ st', normalizeDelta tenant lsn st delta = .ok st' := by
  obtain ⟨w, hw⟩ := putRecordMvccWrite_ok h
  unfold normalizeDelta
  rw [hw]
  cases w with
  | none => exact ⟨st, rfl⟩
  | some =>
    simp only
    split
    · split <;> exact ⟨_, rfl⟩
    · exact ⟨_, rfl⟩

theorem Versions.normalize_ok (lsn : Nat)
    (st : WriteSet × Versions) (h : ∀ op ∈ deltas, op.validateForFormat format = .ok ()) :
    ∃ st', normalize tenant lsn deltas st = .ok st' := by
  induction deltas generalizing st with
  | nil => exact ⟨st, rfl⟩
  | cons delta _ ih =>
    obtain ⟨st1, hst1⟩ := normalizeDelta_ok tenant lsn st (h delta mem_cons_self)
    rw [normalize, hst1]
    exact ih st1 fun op hop => h op (mem_cons_of_mem _ hop)

/-! ## Inversion of the step function -/

/-- How a collection goes on before it touches a chain. -/
inductive Collects (s : State) : Action → Call → Call → Prop
  | fence (t : CallId) : Collects s (.gcFence t) .idle (.gc (.fenced s.beginGeneration))
  | scan (t : CallId) (gen : Nat) :
    Collects s (.gcScan t) (.gc (.fenced gen)) (.gc (.scanning gen s.activeIds [] none false))
  | sentinel (t : CallId) {id : TxnId} {gen : Nat} {must visited : List TxnId}
    {floor : Option Nat} {anyPending : Bool} (hactive : s.active id = some .pending) :
    Collects s (.gcVisit t id) (.gc (.scanning gen must visited floor anyPending))
      (.gc (.scanning gen must (id :: visited) floor true))
  | snapshot (t : CallId) {id : TxnId} {gen : Nat} {must visited : List TxnId}
    {floor : Option Nat} {anyPending : Bool} {lsn : Nat}
    (hactive : s.active id = some (.snapshot lsn)) :
    Collects s (.gcVisit t id) (.gc (.scanning gen must visited floor anyPending))
      (.gc (.scanning gen must (id :: visited) (some (floor.elim lsn fun f => min f lsn))
        anyPending))
  | scanned (t : CallId) {gen : Nat} {must visited : List TxnId} {floor : Option Nat}
    {anyPending : Bool} (hmet : ∀ id ∈ must, id ∈ visited ∨ s.active id = none) :
    Collects s (.gcScanned t) (.gc (.scanning gen must visited floor anyPending))
      (.gc (.scanned gen floor anyPending))
  | clamp (t : CallId) {gen : Nat} {floor : Option Nat} {anyPending : Bool} :
    Collects s (.gcRecheck t) (.gc (.scanned gen floor anyPending)) (.gc (.retaining 0))
  | anchor (t : CallId) {gen f : Nat} (hgen : gen = s.beginGeneration) :
    Collects s (.gcRecheck t) (.gc (.scanned gen (some f) false)) (.gc (.retaining f))
  | nothing (t : CallId) {gen : Nat} (hgen : gen = s.beginGeneration) :
    Collects s (.gcRecheck t) (.gc (.scanned gen none false)) (.gc (.empty gen))
  | load (t : CallId) (gen : Nat) :
    Collects s (.gcLoad t) (.gc (.empty gen)) (.gc (.retaining s.visible))
  | done (t : CallId) (anchor : Nat) : Collects s (.gcDone t) (.gc (.retaining anchor)) .ended

/-- What an action does, and when. -/
inductive Stepped (s : State) : Action → State → Prop
  | allocate {t : CallId} (hc : s.calls t = .idle) :
    Stepped s (.begin t)
      ({ s with nextTxnId := s.nextTxnId + 1 }.setCall t (.beginning s.nextTxnId .allocated))
  | bump {t : CallId} {id : TxnId} (hc : s.calls t = .beginning id .allocated) :
    Stepped s (.begin t)
      ({ s with beginGeneration := s.beginGeneration + 1 }.setCall t (.beginning id .fenced))
  | announce {t : CallId} {id : TxnId} (hc : s.calls t = .beginning id .fenced) :
    Stepped s (.begin t) ((s.setActive id (some .pending)).setCall t (.beginning id .pending))
  | load {t : CallId} {id : TxnId} (hc : s.calls t = .beginning id .pending) :
    Stepped s (.begin t) (s.setCall t (.beginning id (.loaded s.visible)))
  | enter {t : CallId} {id : TxnId} {snapshot : Nat}
    (hc : s.calls t = .beginning id (.loaded snapshot)) :
    Stepped s (.begin t)
      ((s.setActive id (some (.snapshot snapshot))).setCall t (.active id snapshot))
  | quit {a : Action} {id : TxnId} {snapshot : Nat}
    (hc : s.calls a.call = .active id snapshot ∨ s.calls a.call = .conflicted id snapshot) :
    Stepped s a ((s.setActive id none).setCall a.call .ended)
  | conflict {t : CallId} {req : CommitRequest} {id : TxnId} {snapshot : Nat}
    (hc : s.calls t = .active id snapshot) :
    Stepped s (.commit t req) (s.setCall t (.conflicted id snapshot))
  | install {t : CallId} {req : CommitRequest} {id : TxnId} {snapshot : Nat}
    (sidechannel : List SideChannelWrite) (intents : List DeltaIntent) (opCount : Nat)
    (hc : s.calls t = .active id snapshot)
    (hvalid : s.versions.validates req.tenant snapshot req.writes = true) :
    Stepped s (.commit t req)
      (s.install t (s.phase1 id snapshot req sidechannel intents opCount))
  | move {a : Action} {c c' : Commit} {phase phase' : Phase}
    (hc : s.calls a.call = .commit c phase) (hmove : ∀ left, Move left s c phase c' phase')
    (hphase : ∀ err, phase ≠ .advanced err) : Stepped s a (s.setCall a.call (.commit c' phase'))
  | abandon {t : CallId} {c : Commit} (hc : s.calls t = .commit c .installed)
    (hleaves : s.leavesTurn (.assign t) = true) :
    Stepped s (.assign t)
      ((s.release c.txn).setCall t (.commit c (.abandoned .invalidDeltaIntent)))
  | normalize {t : CallId} {c : Commit} {values : WriteSet} {vs : Versions}
    {deltas : List DeltaOp} (hc : s.calls t = .commit c .installed)
    (hn : normalize c.tenant c.commitLsn deltas (c.values, s.versions) =
      .ok (values, vs)) :
    Stepped s (.assign t) ({ s with versions := vs }.setCall t (.commit { c with
      values := values
      sidechannel := SideChannelWrite.coalesce c.sidechannel } .staged))
  | sidechannel {t : CallId} {c : Commit} {applied : List SideChannelWrite}
    {w : SideChannelWrite} {rest : List SideChannelWrite}
    (hc : s.calls t = .commit c (.applying applied (w :: rest))) :
    Stepped s (.sidechannel t) ({ s with
      versions := s.versions.update w.versionKey
        (install c.commitLsn w.value) }.setCall t
          (.commit c (.applying (applied ++ [w]) rest)))
  | publish {t : CallId} {c : Commit} {applied : List SideChannelWrite}
    (hc : s.calls t = .commit c (.applying applied [])) :
    Stepped s (.publish t) ({ s with visible := c.commitLsn }.setCall t (.commit c .published))
  | rollback {t : CallId} {c : Commit} {e : CommitError}
    (hc : s.calls t = .commit c (.unwinding e)) :
    Stepped s (.rollback t) ({ s with
      versions := s.versions.rollbackWrites c.tenant c.commitLsn c.writes }.setCall t
        (.commit c (.rolledBack e)))
  | advance {t : CallId} {c : Commit} {phase : Phase} {err : Option CommitError}
    (hc : s.calls t = .commit c phase)
    (hphase : (phase = .published ∧ err = none) ∨ ∃ e, phase = .rolledBack e ∧ err = some e) :
    Stepped s (.advance t) ({ s with installOrder := max s.installOrder c.commitLsn }.setCall t
      (.commit c (.advanced err)))
  | finish {t : CallId} {c : Commit} {err : Option CommitError}
    (hc : s.calls t = .commit c (.advanced err)) :
    Stepped s (.finish t) ((s.release c.txn).setCall t (.commit c (.returned err)))
  | noPages {t : CallId} {hasStaged : Bool} {sidechannel : List SideChannelWrite}
    (hc : s.calls t = .idle) : Stepped s (.indexPages t hasStaged sidechannel) (s.setCall t .ended)
  | indexPages {t : CallId} {hasStaged : Bool} {sidechannel : List SideChannelWrite}
    {phase : Phase} (hc : s.calls t = .idle)
    (hphase : phase = .staged ∨ phase = .abandoned .nonSystemTenant ∧
      s.leavesTurn (.indexPages t hasStaged sidechannel) = true) :
    Stepped s (.indexPages t hasStaged sidechannel)
      ({ s with counter := (s.indexCommit sidechannel).commitLsn }.setCall t
        (.commit (s.indexCommit sidechannel) phase))
  | collect {a : Action} {old call : Call} (hc : s.calls a.call = old)
    (hmove : Collects s a old call) : Stepped s a (s.setCall a.call call)
  | retain {t : CallId} {key : VersionKey} {anchor : Nat}
    (hc : s.calls t = .gc (.retaining anchor)) :
    Stepped s (.gcRetain t key)
      { s with versions := s.versions.update key (retain anchor) }

open State

theorem stepped_commit {req : CommitRequest} (h : s.stepCommit t req = some s') :
    Stepped s (.commit t req) s' := by
  unfold stepCommit at h
  split at h
  · rename_i hc
    split at h
    · cases h
      exact .quit (.inl hc)
    · split at h
      · rename_i hvalid
        split at h
        · cases h
          exact .install _ _ _ hc hvalid
        · split at h <;> cases h
          · exact .quit (.inl hc)
          · exact .install _ _ _ hc hvalid
      · cases h
        exact .conflict hc
  · cases h

theorem stepped_assign (h : s.stepAssign t = some s') : Stepped s (.assign t) s' := by
  unfold stepAssign at h
  split at h
  · rename_i c hc
    split at h
    · cases h
    · rename_i format hf
      split at h
      · rename_i hnone
        cases h
        exact .abandon hc (by simp [leavesTurn, hc, hf, hnone])
      · rename_i deltas hd
        obtain ⟨_, hst⟩ := normalize_ok c.tenant c.commitLsn (c.values, s.versions)
          (validates_of_assignIntents hd)
        split at h
        · rename_i hn
          rw [hst] at hn
          cases hn
        · rename_i hn
          cases h
          exact .normalize hc hn
  · cases h

theorem stepped_indexPages {hasStaged : Bool} {sidechannel : List SideChannelWrite}
    (h : s.stepIndexPages t hasStaged sidechannel = some s') :
    Stepped s (.indexPages t hasStaged sidechannel) s' := by
  unfold stepIndexPages at h
  split at h
  · rename_i hc
    split at h
    · cases h
      exact .noPages hc
    · simp only at h
      split at h
      · cases h
        exact .indexPages hc (.inl rfl)
      · rename_i htenant
        cases h
        exact .indexPages hc (.inr ⟨rfl, by simpa [leavesTurn] using htenant⟩)
  · cases h

theorem stepped_gcVisit {id : TxnId} (h : s.stepGcVisit t id = some s') :
    Stepped s (.gcVisit t id) s' := by
  unfold stepGcVisit at h
  split at h
  · rename_i hc
    split at h
    · cases h
    · split at h <;> cases h
      · rename_i hactive
        exact .collect (a := .gcVisit t id) hc (.sentinel t hactive)
      · rename_i hactive
        exact .collect (a := .gcVisit t id) hc (.snapshot t hactive)
  · cases h

theorem stepped_gcScanned (h : s.stepGcScanned t = some s') : Stepped s (.gcScanned t) s' := by
  unfold stepGcScanned at h
  split at h
  · rename_i must visited _ _ hc
    split at h <;> cases h
    rename_i hall
    have hmet : ∀ id ∈ must, id ∈ visited ∨ s.active id = none := by
      intro id hid
      simpa using all_eq_true.mp hall id hid
    exact .collect (a := .gcScanned t) hc (.scanned t hmet)
  · cases h

theorem stepped_gcRecheck (h : s.stepGcRecheck t = some s') : Stepped s (.gcRecheck t) s' := by
  unfold stepGcRecheck at h
  split at h
  · rename_i hc
    split at h
    · cases h
      exact .collect (a := .gcRecheck t) hc (.clamp t)
    · rename_i hgen
      rw [not_not] at hgen
      split at h
      · cases h
        exact .collect (a := .gcRecheck t) hc (.clamp t)
      · rename_i hpending
        rw [Bool.not_eq_true] at hpending
        subst hpending
        split at h <;> cases h
        · exact .collect (a := .gcRecheck t) hc (.anchor t hgen)
        · exact .collect (a := .gcRecheck t) hc (.nothing t hgen)
  · cases h

theorem stepped_of_step (h : s.step a = some s') : Stepped s a s' := by
  cases a with
  | commit => exact stepped_commit h
  | assign => exact stepped_assign h
  | indexPages => exact stepped_indexPages h
  | gcVisit => exact stepped_gcVisit h
  | gcScanned => exact stepped_gcScanned h
  | gcRecheck => exact stepped_gcRecheck h
  | begin =>
    simp only [step, stepBegin] at h
    split at h <;> cases h <;> rename_i hc
    · exact .allocate hc
    · exact .bump hc
    · exact .announce hc
    · exact .load hc
    · exact .enter hc
  | abort t =>
    simp only [step, stepAbort] at h
    split at h <;> cases h <;> rename_i hc
    · exact .quit (a := .abort t) (.inl hc)
    · exact .quit (a := .abort t) (.inr hc)
  | build t =>
    simp only [step, stepBuild] at h
    split at h
    · rename_i hc
      split at h
      · cases h
      · split at h <;> cases h
        · exact .move (a := .build t none) hc (fun _ => .builderError) (by simp)
        · exact .move (a := .build t _) hc (fun _ => .stage _) (by simp)
    · cases h
  | append t ok =>
    simp only [step, stepAppend] at h
    split at h <;> cases h
    rename_i hc
    exact .move (a := .append t ok) hc (fun _ => .append _) (by simp)
  | turn t =>
    simp only [step, stepTurn] at h
    split at h
    · rename_i hc
      split at h
      · rename_i hturn
        split at h <;> cases h
        · exact .move (a := .turn t) hc (fun _ => .apply hturn) (by simp)
        · exact .move (a := .turn t) hc (fun _ => .unwind _ hturn) (by simp)
      · cases h
    · cases h
  | sidechannel =>
    simp only [step, stepSidechannel] at h
    split at h <;> cases h
    rename_i hc
    exact .sidechannel hc
  | publish =>
    simp only [step, stepPublish] at h
    split at h <;> cases h
    rename_i hc
    exact .publish hc
  | rollback =>
    simp only [step, stepRollback] at h
    split at h <;> cases h
    rename_i hc
    exact .rollback hc
  | advance =>
    simp only [step, stepAdvance] at h
    split at h <;> cases h <;> rename_i hc
    · exact .advance hc (.inl ⟨rfl, rfl⟩)
    · exact .advance hc (.inr ⟨_, rfl, rfl⟩)
  | finish =>
    simp only [step, stepFinish] at h
    split at h <;> cases h
    rename_i hc
    exact .finish hc
  | gcFence t =>
    simp only [step, stepGcFence] at h
    split at h <;> cases h
    rename_i hc
    exact .collect (a := .gcFence t) hc (.fence t)
  | gcScan t =>
    simp only [step, stepGcScan] at h
    split at h <;> cases h
    rename_i hc
    exact .collect (a := .gcScan t) hc (.scan t _)
  | gcLoad t =>
    simp only [step, stepGcLoad] at h
    split at h <;> cases h
    rename_i hc
    exact .collect (a := .gcLoad t) hc (.load t _)
  | gcDone t =>
    simp only [step, stepGcDone] at h
    split at h <;> cases h
    rename_i hc
    exact .collect (a := .gcDone t) hc (.done t _)
  | gcRetain =>
    simp only [step, stepGcRetain] at h
    split at h <;> cases h
    rename_i hc
    exact .retain hc

theorem step_effect {left : Prop} (hb : Bounded s)
    (hd : asserted → s.sidechannelOrdered a = true) (hgc : a.isRetain = true → gc)
    (hl : s.leavesTurn a = true → left) (h : s.step a = some s') :
    Effect gc asserted left s s' := by
  cases stepped_of_step h with
  | allocate hc | bump hc | announce hc | load hc | enter hc | conflict hc | noPages hc =>
    exact effect_quiet _ hc (by simp [Call.IsCommit]) (by simp [Call.IsCommit]) rfl
      ⟨rfl, rfl, rfl, rfl⟩
  | quit hc =>
    rcases hc with hc | hc
    all_goals
      exact effect_quiet _ hc (by simp [Call.IsCommit]) (by simp [Call.IsCommit]) rfl
        ⟨rfl, rfl, rfl, rfl⟩
  | @install t req id snapshot sidechannel intents opCount hc hvalid =>
    have hsnap := hb.calls t
    rw [hc] at hsnap
    exact .opened t (s.phase1 id snapshot req sidechannel intents opCount) .installed
      (by simp [hc, Call.IsCommit]) (.inl rfl) rfl rfl rfl hsnap hvalid rfl rfl rfl rfl rfl
  | move hc hmove => exact .moved _ _ _ _ _ hc (hmove left) rfl (frame_setCall ..)
  | abandon hc hleaves =>
    exact .moved _ _ _ _ _ hc (.abandon _ (hl hleaves)) (calls_release ..) (frame_release ..)
  | finish hc => exact .moved _ _ _ _ _ hc (.finish _) (calls_release ..) (frame_release ..)
  | normalize hc hn => exact .normalized _ _ _ _ _ _ hc hn rfl rfl rfl rfl rfl
  | sidechannel hc =>
    refine .sidechannel _ _ _ _ _ hc ?_ rfl rfl rfl rfl rfl
    intro ha v hv
    simpa [sidechannelOrdered, hc, hv] using hd ha
  | publish hc => exact .published _ _ _ hc rfl rfl rfl rfl rfl
  | rollback hc => exact .rolledBack _ _ _ hc rfl rfl rfl rfl rfl
  | advance hc hphase => exact .advanced _ _ _ _ hc hphase rfl rfl rfl rfl rfl
  | @indexPages t _ sidechannel phase hc hphase =>
    refine .opened t (s.indexCommit sidechannel) phase (by simp [hc, Call.IsCommit]) ?_ rfl rfl rfl
      (Nat.zero_le _) rfl rfl rfl rfl rfl rfl
    rcases hphase with rfl | ⟨rfl, hleaves⟩
    · exact .inr (.inl rfl)
    · exact .inr (.inr ⟨_, rfl, hl hleaves⟩)
  | @collect _ old call hc hmove =>
    have hquiet : ¬ old.IsCommit ∧ ¬ call.IsCommit := by cases hmove <;> simp [Call.IsCommit]
    exact effect_quiet call hc hquiet.1 hquiet.2 rfl (frame_setCall ..)
  | @retain t key anchor hc =>
    have hanchor := hb.calls t
    rw [hc] at hanchor
    exact .retained (hgc rfl) key anchor hanchor rfl rfl rfl rfl rfl

end ArcGraph.Mvcc
