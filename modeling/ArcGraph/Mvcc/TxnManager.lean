import ArcGraph.Foundation.System
import ArcGraph.Mvcc.Version
import ArcGraph.Wal.Delta

/-!
# The transaction manager as a transition system

The state holds the shared fields of `TxnManager` and, for every call in
progress, its program counter with the locals it still needs. An action is one
atomic access to the shared fields by one call. The sections the source runs
under `commit_gate` (validation with allocation and install, delta normalisation,
rollback) are one action each; everything else that a concurrent call can
observe in between is an action of its own: the four accesses of `begin_inner`,
the visits of the `active` scan, every side-channel write, the store to
`visible`, the hand-over of the install turn and the removal from `active`. The
64-bit counters of the source, the begin generation among them, are taken not to wrap.
-/

namespace ArcGraph.Mvcc
open Wal Function List VersionChain

abbrev TxnId := Nat

/-- The buffered primary writes of a transaction: a hash map, listed in the order
one iteration visits it. -/
structure WriteSet where
  entries : List (MvccKey × Option Bytes)
  nodup : (entries.map Prod.fst).Nodup
deriving DecidableEq

namespace WriteSet

def empty : WriteSet := ⟨[], nodup_nil⟩

def get? (w : WriteSet) (key : MvccKey) : Option (Option Bytes) := w.entries.lookup key

def replace (w : WriteSet) (key : MvccKey) (value : Option Bytes) : WriteSet where
  entries := w.entries.map fun e => if e.1 = key then (e.1, value) else e
  nodup := by
    have hfst : (w.entries.map fun e => if e.1 = key then (e.1, value) else e).map Prod.fst
        = w.entries.map Prod.fst := by
      rw [map_map]
      refine map_congr_left fun e _ => ?_
      simp only [comp]
      split <;> rfl
    rw [hfst]
    exact w.nodup

end WriteSet

namespace SideChannelWrite

def coalesce : List SideChannelWrite → List SideChannelWrite
  | [] => []
  | w :: rest =>
    if rest.any fun x => x.versionKey = w.versionKey then coalesce rest
    else w :: coalesce rest

end SideChannelWrite

abbrev Versions := VersionKey → VersionChain

namespace Versions
variable (vs : Versions)

def update (k : VersionKey) (f : VersionChain → VersionChain) : Versions :=
  Function.update vs k (f (vs k))

variable (tenant : TenantId)

/-- The conflict test: no chain ends above the snapshot. -/
def validates (snapshot : Nat) (writes : WriteSet) : Bool :=
  writes.entries.all fun w =>
    ((vs (tenant, w.1)).getLast?).all fun last => decide (last.createdLsn ≤ snapshot)

def applyWrites (f : Option Bytes → VersionChain → VersionChain) (tenant : TenantId) :
    List (MvccKey × Option Bytes) → Versions → Versions
  | [], vs => vs
  | w :: rest, vs => applyWrites f tenant rest (vs.update (tenant, w.1) (f w.2))

def installWrites (lsn : Nat) (writes : WriteSet) : Versions :=
  applyWrites (install lsn) tenant writes.entries vs

def rollbackWrites (lsn : Nat) (writes : WriteSet) :
    Versions :=
  applyWrites (fun _ => rollback lsn) tenant writes.entries vs

/-- The live versions an install of `writes` expires. -/
def superseded (writes : WriteSet) :
    List (VersionKey × Version) :=
  writes.entries.filterMap fun w =>
    ((vs (tenant, w.1)).getLast?.filter (·.isLive)).map fun v => ((tenant, w.1), v)

/-- One round of the delta normalisation: a buffered value that equals the
delta's record with a zero creation LSN is replaced by the stamped record, in the
write set and in the version the commit has installed. -/
def normalizeDelta (commitLsn : Nat) (st : WriteSet × Versions)
    (delta : DeltaOp) : Except DeltaError (WriteSet × Versions) :=
  match putRecordMvccWrite delta with
  | .error e => .error e
  | .ok none => .ok st
  | .ok (some (key, value)) =>
    match st.1.get? key with
    | some (some original) =>
      if some original = (createdLsnOffset value.length).map (stampLsn value · 0) then
        .ok (st.1.replace key (some value),
          st.2.update (tenant, key) (setValue commitLsn (some value)))
      else .ok st
    | _ => .ok st

def normalize (tenant : TenantId) (commitLsn : Nat) :
    List DeltaOp → WriteSet × Versions → Except DeltaError (WriteSet × Versions)
  | [], st => .ok st
  | delta :: rest, st =>
    match normalizeDelta tenant commitLsn st delta with
    | .error e => .error e
    | .ok st' => normalize tenant commitLsn rest st'

end Versions

/-- Stamp and validate the intents of a commit, numbering them from `index`. -/
def assignIntents (range : RedoLsnRange) (format : DeltaFormat) :
    Nat → List DeltaIntent → Option (List DeltaOp)
  | _, [] => some []
  | index, intent :: rest =>
    match range.opLsn index with
    | none => none
    | some opLsn =>
      match intent.assignForFormat opLsn range.commitLsn format with
      | .error _ => none
      | .ok op => (assignIntents range format (index + 1) rest).map (op :: ·)

/-! ## Calls -/

inductive CommitError
  | builder
  | wal
  | nonSystemTenant
  | invalidDeltaIntent
  | deltaNormalization (e : DeltaError)
deriving DecidableEq

/-- The locals of a commit that owns an LSN range. `txn` is missing for the
standalone index path. `values` are the writes after delta normalisation;
`superseded` lists the versions Phase 1 expired and is read by no step. -/
structure Commit where
  txn : Option TxnId
  tenant : TenantId
  snapshot : Nat
  format : Option DeltaFormat
  writes : WriteSet
  values : WriteSet
  intents : List DeltaIntent
  sidechannel : List SideChannelWrite
  range : RedoLsnRange
  superseded : List (VersionKey × Version)
deriving DecidableEq

namespace Commit

def commitLsn (c : Commit) : Nat := c.range.commitLsn

end Commit

/-- Where a commit stands after its allocation. `decided` carries `wal_err` (or
the builder's error) to Phase 3; `applying` and `unwinding` hold the install
turn; `abandoned` left the function without handing the turn over. -/
inductive Phase
  | installed
  | staged
  | decided (err : Option CommitError)
  | applying (applied todo : List SideChannelWrite)
  | unwinding (err : CommitError)
  | published
  | rolledBack (err : CommitError)
  | advanced (err : Option CommitError)
  | returned (err : Option CommitError)
  | abandoned (err : CommitError)
deriving DecidableEq

inductive BeginStage
  | allocated
  | fenced
  | pending
  | loaded (snapshot : Nat)
deriving DecidableEq

/-- `oldest_active_snapshot` and `gc`. A scan must have visited, when it ends,
every entry of `must` that is still there: the map's iterator shows an entry that
stays present and may or may not show one that comes or goes. -/
inductive GcPhase
  | fenced (gen : Nat)
  | scanning (gen : Nat) (must visited : List TxnId) (floor : Option Nat) (anyPending : Bool)
  | scanned (gen : Nat) (floor : Option Nat) (anyPending : Bool)
  | empty (gen : Nat)
  | retaining (anchor : Nat)
deriving DecidableEq

inductive Call
  | idle
  | beginning (id : TxnId) (stage : BeginStage)
  | active (id : TxnId) (snapshot : Nat)
  | conflicted (id : TxnId) (snapshot : Nat)
  | commit (c : Commit) (phase : Phase)
  | gc (phase : GcPhase)
  | ended
deriving DecidableEq

/-- An entry of `active`; `pending` is the `Lsn::MAX` sentinel. -/
inductive ActiveEntry
  | pending
  | snapshot (lsn : Nat)
deriving DecidableEq

abbrev CallId := Nat

structure State where
  counter : Nat
  visible : Nat
  installOrder : Nat
  versions : Versions
  active : TxnId → Option ActiveEntry
  nextTxnId : TxnId
  beginGeneration : Nat
  calls : CallId → Call

variable (s : State) (t : CallId) (id : TxnId)

namespace State

/-- `TxnManager::new`, with no call in progress. -/
def new : State where
  counter := 0
  visible := 0
  installOrder := 0
  versions := fun _ => []
  active := fun _ => none
  nextTxnId := 1
  beginGeneration := 0
  calls := fun _ => .idle

def setCall (c : Call) : State :=
  { s with calls := update s.calls t c }

def setActive (e : Option ActiveEntry) : State :=
  { s with active := update s.active id e }

/-- `active.remove` for the transaction of a commit, if it has one. -/
def release : Option TxnId → State
  | none => s
  | some id => s.setActive id none

end State

/-- What one `commit` call brings: the transaction's buffers, the WAL format, and
for the delta formats what the builder leaves when it runs inside the gate
(`none` when it fails). -/
structure CommitRequest where
  tenant : TenantId
  format : Option DeltaFormat
  writes : WriteSet
  sidechannel : List SideChannelWrite
  hasAclGrants : Bool
  intents : List DeltaIntent
  built : Option (List SideChannelWrite × List DeltaIntent)
deriving DecidableEq

def CommitRequest.isEmpty (r : CommitRequest) : Bool :=
  r.writes.entries.isEmpty && r.sidechannel.isEmpty && !r.hasAclGrants && r.intents.isEmpty

inductive Action
  | begin (t : CallId)
  | abort (t : CallId)
  | commit (t : CallId) (req : CommitRequest)
  | build (t : CallId) (out : Option (List SideChannelWrite))
  | assign (t : CallId)
  | append (t : CallId) (ok : Bool)
  | turn (t : CallId)
  | sidechannel (t : CallId)
  | publish (t : CallId)
  | rollback (t : CallId)
  | advance (t : CallId)
  | finish (t : CallId)
  | indexPages (t : CallId) (hasStaged : Bool) (sidechannel : List SideChannelWrite)
  | gcFence (t : CallId)
  | gcScan (t : CallId)
  | gcVisit (t : CallId) (id : TxnId)
  | gcScanned (t : CallId)
  | gcRecheck (t : CallId)
  | gcLoad (t : CallId)
  | gcRetain (t : CallId) (key : VersionKey)
  | gcDone (t : CallId)
deriving DecidableEq

/-! ## Steps -/

namespace State

/-- The next access of `begin_inner`. -/
def stepBegin : Option State :=
  match s.calls t with
  | .idle =>
    some ({ s with nextTxnId := s.nextTxnId + 1 }.setCall t (.beginning s.nextTxnId .allocated))
  | .beginning id .allocated =>
    some ({ s with beginGeneration := s.beginGeneration + 1 }.setCall t (.beginning id .fenced))
  | .beginning id .fenced =>
    some ((s.setActive id (some .pending)).setCall t (.beginning id .pending))
  | .beginning id .pending => some (s.setCall t (.beginning id (.loaded s.visible)))
  | .beginning id (.loaded snapshot) =>
    some ((s.setActive id (some (.snapshot snapshot))).setCall t (.active id snapshot))
  | _ => none

/-- `abort_txn`, by the caller, by `Drop` or after a conflict. -/
def stepAbort : Option State :=
  match s.calls t with
  | .active id _ => some ((s.setActive id none).setCall t .ended)
  | .conflicted id _ => some ((s.setActive id none).setCall t .ended)
  | _ => none

/-- The commit record Phase 1 sets up for a transaction that passed validation. -/
def phase1 (snapshot : Nat) (req : CommitRequest)
    (sidechannel : List SideChannelWrite) (intents : List DeltaIntent) (opCount : Nat) : Commit where
  txn := some id
  tenant := req.tenant
  snapshot := snapshot
  format := req.format
  writes := req.writes
  values := req.writes
  intents := intents
  sidechannel := sidechannel
  range := RedoLsnRange.allocate s.counter opCount
  superseded := s.versions.superseded req.tenant req.writes

def install (c : Commit) : State :=
  { s with
    counter := c.commitLsn
    versions := s.versions.installWrites c.tenant c.commitLsn c.writes }.setCall t
      (.commit c .installed)

/-- Phase 1 of `commit_with_bundle_writes`. -/
def stepCommit (req : CommitRequest) : Option State :=
  match s.calls t with
  | .active id snapshot =>
    if req.isEmpty then some ((s.setActive id none).setCall t .ended)
    else if s.versions.validates req.tenant snapshot req.writes then
      match req.format with
      | none => some (s.install t (s.phase1 id snapshot req req.sidechannel [] 1))
      | some _ =>
        match req.built with
        | none => some ((s.setActive id none).setCall t .ended)
        | some (sidechannel, intents) =>
          some (s.install t (s.phase1 id snapshot req sidechannel intents intents.length))
    else some (s.setCall t (.conflicted id snapshot))
  | _ => none

/-- The v8 builder, outside the gate; `none` is its error. -/
def stepBuild (out : Option (List SideChannelWrite)) : Option State :=
  match s.calls t with
  | .commit c .installed =>
    if c.format.isSome then none
    else
      match out with
      | none => some (s.setCall t (.commit c (.decided (some .builder))))
      | some sidechannel =>
        some (s.setCall t
          (.commit { c with sidechannel := SideChannelWrite.coalesce sidechannel } .staged))
  | _ => none

/-- Delta formats: assignment of the intents, then normalisation. A refused
intent panics, and a refused projection returns through `?`; both leave the
function with the range allocated. -/
def stepAssign : Option State :=
  match s.calls t with
  | .commit c .installed =>
    match c.format with
    | none => none
    | some format =>
      match assignIntents c.range format 0 c.intents with
      | none =>
        some ((s.release c.txn).setCall t (.commit c (.abandoned .invalidDeltaIntent)))
      | some deltas =>
        match Versions.normalize c.tenant c.commitLsn deltas (c.values, s.versions) with
        | .error e =>
          some ((s.release c.txn).setCall t (.commit c (.abandoned (.deltaNormalization e))))
        | .ok (values, versions) =>
          some ({ s with versions := versions }.setCall t
            (.commit { c with
              values := values
              sidechannel := SideChannelWrite.coalesce c.sidechannel } .staged))
  | _ => none

/-- Phase 2: encode and append; an error is carried to Phase 3. -/
def stepAppend (ok : Bool) : Option State :=
  match s.calls t with
  | .commit c .staged =>
    some (s.setCall t (.commit c (.decided (if ok then none else some .wal))))
  | _ => none

/-- `wait_for_install_turn` returns. -/
def stepTurn : Option State :=
  match s.calls t with
  | .commit c (.decided err) =>
    if c.range.predecessor ≤ s.installOrder then
      match err with
      | none => some (s.setCall t (.commit c (.applying [] c.sidechannel)))
      | some e => some (s.setCall t (.commit c (.unwinding e)))
    else none
  | _ => none

/-- `apply_sidechannel_mvcc_write` for the next side-channel write. -/
def stepSidechannel : Option State :=
  match s.calls t with
  | .commit c (.applying applied (w :: rest)) =>
    some ({ s with
      versions := s.versions.update w.versionKey (VersionChain.install c.commitLsn w.value) }.setCall
        t (.commit c (.applying (applied ++ [w]) rest)))
  | _ => none

/-- `visible.store`. -/
def stepPublish : Option State :=
  match s.calls t with
  | .commit c (.applying _ []) =>
    some ({ s with visible := c.commitLsn }.setCall t (.commit c .published))
  | _ => none

/-- `rollback_writes` under the gate. -/
def stepRollback : Option State :=
  match s.calls t with
  | .commit c (.unwinding e) =>
    some ({ s with
      versions := s.versions.rollbackWrites c.tenant c.commitLsn c.writes }.setCall
        t (.commit c (.rolledBack e)))
  | _ => none

/-- `advance_install_order_and_notify`. -/
def stepAdvance : Option State :=
  match s.calls t with
  | .commit c .published =>
    some ({ s with installOrder := max s.installOrder c.commitLsn }.setCall
      t (.commit c (.advanced none)))
  | .commit c (.rolledBack e) =>
    some ({ s with installOrder := max s.installOrder c.commitLsn }.setCall
      t (.commit c (.advanced (some e))))
  | _ => none

/-- `active.remove`, then the call returns. -/
def stepFinish : Option State :=
  match s.calls t with
  | .commit c (.advanced err) => some ((s.release c.txn).setCall t (.commit c (.returned err)))
  | _ => none

/-- The commit record of the standalone index path: no primary writes, no
transaction. -/
def indexCommit (sidechannel : List SideChannelWrite) : Commit where
  txn := none
  tenant := TenantId.system
  snapshot := 0
  format := none
  writes := .empty
  values := .empty
  intents := []
  sidechannel := sidechannel
  range := RedoLsnRange.allocate s.counter 1
  superseded := []

/-- `commit_index_pages_atomic` up to its WAL append. The check of the tenants
comes after the allocation and returns without handing the turn over. -/
def stepIndexPages (hasStaged : Bool)
    (sidechannel : List SideChannelWrite) : Option State :=
  match s.calls t with
  | .idle =>
    if !hasStaged && sidechannel.isEmpty then some (s.setCall t .ended)
    else
      let c := s.indexCommit sidechannel
      if sidechannel.all fun w => w.tenantId = TenantId.system then
        some ({ s with counter := c.commitLsn }.setCall t (.commit c .staged))
      else
        some ({ s with counter := c.commitLsn }.setCall t
          (.commit c (.abandoned .nonSystemTenant)))
  | _ => none

/-- The entries a scan that starts now is certain to meet, as long as they stay. -/
def activeIds : List TxnId :=
  (range s.nextTxnId).filter fun id => (s.active id).isSome

def stepGcFence : Option State :=
  match s.calls t with
  | .idle => some (s.setCall t (.gc (.fenced s.beginGeneration)))
  | _ => none

def stepGcScan : Option State :=
  match s.calls t with
  | .gc (.fenced gen) => some (s.setCall t (.gc (.scanning gen s.activeIds [] none false)))
  | _ => none

/-- One entry of the scan: a sentinel is noted, a snapshot lowers the floor. -/
def stepGcVisit : Option State :=
  match s.calls t with
  | .gc (.scanning gen must visited floor anyPending) =>
    if id ∈ visited then none
    else
      match s.active id with
      | none => none
      | some .pending =>
        some (s.setCall t (.gc (.scanning gen must (id :: visited) floor true)))
      | some (.snapshot lsn) =>
        some (s.setCall t (.gc (.scanning gen must (id :: visited)
          (some (floor.elim lsn fun f => min f lsn)) anyPending)))
  | _ => none

def stepGcScanned : Option State :=
  match s.calls t with
  | .gc (.scanning gen must visited floor anyPending) =>
    if must.all fun id => visited.contains id || (s.active id).isNone then
      some (s.setCall t (.gc (.scanned gen floor anyPending)))
    else none
  | _ => none

def stepGcRecheck : Option State :=
  match s.calls t with
  | .gc (.scanned gen floor anyPending) =>
    if gen ≠ s.beginGeneration then some (s.setCall t (.gc (.retaining 0)))
    else if anyPending then some (s.setCall t (.gc (.retaining 0)))
    else
      match floor with
      | some f => some (s.setCall t (.gc (.retaining f)))
      | none => some (s.setCall t (.gc (.empty gen)))
  | _ => none

/-- The load of `visible` when the scan saw no entry. -/
def stepGcLoad : Option State :=
  match s.calls t with
  | .gc (.empty _) => some (s.setCall t (.gc (.retaining s.visible)))
  | _ => none

def stepGcRetain (key : VersionKey) : Option State :=
  match s.calls t with
  | .gc (.retaining anchor) =>
    some { s with versions := s.versions.update key (retain anchor) }
  | _ => none

def stepGcDone : Option State :=
  match s.calls t with
  | .gc (.retaining _) => some (s.setCall t .ended)
  | _ => none

def step : Action → Option State
  | .begin t => s.stepBegin t
  | .abort t => s.stepAbort t
  | .commit t req => s.stepCommit t req
  | .build t out => s.stepBuild t out
  | .assign t => s.stepAssign t
  | .append t ok => s.stepAppend t ok
  | .turn t => s.stepTurn t
  | .sidechannel t => s.stepSidechannel t
  | .publish t => s.stepPublish t
  | .rollback t => s.stepRollback t
  | .advance t => s.stepAdvance t
  | .finish t => s.stepFinish t
  | .indexPages t hasStaged sidechannel => s.stepIndexPages t hasStaged sidechannel
  | .gcFence t => s.stepGcFence t
  | .gcScan t => s.stepGcScan t
  | .gcVisit t id => s.stepGcVisit t id
  | .gcScanned t => s.stepGcScanned t
  | .gcRecheck t => s.stepGcRecheck t
  | .gcLoad t => s.stepGcLoad t
  | .gcRetain t key => s.stepGcRetain t key
  | .gcDone t => s.stepGcDone t

end State

/-- The transaction manager with any number of concurrent calls. -/
def system : Foundation.System State Action where
  init := .new
  step := State.step

end ArcGraph.Mvcc
