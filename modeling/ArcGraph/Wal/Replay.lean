import ArcGraph.Mvcc.TxnManager
import ArcGraph.Wal.Spill

/-!
# WAL replay

The executor reads the records in their physical order, buffers commit bundles
sorted by their redo range, spills the lowest ones when the buffer is full, and
applies everything in ascending order at the end. The stores it writes to are
handles; `ReplayTarget` is what it calls on them. Log output and counters that
nothing reads are left out, and a message ends before the text of a UTF-8 error.
-/

namespace ArcGraph.Wal
open Foundation Mvcc

/-- How a replay ends early. `panic` stands for the `expect` and `unreachable!`
exits, which the decoders exclude. -/
inductive ReplayError
  | wal (error : WalError)
  | unrecoverableOrphans (count : Nat)
  | panic
deriving DecidableEq

/-- The handles of a replay target, over the joint state `τ` of the stores. -/
structure ReplayTarget (τ : Type) where
  installIndexPage : τ → DecodedStagedPage → Except WalError τ
  applyExtentAlloc : τ → DeltaOp → Except WalError τ
  applyPhysicalDelta : τ → DeltaOp → Nat → Except WalError τ
  vectorStore : Option (τ → VectorPageEntry → Except WalError τ)
  applyAllocatorAdvance : τ → AllocatorAdvance → τ
  installBinding : τ → IdempotencyBindingEntry → τ
  releaseBinding : τ → IdempotencyBindingEntry → τ
  applyDocAcl : τ → UInt64 → GrantSet → τ
  revokeDoc : τ → UInt64 → τ
  internTable : Option (τ → TenantId → Nat → String → τ)
  bootstrapFromMvcc : Option (τ → Nat → Except WalError τ)

/-- Stores that take everything and keep nothing. -/
def ReplayTarget.idle (τ : Type) : ReplayTarget τ where
  installIndexPage st _ := .ok st
  applyExtentAlloc st _ := .ok st
  applyPhysicalDelta st _ _ := .ok st
  vectorStore := none
  applyAllocatorAdvance st _ := st
  installBinding st _ := st
  releaseBinding st _ := st
  applyDocAcl st _ _ := st
  revokeDoc st _ := st
  internTable := none
  bootstrapFromMvcc := none

structure ReplayConfig where
  maxBufferBundles : Nat
  maxBufferBytes : Nat
  spillEnabled : Bool

structure BufferedBundle where
  key : Nat ×ₗ Nat ×ₗ Nat
  bundle : DecodedCommitBundle
  bytesBudget : Nat

abbrev ReplayBuffer := Keyed BufferedBundle.key

structure ReplayExecutor (τ : Type) where
  versions : Versions
  counter : Nat
  visible : Nat
  installOrder : Nat
  target : τ
  checkpointFloor : Nat
  incrementalRedoFloor : Option Nat
  appliedHighWater : Nat
  buffer : ReplayBuffer
  arrivalSeq : Nat
  bufferMemoryBytes : Nat
  spillDir : SpillDir
  orphanPages : List UInt64

/-! ## MVCC writes -/

/-- `apply_replay_mvcc_write`: a chain that already reaches the commit is left
alone. The incremental variant differs in the outcome it reports only. -/
def replayWrite (commitLsn : Nat) (value : Option Bytes) (chain : VersionChain) : VersionChain :=
  match chain.getLast? with
  | some last => if commitLsn ≤ last.createdLsn then chain else chain.install commitLsn value
  | none => chain.install commitLsn value

abbrev KeyWrite := VersionKey × Option Bytes

def replayWrites (commitLsn : Nat) (writes : List KeyWrite) (vs : Versions) : Versions :=
  writes.foldl (fun vs w => vs.update w.1 (replayWrite commitLsn w.2)) vs

def deltaKey (e : VersionKey × Bytes) : Nat ×ₗ Nat := toLex (e.1.1.toNat, e.1.2.toNat)

/-- The versions that `PutRecord` operations carry, one for each key: a `BTreeMap`. -/
abbrev DeltaVersions := Keyed deltaKey

def projectDeltas : List DeltaOp → Except WalError (List (VersionKey × Bytes))
  | [] => .ok []
  | op :: rest => do
      let write ← (putRecordMvccWrite op).mapError .delta
      let writes ← projectDeltas rest
      match write with
      | some (key, value) => return ((op.tenantId, key), value) :: writes
      | none => return writes

namespace DecodedCommitBundle

/-- The writes the bundle lists, own ones first. -/
def explicitWrites (b : DecodedCommitBundle) : List KeyWrite :=
  b.mvccWrites.entries.map (fun e => ((b.primaryTenant, e.1), e.2)) ++
    b.sidechannelWrites.map fun w => (w.versionKey, w.value)

def deltaWrites (b : DecodedCommitBundle) : Except WalError (List KeyWrite) := do
  let writes ← projectDeltas b.deltas
  return ((.ofList writes : DeltaVersions).entries).map fun e => (e.1, some e.2)

/-- Every MVCC write of the bundle in the order of its application. -/
def replayedWrites (b : DecodedCommitBundle) : Except WalError (List KeyWrite) := do
  let projected ← b.deltaWrites
  return b.explicitWrites ++ projected

end DecodedCommitBundle

variable {τ : Type} (t : ReplayTarget τ)

/-! ## The other sections -/

def applyDelta (commitLsn : Nat) (st : τ) (op : DeltaOp) : Except ReplayError τ :=
  match op.kind with
  | .extentAlloc => (t.applyExtentAlloc st op).mapError .wal
  | .putRecord | .tombstoneRecord | .putPropBlock | .internBind | .aclGrant | .pageAlloc =>
    (t.applyPhysicalDelta st op commitLsn).mapError .wal
  | .allocAdvance =>
    match AllocatorKind.fromByte (op.payload.getD 0 0) with
    | .error e => .error (.wal e)
    | .ok kind =>
      .ok (t.applyAllocatorAdvance st
        { tenant := op.tenantId
          kind
          newHighWater := UInt64.ofNat (leValue ((op.payload.drop 1).take 8)) })
  | _ => .error .panic

/-- The redo of one operation below the checkpoint: only physical ones at or above
the redo floor. -/
def redoDelta (redoFloor commitLsn : Nat) (st : τ) (op : DeltaOp) : Except ReplayError τ :=
  if op.kind.isPhysical ∧ redoFloor ≤ op.opLsn then
    if op.kind = .extentAlloc then (t.applyExtentAlloc st op).mapError .wal
    else (t.applyPhysicalDelta st op commitLsn).mapError .wal
  else .ok st

def applyBinding (st : τ) (e : IdempotencyBindingEntry) : τ :=
  match e.op with
  | .install => t.installBinding st e
  | .release => t.releaseBinding st e

def applyAclGrant (primaryTenant : TenantId) (st : τ) (e : AclGrantEntry) : τ :=
  if e.tenant ≠ primaryTenant then st
  else
    match e.op with
    | .apply => t.applyDocAcl st e.doc e.grants
    | .revoke => t.revokeDoc st e.doc

def hasPhysicalOwnerDelta (b : DecodedCommitBundle) : Bool :=
  b.deltas.any fun op => op.kind = .internBind || op.kind = .aclGrant

/-- Steps (d) to (f) of `apply_bundle`: the sections that cannot fail. -/
def applyLogical (b : DecodedCommitBundle) (st : τ) : τ :=
  let st := b.allocatorAdvances.foldl t.applyAllocatorAdvance st
  let st := b.idempotencyBindings.foldl (applyBinding t) st
  b.aclGrants.foldl (applyAclGrant t b.primaryTenant) st

/-- Steps (c) to (f) of `apply_bundle`. -/
def applySections (b : DecodedCommitBundle) (st : τ) : Except ReplayError τ := do
  let st ← b.stagedPages.foldlM (fun st p => (t.installIndexPage st p).mapError .wal) st
  if hasPhysicalOwnerDelta b ∧ (b.idempotencyBindings ≠ [] ∨ b.aclGrants ≠ []) then
    throw (.wal (.corruption b.commitLsn
      "owner bundle carries both physical rows and legacy logical owner sections"))
  let st ← b.deltas.foldlM (applyDelta t b.commitLsn) st
  let st ←
    match t.vectorStore with
    | some install => b.vectorPages.foldlM (fun st v => (install st v).mapError .wal) st
    | none => pure st
  return applyLogical t b st

/-! ## Applying a bundle -/

def belowRedoFloor (s : ReplayExecutor τ) (b : DecodedCommitBundle) : Bool :=
  s.incrementalRedoFloor.any fun floor => b.commitLsn ≤ s.checkpointFloor && b.commitLsn < floor

def skipsBundle (s : ReplayExecutor τ) (b : DecodedCommitBundle) : Bool :=
  b.commitLsn ≤ s.appliedHighWater || belowRedoFloor s b

/-- The stores' share of `apply_bundle`, on either side of the checkpoint. -/
def applyToTarget (s : ReplayExecutor τ) (b : DecodedCommitBundle) : Except ReplayError τ :=
  match s.incrementalRedoFloor with
  | some floor =>
    if b.commitLsn ≤ s.checkpointFloor then
      b.deltas.foldlM (redoDelta t floor b.commitLsn) s.target
    else applySections t b s.target
  | none => applySections t b s.target

def applyBundle (s : ReplayExecutor τ) (b : DecodedCommitBundle) :
    Except ReplayError (ReplayExecutor τ) :=
  if skipsBundle s b then .ok s
  else do
    let writes ← b.replayedWrites.mapError .wal
    let target ← applyToTarget t s b
    return { s with
      versions := replayWrites b.commitLsn writes s.versions
      target
      appliedHighWater := b.commitLsn }

/-! ## Buffering -/

def valueBytes (value : Option Bytes) : Nat := (value.map List.length).getD 0

def estimateBundleBytes (b : DecodedCommitBundle) : Nat :=
  (b.mvccWrites.entries.map fun e => valueBytes e.2).sum +
    (b.sidechannelWrites.map fun w => valueBytes w.value).sum +
    b.stagedPages.length * pageSize + (b.deltas.map DeltaOp.encodedLen).sum + 64

def enqueue (s : ReplayExecutor τ) (b : DecodedCommitBundle) (range : RedoLsnRange) :
    ReplayExecutor τ :=
  { s with
    buffer := s.buffer.insert
      { key := toLex (range.base, toLex (range.end, s.arrivalSeq))
        bundle := b
        bytesBudget := estimateBundleBytes b }
    arrivalSeq := s.arrivalSeq + 1 }

/-- A bundle that is already applied only seeds its allocators again. -/
def bufferInsert (s : ReplayExecutor τ) (b : DecodedCommitBundle) :
    Except ReplayError (ReplayExecutor τ) :=
  if b.commitLsn ≤ s.appliedHighWater then
    .ok { s with target := b.allocatorAdvances.foldl t.applyAllocatorAdvance s.target }
  else
    match b.redoRange with
    | none => .error .panic
    | some range =>
      .ok { enqueue s b range with
        bufferMemoryBytes := s.bufferMemoryBytes + estimateBundleBytes b }

def streamApplyMin (s : ReplayExecutor τ) : Except ReplayError (ReplayExecutor τ) :=
  match s.buffer.entries with
  | [] => .ok s
  | e :: _ => do
      let s' ← applyBundle t { s with buffer := s.buffer.drop 1 } e.bundle
      return { s' with bufferMemoryBytes := s.bufferMemoryBytes - e.bytesBudget }

/-- How many entries `spill_engage` pops: it goes on while too many entries or too
many bytes are left. -/
def popCount (targetCount targetMemory bytes : Nat) : List BufferedBundle → Nat → Nat
  | [], _ => 0
  | e :: rest, freed =>
    if targetCount < (e :: rest).length ∨ targetMemory < bytes - freed then
      popCount targetCount targetMemory bytes rest (freed + e.bytesBudget) + 1
    else 0

variable (crc32c : Bytes → UInt32)

/-- The first `n` entries of the buffer moved to a spill file. -/
def spillFirst (s : ReplayExecutor τ) (n : Nat) : ReplayExecutor τ :=
  let popped := s.buffer.entries.take n
  { s with
    buffer := s.buffer.drop n
    spillDir := writeSpillBatch crc32c s.spillDir (popped.map (·.bundle))
    bufferMemoryBytes := s.bufferMemoryBytes - (popped.map (·.bytesBudget)).sum }

variable (cfg : ReplayConfig) (s : ReplayExecutor τ)

def spillEngage :
    Except ReplayError (ReplayExecutor τ) :=
  let n := popCount (cfg.maxBufferBundles / 2) (cfg.maxBufferBytes / 2) s.bufferMemoryBytes
    s.buffer.entries 0
  if (s.buffer.entries.take n).isEmpty then streamApplyMin t s else .ok (spillFirst crc32c s n)

def overflowFlush :
    Except ReplayError (ReplayExecutor τ) :=
  if cfg.spillEnabled then spillEngage t crc32c cfg s else streamApplyMin t s

/-! ## Records -/

/-- `decode_index_page_payload` -/
def decodeIndexPagePayload (payload : Bytes) : Except String DecodedStagedPage :=
  if h : payload.length = 16 + pageSize then
    .ok
      { kind := .primaryIndex
        pageId := UInt64.ofNat (leValue (payload.take 8))
        tenantId := UInt64.ofNat (leValue ((payload.drop 8).take 8))
        bytes := ⟨payload.drop 16, by rw [List.length_drop]; omega⟩ }
  else
    .error (s!"primary index: page PageId(0) corrupt: IndexPage payload length {payload.length}" ++
      s!" != expected {16 + pageSize}")

/-- `decode_intern_payload` -/
def decodeInternPayload (payload : Bytes) : Except String (Nat × String) :=
  if payload.length < 4 then
    .error (s!"wal corruption at lsn Lsn(0): intern payload length {payload.length}" ++
      " < 4 bytes for StringId")
  else
    match fromUtf8 (payload.drop 4) with
    | none => .error "wal corruption at lsn Lsn(0): intern payload is not valid UTF-8"
    | some name => .ok (leValue (payload.take 4), name)

/-- A record with the format version of its segment. -/
structure LogRecord where
  formatVersion : Nat
  record : WalRecord
deriving DecidableEq

def handleRecord (s : ReplayExecutor τ) (r : LogRecord) : Except ReplayError (ReplayExecutor τ) :=
  match r.record.recordType with
  | .commitBundle => do
      let b ← (decodeCommitBundleForVersion r.record.payload r.formatVersion
        r.record.tenantId).mapError .wal
      bufferInsert t s b
  | .indexPage =>
    match decodeIndexPagePayload r.record.payload with
    | .error e =>
      .error (.wal (.corruption r.record.lsn.toNat s!"legacy IndexPage decode failed: {e}"))
    | .ok page => do
        let target ← (t.installIndexPage s.target page).mapError .wal
        return { s with target, orphanPages := s.orphanPages ++ [page.pageId] }
  | .internString =>
    match t.internTable with
    | none => .ok s
    | some install =>
      match decodeInternPayload r.record.payload with
      | .error e =>
        .error (.wal (.corruption r.record.lsn.toNat s!"InternString payload decode failed: {e}"))
      | .ok (id, name) =>
        .ok { s with target := install s.target r.record.tenantId id name }
  | _ => .ok s

/-- One turn of the reading loop. -/
def readRecord (r : LogRecord) :
    Except ReplayError (ReplayExecutor τ) := do
  let s ← handleRecord t s r
  if cfg.maxBufferBundles ≤ s.buffer.entries.length ∨ cfg.maxBufferBytes ≤ s.bufferMemoryBytes then
    overflowFlush t crc32c cfg s
  else return s

/-! ## The end of a replay -/

/-- Put a spilled bundle back, unless it is applied. -/
def mergeSpilled (s : ReplayExecutor τ) (b : DecodedCommitBundle) :
    Except ReplayError (ReplayExecutor τ) :=
  if b.commitLsn ≤ s.appliedHighWater then .ok s
  else
    match b.redoRange with
    | none => .error .panic
    | some range => .ok (enqueue s b range)

/-- A range as `{:?}` prints it. -/
def debug (range : RedoLsnRange) : String :=
  s!"RedoLsnRange \x7b base: Lsn({range.base}), end: Lsn({range.end}) \x7d"

/-- Apply a sorted list of bundles; ranges must not overlap unless they are equal. -/
def drain : List DecodedCommitBundle → Option RedoLsnRange → ReplayExecutor τ →
    Except ReplayError (ReplayExecutor τ)
  | [], _, s => .ok s
  | b :: rest, previous, s =>
    match b.redoRange with
    | none => .error .panic
    | some range =>
      if previous.any fun p => range ≠ p && range.base ≤ p.end then
        .error (.wal (.corruption range.base
          s!"v9 redo ranges overlap: previous {debug (previous.getD range)}, current {debug range}"))
      else do
        let s ← applyBundle t s b
        drain rest (some range) s

def finalDrain (s : ReplayExecutor τ) : Except ReplayError (ReplayExecutor τ) := do
  let s ← (loadAllSpillBundles crc32c s.spillDir).foldlM mergeSpilled s
  drain t (s.buffer.entries.map (·.bundle)) none { s with buffer := .empty }

/-- `seed_after_replay` with the watermark of an incremental recovery raised to its
checkpoint. -/
def seedAfterReplay (s : ReplayExecutor τ) : ReplayExecutor τ :=
  let applied :=
    if s.incrementalRedoFloor.isSome ∧ s.appliedHighWater < s.checkpointFloor then
      s.checkpointFloor
    else s.appliedHighWater
  if applied = 0 then { s with appliedHighWater := applied }
  else
    { s with
      appliedHighWater := applied
      counter := max s.counter applied
      visible := max s.visible applied
      installOrder := max s.installOrder applied }

def baseline (s : ReplayExecutor τ) : ReplayExecutor τ :=
  { s with
    appliedHighWater :=
      if s.incrementalRedoFloor.isSome then 0 else max s.visible s.checkpointFloor }

def bootstrapOrphans (s : ReplayExecutor τ) : Except ReplayError (ReplayExecutor τ) :=
  match s.orphanPages, t.bootstrapFromMvcc with
  | [], _ | _, none => .ok s
  | orphans, some hook =>
    match hook s.target orphans.length with
    | .error _ => .error (.unrecoverableOrphans orphans.length)
    | .ok target => .ok { s with target }

def run (records : List LogRecord) :
    Except ReplayError (ReplayExecutor τ) := do
  let s ← records.foldlM (readRecord t crc32c cfg) (baseline s)
  let s ← finalDrain t crc32c s
  let s ← bootstrapOrphans t (seedAfterReplay s)
  return { s with spillDir := if cfg.spillEnabled then [] else s.spillDir }

end ArcGraph.Wal
