import ArcGraph.Basic
import ArcGraph.Foundation.Bytes

/-!
# Physiological WAL operations

A commit in a delta format first collects intents; once it owns an LSN range it
assigns one LSN to each intent, stamps the commit LSN into record payloads and
validates the resulting operations.
-/

namespace ArcGraph.Wal
open Foundation

/-- The two bundle formats that carry deltas. -/
inductive DeltaFormat
  | v9
  | v10
deriving DecidableEq

inductive DeltaOpKind
  | putRecord
  | tombstoneRecord
  | putPropBlock
  | telAppend
  | telExpire
  | indexPut
  | indexDelete
  | allocAdvance
  | internBind
  | aclGrant
  | pageAlloc
  | extentAlloc
  | vectorDelta
  | telGrow
deriving DecidableEq

namespace DeltaOpKind

def ofByte : UInt8 → Option DeltaOpKind
  | 0 => some putRecord
  | 1 => some tombstoneRecord
  | 2 => some putPropBlock
  | 3 => some telAppend
  | 4 => some telExpire
  | 5 => some indexPut
  | 6 => some indexDelete
  | 7 => some allocAdvance
  | 8 => some internBind
  | 9 => some aclGrant
  | 10 => some pageAlloc
  | 11 => some extentAlloc
  | 12 => some vectorDelta
  | 13 => some telGrow
  | _ => none

def asByte : DeltaOpKind → UInt8
  | putRecord => 0
  | tombstoneRecord => 1
  | putPropBlock => 2
  | telAppend => 3
  | telExpire => 4
  | indexPut => 5
  | indexDelete => 6
  | allocAdvance => 7
  | internBind => 8
  | aclGrant => 9
  | pageAlloc => 10
  | extentAlloc => 11
  | vectorDelta => 12
  | telGrow => 13

def isEmittedAtM3 : DeltaOpKind → Bool
  | putRecord | tombstoneRecord | putPropBlock | allocAdvance | pageAlloc | extentAlloc => true
  | _ => false

def isEmittedForFormat (kind : DeltaOpKind) : DeltaFormat → Bool
  | .v9 => kind.isEmittedAtM3
  | .v10 => kind.isEmittedAtM3 || kind = internBind || kind = aclGrant

def isPhysical : DeltaOpKind → Bool
  | putRecord | tombstoneRecord | putPropBlock | internBind | aclGrant | pageAlloc
  | extentAlloc => true
  | _ => false

end DeltaOpKind

/-! ## Store discriminators and fixed sizes -/

def storeProps : UInt16 := 0
def storeRecord : UInt16 := 1
def storeTel : UInt16 := 2
def storeBlobOverflow : UInt16 := 5
def storeRels : UInt16 := 6
def storeNodeBindings : UInt16 := 7
def storeRelBindings : UInt16 := 8
def storeIntern : UInt16 := 9
def storeGrants : UInt16 := 10

def nodeRecordSize : Nat := 64
def relRecordSize : Nat := 96
def maxSlots : UInt16 := 2038
def maxPropBlockPayload : Nat := 8148

/-- The stores whose pages `PageAlloc` may create. -/
def pageAllocStores : List UInt16 :=
  [storeProps, storeRecord, storeRels, storeTel, storeNodeBindings, storeRelBindings,
    storeIntern, storeGrants]

def extentAllocStores : List UInt16 := storeBlobOverflow :: pageAllocStores

/-- Why an operation is refused. Each constructor is one message of the source. -/
inductive DeltaError
  | putRecordIntentLength
  | reservedKind (kind : DeltaOpKind) (format : DeltaFormat)
  | putRecordHome
  | tombstoneHome
  | zeroOpLsn
  | slotExceedsMax (slot : UInt16)
  | logicalTarget
  | propBlockShape
  | allocAdvanceShape
  | ownerRowInvalid
  | ownerRowDisagrees
  | pageAllocShape
  | pageAllocPageType (byte : UInt8)
  | pageAllocWrongStore (pageType : Nat) (storeId : UInt16)
  | extentAllocShape
  | extentAllocPayload
  | extentAllocTarget
  | noDeltaAlgebra (kind : DeltaOpKind)
  | putRecordPayload
deriving DecidableEq

/-- The errors of the WAL. Delta validation has its own; `alreadyExists` and
`unexpectedEof` are kinds of I/O errors. -/
inductive WalError
  | corruption (lsn : Nat) (reason : String)
  | invalidRecordLength (got expected : Nat)
  | recordTypeReserved (byte : UInt8)
  | badMagic (got : Bytes)
  | formatMismatch (foundVersion : Nat)
  | decryptionFailed (lsn keyVersion : Nat) (reason : String)
  | alreadyExists
  | unexpectedEof
  | delta (error : DeltaError)
deriving DecidableEq

/-- A physical redo operation before the commit owns an LSN range. -/
structure DeltaIntent where
  kind : DeltaOpKind
  storeId : UInt16
  tenantId : TenantId
  pageNo : UInt64
  slot : UInt16
  payload : Bytes
deriving DecidableEq

structure DeltaOp where
  kind : DeltaOpKind
  storeId : UInt16
  tenantId : TenantId
  pageNo : UInt64
  slot : UInt16
  opLsn : Nat
  payload : Bytes
deriving DecidableEq

/-! ## Owner rows -/

inductive OwnerRowClass
  | nodeBinding
  | relBinding
  | internedString
  | classId
  | grant
deriving DecidableEq

namespace OwnerRowClass

def ofByte : UInt8 → Option OwnerRowClass
  | 1 => some nodeBinding
  | 2 => some relBinding
  | 3 => some internedString
  | 4 => some classId
  | 5 => some grant
  | _ => none

def storeId : OwnerRowClass → UInt16
  | nodeBinding => storeNodeBindings
  | relBinding => storeRelBindings
  | internedString | classId => storeIntern
  | grant => storeGrants

def deltaKind : OwnerRowClass → DeltaOpKind
  | nodeBinding | relBinding | internedString => .internBind
  | classId | grant => .aclGrant

def regionOrdinal : OwnerRowClass → Nat
  | classId => 1
  | _ => 0

def ownerIdsPerClass : Nat := 64000000

def ownerRowsPerPage : Nat := 31

def address (c : OwnerRowClass) (id : Nat) : Option (Nat × Nat) :=
  if ownerIdsPerClass ≤ id then none
  else
    let pagesPerClass := (ownerIdsPerClass + ownerRowsPerPage - 1) / ownerRowsPerPage
    some (c.regionOrdinal * pagesPerClass + id / ownerRowsPerPage, id % ownerRowsPerPage)

def retireable : OwnerRowClass → Bool
  | nodeBinding | relBinding => true
  | _ => false

end OwnerRowClass

def ownerRowBytes : Nat := 256

def ownerRowMaxPayload : Nat := 236

/-- `AGOWNR01` -/
def ownerRowMagic : Bytes := [65, 71, 79, 87, 78, 82, 48, 49]

/-- `OwnerRow::decode` as the envelope check it makes on a row of 256 bytes. -/
def ownerRowAccepted (bytes : Bytes) (c : OwnerRowClass) : Bool :=
  let state := bytes.getD 9 0
  let payloadLen := leValue ((bytes.drop 10).take 2)
  bytes.take 8 = ownerRowMagic
    && OwnerRowClass.ofByte (bytes.getD 8 0) = some c
    && (state = 1 || state = 2)
    && (state ≠ 2 || c.retireable)
    && payloadLen ≤ ownerRowMaxPayload
    && (state ≠ 2 || payloadLen = 0)
    && (bytes.drop (20 + payloadLen)).all (· = 0)

variable (op : DeltaOp)

def validateOwnerDelta : Except DeltaError Unit :=
  if op.payload.length ≠ ownerRowBytes then .error .ownerRowInvalid
  else
    match OwnerRowClass.ofByte (op.payload.getD 8 0) with
    | none => .error .ownerRowInvalid
    | some c =>
      let id := leValue ((op.payload.drop 12).take 8)
      if ownerRowAccepted op.payload c then
        match c.address id with
        | none => .error .ownerRowInvalid
        | some (pageNo, slot) =>
          if c.storeId ≠ op.storeId ∨ c.deltaKind ≠ op.kind ∨ pageNo ≠ op.pageNo.toNat
              ∨ slot ≠ op.slot.toNat then .error .ownerRowDisagrees
          else .ok ()
      else .error .ownerRowInvalid

/-! ## Extents -/

def extentPages : Nat := 256
def directoryEntriesPerPage : Nat := 339
def maxDataPageNo : Nat := (2 ^ 63 - 1) / 81
def maxExtentsPerStore : Nat := 6000000

def directoryHeadBytes : Nat :=
  (maxExtentsPerStore + directoryEntriesPerPage - 1) / directoryEntriesPerPage * pageSize

structure ExtentAllocation where
  logicalExtent : Nat
  physicalOffset : Nat
  pairing : Nat
deriving DecidableEq

namespace ExtentAllocation

def decode (bytes : Bytes) : Option ExtentAllocation :=
  let a : ExtentAllocation :=
    { logicalExtent := leValue (bytes.take 8)
      physicalOffset := leValue ((bytes.drop 8).take 8)
      pairing := leValue ((bytes.drop 16).take 4) }
  if bytes.length ≠ 20 ∨ a.physicalOffset % pageSize ≠ 0 ∨ a.physicalOffset < directoryHeadBytes
      ∨ maxDataPageNo / extentPages < a.logicalExtent then none
  else some a

variable (a : ExtentAllocation)

def encode : Bytes :=
  leBytes 8 a.logicalExtent ++ leBytes 8 a.physicalOffset ++ leBytes 4 a.pairing

def directoryPageNo : Option Nat :=
  let k := a.logicalExtent / directoryEntriesPerPage
  if 2 ^ 62 - 1 < k then none else some (2 ^ 62 ||| k)

end ExtentAllocation

/-! ## Validation -/

/-- The page types of `PageType::from_byte`, by discriminant. -/
def pageTypeOfByte (byte : UInt8) : Option Nat :=
  if byte.toNat ≤ 9 then some byte.toNat else none

def pageTypeNode : Nat := 1
def pageTypeRel : Nat := 2
def pageTypeTel : Nat := 3
def pageTypePropSlotted : Nat := 9

def pageTypeMatchesStore (pageType : Nat) (storeId : UInt16) : Bool :=
  if storeId = storeProps then pageType = pageTypePropSlotted
  else if storeId = storeRecord then pageType = pageTypeNode || pageType = pageTypeRel
  else if storeId = storeRels then pageType = pageTypeRel
  else if storeId = storeTel then pageType = pageTypeTel
  else pageType = pageTypePropSlotted

namespace DeltaOp

/-- The home a `PutRecord` needs in each format. -/
def putRecordHome : DeltaFormat → Bool
  | .v9 => op.storeId = storeRecord && (op.payload.length = 64 || op.payload.length = 96)
  | .v10 => (op.storeId = storeRecord && op.payload.length = 64)
      || (op.storeId = storeRels && op.payload.length = 96)

def tombstoneHome : DeltaFormat → Bool
  | .v9 => op.storeId = storeRecord
  | .v10 => op.storeId = storeRecord || op.storeId = storeRels

def validatePageAlloc : Except DeltaError Unit :=
  if op.storeId ∉ pageAllocStores ∨ op.slot ≠ 0 ∨ op.payload.length ≠ 9 then
    .error .pageAllocShape
  else
    match pageTypeOfByte (op.payload.getD 0 0) with
    | none => .error (.pageAllocPageType (op.payload.getD 0 0))
    | some t =>
      if pageTypeMatchesStore t op.storeId then .ok ()
      else .error (.pageAllocWrongStore t op.storeId)

def validateExtentAlloc : Except DeltaError Unit :=
  if op.storeId ∉ extentAllocStores ∨ op.slot ≠ 0 then .error .extentAllocShape
  else
    match ExtentAllocation.decode op.payload with
    | none => .error .extentAllocPayload
    | some a =>
      if a.directoryPageNo = some op.pageNo.toNat then .ok () else .error .extentAllocTarget

/-- The checks of `validate_shape` that depend on the kind. -/
def validateKind : Except DeltaError Unit :=
  match op.kind with
  | .putRecord =>
    if (op.storeId = storeRecord ∧ (op.payload.length = 64 ∨ op.payload.length = 96))
        ∨ (op.storeId = storeRels ∧ op.payload.length = 96) then .ok ()
    else .error .putRecordHome
  | .tombstoneRecord =>
    if (op.storeId = storeRecord ∨ op.storeId = storeRels) ∧ op.payload = [] then .ok ()
    else .error .tombstoneHome
  | .putPropBlock =>
    if op.storeId = storeProps ∧ op.payload ≠ [] ∧ op.payload.length ≤ maxPropBlockPayload then
      .ok ()
    else .error .propBlockShape
  | .allocAdvance => if op.payload.length = 9 then .ok () else .error .allocAdvanceShape
  | .internBind | .aclGrant => validateOwnerDelta op
  | .pageAlloc => op.validatePageAlloc
  | .extentAlloc => op.validateExtentAlloc
  | k => .error (.noDeltaAlgebra k)

def validateShape : Except DeltaError Unit :=
  if op.opLsn = 0 then .error .zeroOpLsn
  else if op.kind.isPhysical then
    if maxSlots ≤ op.slot ∧ op.kind ≠ .pageAlloc ∧ op.kind ≠ .extentAlloc then
      .error (.slotExceedsMax op.slot)
    else op.validateKind
  else if op.pageNo ≠ 0 ∨ op.slot ≠ 0 then .error .logicalTarget
  else op.validateKind

def validateForFormat (format : DeltaFormat) : Except DeltaError Unit :=
  if !op.kind.isEmittedForFormat format then .error (.reservedKind op.kind format)
  else if op.kind = .putRecord ∧ !op.putRecordHome format then .error .putRecordHome
  else if op.kind = .tombstoneRecord ∧ (!op.tombstoneHome format ∨ op.payload ≠ []) then
    .error .tombstoneHome
  else op.validateShape

def encodedLen : Nat := 34 + op.payload.length

end DeltaOp

/-- Overwrite the eight bytes at `offset` with `lsn`. -/
def stampLsn (payload : Bytes) (offset lsn : Nat) : Bytes :=
  payload.take offset ++ leBytes 8 lsn ++ payload.drop (offset + 8)

def createdLsnOffset (payloadLen : Nat) : Option Nat :=
  if payloadLen = nodeRecordSize then some 56
  else if payloadLen = relRecordSize then some 48
  else none

namespace DeltaIntent
variable (storeId : UInt16) (tenantId : TenantId)

def extentAlloc (a : ExtentAllocation) :
    DeltaIntent where
  kind := .extentAlloc
  storeId := storeId
  tenantId := tenantId
  pageNo := UInt64.ofNat (a.directoryPageNo.getD 0)
  slot := 0
  payload := a.encode

variable (intent : DeltaIntent)

def toOp (opLsn : Nat) (payload : Bytes) : DeltaOp where
  kind := intent.kind
  storeId := intent.storeId
  tenantId := intent.tenantId
  pageNo := intent.pageNo
  slot := intent.slot
  opLsn := opLsn
  payload := payload

def stampedPayload (commitLsn : Nat) : Except DeltaError Bytes :=
  if intent.kind = .putRecord then
    match createdLsnOffset intent.payload.length with
    | none => .error .putRecordIntentLength
    | some offset => .ok (stampLsn intent.payload offset commitLsn)
  else .ok intent.payload

def assignForFormat (opLsn commitLsn : Nat) (format : DeltaFormat) :
    Except DeltaError DeltaOp :=
  match intent.stampedPayload commitLsn with
  | .error e => .error e
  | .ok payload =>
    match (intent.toOp opLsn payload).validateForFormat format with
    | .error e => .error e
    | .ok () => .ok (intent.toOp opLsn payload)

end DeltaIntent

/-- The MVCC key and value a `PutRecord` carries. Relationship keys have the top
bit set. -/
def putRecordMvccWrite : Except DeltaError (Option (MvccKey × Bytes)) :=
  if op.kind ≠ .putRecord then .ok none
  else
    let id := UInt64.ofNat (leValue (op.payload.take 8))
    if op.payload.length = nodeRecordSize then .ok (some (id, op.payload))
    else if op.payload.length = relRecordSize then .ok (some (id ||| ((1 : UInt64) <<< 63), op.payload))
    else .error .putRecordPayload

variable {op : DeltaOp} {format : DeltaFormat}

theorem DeltaOp.length_of_validateForFormat
    (h : op.validateForFormat format = .ok ()) (hk : op.kind = .putRecord) :
    op.payload.length = nodeRecordSize ∨ op.payload.length = relRecordSize := by
  unfold DeltaOp.validateForFormat at h
  split at h
  · cases h
  · split at h
    · cases h
    · rename_i hhome
      simp only [hk, true_and, Bool.not_eq_true', Bool.not_eq_false] at hhome
      cases format <;> simp only [putRecordHome, Bool.and_eq_true, Bool.or_eq_true,
        decide_eq_true_eq] at hhome <;> simp only [nodeRecordSize, relRecordSize] <;> tauto

/-- An operation that passed validation always projects: the error exit of the
delta normalisation is dead. -/
theorem putRecordMvccWrite_ok
    (h : op.validateForFormat format = .ok ()) : ∃ w, putRecordMvccWrite op = .ok w := by
  unfold putRecordMvccWrite
  by_cases hk : op.kind = .putRecord
  · rcases DeltaOp.length_of_validateForFormat h hk with hl | hl
    · simp [hk, hl]
    · simp [hk, hl, nodeRecordSize, relRecordSize]
  · simp [hk]

theorem DeltaIntent.validate_of_assignForFormat {intent : DeltaIntent} {opLsn commitLsn : Nat}
 (h : intent.assignForFormat opLsn commitLsn format = .ok op) :
    op.validateForFormat format = .ok () := by
  unfold assignForFormat at h
  split at h
  · cases h
  · split at h
    · cases h
    · rename_i hv
      cases h
      exact hv

end ArcGraph.Wal
