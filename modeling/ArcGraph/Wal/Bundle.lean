import ArcGraph.Foundation.Parser
import ArcGraph.Foundation.Sorting
import ArcGraph.Wal.Delta

/-!
# Commit bundles and their decoders

The payload of a `CommitBundle` record in its ten formats. Formats 1 to 8 extend
each other by sections; formats 9 and 10 carry deltas. A hash map is the sorted
list of its entries, a page is a byte list of the page size, and the capacity
hints of the source, which bound an allocation and nothing else, have no
counterpart. A message ends before the text of a UTF-8 error.
-/

namespace ArcGraph.Wal
open Foundation Parser

abbrev Reader := Parser WalError

abbrev PageBytes := ByteVec pageSize

/-! ## Sections -/

inductive BundlePageKind
  | primaryIndex
  | secondaryIndex
  | record
  | blob
  | vector
  | propSlotted
deriving DecidableEq

namespace BundlePageKind

def asByte : BundlePageKind → UInt8
  | primaryIndex => 0
  | secondaryIndex => 1
  | record => 2
  | blob => 3
  | vector => 4
  | propSlotted => 5

def fromByte : UInt8 → Except WalError BundlePageKind
  | 0 => .ok primaryIndex
  | 1 => .ok secondaryIndex
  | 2 => .ok record
  | 3 => .ok blob
  | 4 => .ok vector
  | 5 => .ok propSlotted
  | other => .error (.corruption 0 s!"CommitBundle v3: unknown BundlePageKind byte {other}")

/-- The `Debug` rendering. -/
def debug : BundlePageKind → String
  | primaryIndex => "PrimaryIndex"
  | secondaryIndex => "SecondaryIndex"
  | record => "Record"
  | blob => "Blob"
  | vector => "Vector"
  | propSlotted => "PropSlotted"

def isRetained : BundlePageKind → Bool
  | primaryIndex | secondaryIndex | blob => true
  | _ => false

end BundlePageKind

inductive AllocatorKind
  | node
  | rel
  | pageFree
  | pageNode
  | pageRel
  | pageTel
  | pageIndexInternal
  | pageIndexLeaf
  | pageVectorNeighbor
  | pageWalBuffer
  | pageIndexOverflow
  | pagePropSlotted
  | internString
  | aclClass
deriving DecidableEq

namespace AllocatorKind

def asByte : AllocatorKind → UInt8
  | node => 0
  | rel => 1
  | pageFree => 2
  | pageNode => 3
  | pageRel => 4
  | pageTel => 5
  | pageIndexInternal => 6
  | pageIndexLeaf => 7
  | pageVectorNeighbor => 8
  | pageWalBuffer => 9
  | pageIndexOverflow => 10
  | pagePropSlotted => 11
  | internString => 12
  | aclClass => 13

def fromByte : UInt8 → Except WalError AllocatorKind
  | 0 => .ok node
  | 1 => .ok rel
  | 2 => .ok pageFree
  | 3 => .ok pageNode
  | 4 => .ok pageRel
  | 5 => .ok pageTel
  | 6 => .ok pageIndexInternal
  | 7 => .ok pageIndexLeaf
  | 8 => .ok pageVectorNeighbor
  | 9 => .ok pageWalBuffer
  | 10 => .ok pageIndexOverflow
  | 11 => .ok pagePropSlotted
  | 12 => .ok internString
  | 13 => .ok aclClass
  | other => .error (.corruption 0 s!"CommitBundle v4: unknown AllocatorKind byte {other}")

end AllocatorKind

inductive IdempotencyBindingOp
  | install
  | release
deriving DecidableEq

variable (commitLsn : Nat)

namespace IdempotencyBindingOp

def asByte : IdempotencyBindingOp → UInt8
  | install => 0
  | release => 1

def fromByte : UInt8 → Except WalError IdempotencyBindingOp
  | 0 => .ok install
  | 1 => .ok release
  | other =>
    .error (.corruption commitLsn s!"CommitBundle v7: unknown idempotency_binding op {other}")

end IdempotencyBindingOp

inductive AclGrantOp
  | apply
  | revoke
deriving DecidableEq

namespace AclGrantOp

def asByte : AclGrantOp → UInt8
  | apply => 0
  | revoke => 1

def fromByte : UInt8 → Except WalError AclGrantOp
  | 0 => .ok apply
  | 1 => .ok revoke
  | other => .error (.corruption commitLsn s!"CommitBundle v8: unknown acl_grant op {other}")

end AclGrantOp

def utf8 (s : String) : Bytes := s.toByteArray.data.toList

def fromUtf8 (bytes : Bytes) : Option String := String.fromUTF8? ⟨bytes.toArray⟩

def utf8Key (s : String) : List Nat := (utf8 s).map UInt8.toNat

def writeKey (e : MvccKey × Option Bytes) : Nat := e.1.toNat

abbrev MvccWrites := Keyed writeKey

/-- The principals of one ACL operation, a `BTreeSet`. -/
abbrev GrantSet := Keyed utf8Key

structure DecodedStagedPage where
  kind : BundlePageKind
  pageId : UInt64
  tenantId : TenantId
  bytes : PageBytes
deriving DecidableEq

structure AllocatorAdvance where
  tenant : TenantId
  kind : AllocatorKind
  newHighWater : UInt64
deriving DecidableEq

structure VectorPageEntry where
  tenant : TenantId
  «partition» : UInt32
  indexId : UInt64
  pageId : UInt64
  commitLsn : Nat
  bytes : PageBytes
deriving DecidableEq

structure IdempotencyBindingEntry where
  op : IdempotencyBindingOp
  tenant : TenantId
  kind : UInt8
  internalId : UInt64
  externalId : String
deriving DecidableEq

structure AclGrantEntry where
  op : AclGrantOp
  tenant : TenantId
  doc : UInt64
  grants : GrantSet
deriving DecidableEq

structure DecodedCommitBundle where
  commitLsn : Nat
  primaryTenant : TenantId
  mvccWrites : MvccWrites
  sidechannelWrites : List SideChannelWrite := []
  stagedPages : List DecodedStagedPage := []
  deltas : List DeltaOp := []
  allocatorAdvances : List AllocatorAdvance := []
  vectorPages : List VectorPageEntry := []
  idempotencyBindings : List IdempotencyBindingEntry := []
  aclGrants : List AclGrantEntry := []
deriving DecidableEq

namespace DecodedCommitBundle

/-- The LSNs the bundle's commit owns; the source panics where there are none. -/
def redoRange (b : DecodedCommitBundle) : Option RedoLsnRange :=
  RedoLsnRange.endingAt b.commitLsn b.deltas.length

end DecodedCommitBundle

/-! ## Field readers -/

/-- Any fixed-width field fails with the same text. -/
def truncated (width what : String) : WalError :=
  .corruption 0 s!"CommitBundle: truncated {width} for {what}"

variable (what : String)

def readU64Le : Reader UInt64 := do
  let n ← uint 8 (truncated "u64" what)
  return UInt64.ofNat n

def readLsn : Reader Nat := uint 8 (truncated "u64" what)

def readU32Le : Reader Nat := uint 4 (truncated "u32" what)

def readU8 : Reader UInt8 := byte (truncated "u8" what)

def readString (lenWhat : String) (overrun invalid : WalError) : Reader String := do
  let len ← readU32Le lenWhat
  let bytes ← take len overrun
  match fromUtf8 bytes.val with
  | some s => return s
  | none => .fail invalid

/-! ## MVCC entries -/

/-- The texts in which the formats' MVCC sections differ. -/
structure MvccTexts where
  label : String
  tombstoneLength : String
  valueOverrun : String
  unknownKind : UInt8 → String

def mvccTexts (label : String) : MvccTexts where
  label := label
  tombstoneLength := s!"{label}: tombstone with non-zero value_len"
  valueOverrun := s!"{label}: mvcc value overruns payload"
  unknownKind other := s!"{label}: unknown mvcc kind {other}"

def mvccTextsV9 : MvccTexts where
  label := "CommitBundle v9"
  tombstoneLength := "CommitBundle v9 tombstone has non-zero value length"
  valueOverrun := "CommitBundle v9 MVCC value overruns payload"
  unknownKind other := s!"CommitBundle v9 unknown MVCC kind {other}"

namespace MvccTexts
variable (t : MvccTexts)

def field (name : String) : String := t.label ++ ": " ++ name

def readValue (commitLsn : Nat) : Reader (Option Bytes) := do
  let kind ← readU8 (t.field "mvcc kind")
  let len ← readU32Le (t.field "mvcc value_len")
  match kind with
  | 0 =>
    require (len = 0) (.corruption commitLsn t.tombstoneLength)
    return none
  | 1 =>
    let value ← take len (.corruption commitLsn t.valueOverrun)
    return some value.val
  | other => .fail (.corruption commitLsn (t.unknownKind other))

/-- An entry of format 1, which belongs to the primary tenant. -/
def readOwnEntry (commitLsn : Nat) : Reader (MvccKey × Option Bytes) := do
  let key ← readU64Le (t.field "mvcc key")
  let value ← t.readValue commitLsn
  return (key, value)

def readEntry (commitLsn : Nat) : Reader SideChannelWrite := do
  let tenantId ← readU64Le (t.field "mvcc tenant_id")
  let (key, value) ← t.readOwnEntry commitLsn
  return { tenantId, key, value }

variable (primaryTenant : TenantId)

def readSection : Reader DecodedCommitBundle := do
  let commitLsn ← readLsn (t.field "commit_lsn")
  let n ← readU32Le (t.field "n_mvcc_writes")
  let entries ← times (t.readEntry commitLsn) n
  return {
    commitLsn
    primaryTenant
    mvccWrites :=
      .ofList ((entries.filter (·.tenantId = primaryTenant)).map fun e => (e.key, e.value))
    sidechannelWrites := entries.filter (·.tenantId ≠ primaryTenant) }

/-- Format 1 has no tenant column: everything belongs to the primary tenant. -/
def readOwnSection : Reader DecodedCommitBundle := do
  let commitLsn ← readLsn (t.field "commit_lsn")
  let n ← readU32Le (t.field "n_mvcc_writes")
  let entries ← times (t.readOwnEntry commitLsn) n
  return { commitLsn, primaryTenant, mvccWrites := .ofList entries }

end MvccTexts

/-! ## Page images -/

/-- An index page of formats 1 and 2, which have no other pages. -/
def readIndexPage (label : String) (commitLsn : Nat) : Reader DecodedStagedPage := do
  let pageId ← readU64Le s!"{label}: index page_id"
  let tenantId ← readU64Le s!"{label}: index tenant_id"
  let bytes ←
    take pageSize (.corruption commitLsn s!"{label}: index page bytes overrun payload")
  return { kind := .primaryIndex, pageId, tenantId, bytes }

def readIndexPages (label : String) (commitLsn : Nat) : Reader (List DecodedStagedPage) := do
  let n ← readU32Le s!"{label}: n_index_pages"
  times (readIndexPage label commitLsn) n

def readStagedPage (label : String) (commitLsn : Nat) : Reader DecodedStagedPage := do
  let kindByte ← readU8 s!"{label}: staged_page kind"
  let kind ← lift (BundlePageKind.fromByte kindByte)
  let pageId ← readU64Le s!"{label}: staged_page page_id"
  let tenantId ← readU64Le s!"{label}: staged_page tenant_id"
  let nBytes ← readU32Le s!"{label}: staged_page n_bytes"
  require (nBytes = pageSize)
    (.corruption commitLsn s!"{label}: staged_page n_bytes={nBytes} != PAGE_SIZE ({pageSize})")
  let bytes ←
    take pageSize (.corruption commitLsn s!"{label}: staged_page bytes overrun payload")
  return { kind, pageId, tenantId, bytes }

def readStagedPages (label : String) (commitLsn : Nat) : Reader (List DecodedStagedPage) := do
  let n ← readU32Le s!"{label}: n_staged_pages"
  times (readStagedPage label commitLsn) n

def readRetainedPage : Reader DecodedStagedPage := do
  let kindByte ← readU8 "CommitBundle v9: retained page kind"
  let kind ← lift (BundlePageKind.fromByte kindByte)
  let name := kind.debug
  require kind.isRetained
    (.corruption commitLsn s!"CommitBundle v9 retained forbidden page image kind {name}")
  let pageId ← readU64Le "CommitBundle v9: retained page id"
  let tenantId ← readU64Le "CommitBundle v9: retained page tenant"
  let nBytes ← readU32Le "CommitBundle v9: retained page n_bytes"
  let invalid := WalError.corruption commitLsn "CommitBundle v9 retained page length invalid"
  require (nBytes = pageSize) invalid
  let bytes ← take pageSize invalid
  return { kind, pageId, tenantId, bytes }

def readRetainedPages : Reader (List DecodedStagedPage) := do
  let n ← readU32Le "CommitBundle v9: n_retained_page_images"
  times (readRetainedPage commitLsn) n

/-! ## Allocator advances and vector pages -/

def readAllocatorAdvance (label : String) : Reader AllocatorAdvance := do
  let tenant ← readU64Le s!"{label}: allocator_advance tenant_id"
  let kindByte ← readU8 s!"{label}: allocator_advance kind"
  let kind ← lift (AllocatorKind.fromByte kindByte)
  let newHighWater ← readU64Le s!"{label}: allocator_advance new_high_water"
  return { tenant, kind, newHighWater }

def readAllocatorAdvances (label : String) : Reader (List AllocatorAdvance) := do
  let n ← readU32Le s!"{label}: n_allocator_advances"
  times (readAllocatorAdvance label) n

/-- `parse_v4_allocator_advances`, which drops the version from the label. -/
def parseV4AllocatorAdvances : Reader (List AllocatorAdvance) :=
  readAllocatorAdvances "CommitBundle"

def readVectorPageV5 : Reader VectorPageEntry := do
  let tenant ← readU64Le "CommitBundle v5: vector_page tenant_id"
  let raw ← readLsn "CommitBundle v5: vector_page partition_id"
  let indexId ← readU64Le "CommitBundle v5: vector_page index_id"
  let pageId ← readU64Le "CommitBundle v5: vector_page page_id"
  let entryLsn ← readLsn "CommitBundle v5: vector_page commit_lsn"
  let nBytes ← readU32Le "CommitBundle v5: vector_page n_bytes"
  require (nBytes = pageSize) (.corruption commitLsn
    s!"CommitBundle v5: vector_page n_bytes={nBytes} != PAGE_SIZE ({pageSize})")
  let bytes ← take pageSize
    (.corruption commitLsn "CommitBundle v5: vector_page bytes overrun payload")
  require (raw < 2 ^ 32) (.corruption commitLsn (s!"CommitBundle v5: vector_page " ++
    s!"partition_id={raw} overflows u32 (v1.0 invariant: always 0)"))
  return { tenant, «partition» := UInt32.ofNat raw, indexId, pageId, commitLsn := entryLsn, bytes }

def readVectorPagesV5 : Reader (List VectorPageEntry) := do
  let n ← readU32Le "CommitBundle v5: n_vector_pages"
  times (readVectorPageV5 commitLsn) n

def readVectorPageV9 : Reader VectorPageEntry := do
  let tenant ← readU64Le "CommitBundle v9: vector tenant"
  let raw ← readLsn "CommitBundle v9: vector partition"
  require (raw < 2 ^ 32)
    (.corruption commitLsn "CommitBundle v9 vector partition overflows u32")
  let indexId ← readU64Le "CommitBundle v9: vector index"
  let pageId ← readU64Le "CommitBundle v9: vector page"
  let entryLsn ← readLsn "CommitBundle v9: vector commit_lsn"
  let nBytes ← readU32Le "CommitBundle v9: vector n_bytes"
  let invalid := WalError.corruption commitLsn "CommitBundle v9 vector page length invalid"
  require (nBytes = pageSize) invalid
  let bytes ← take pageSize invalid
  return { tenant, «partition» := UInt32.ofNat raw, indexId, pageId, commitLsn := entryLsn, bytes }

def readVectorPagesV9 : Reader (List VectorPageEntry) := do
  let n ← readU32Le "CommitBundle v9: n_vector_pages"
  times (readVectorPageV9 commitLsn) n

/-! ## Idempotency bindings and ACL grants -/

/-- A binding after its operation byte; `label` names the format. -/
def readBinding (label : String) (commitLsn : Nat) (op : IdempotencyBindingOp) :
    Reader IdempotencyBindingEntry := do
  let tenant ← readU64Le s!"{label}: idempotency_binding tenant_id"
  let kind ← readU8 s!"{label}: idempotency_binding kind"
  let internalId ← readU64Le s!"{label}: idempotency_binding internal_id"
  let externalId ← readString s!"{label}: idempotency_binding ext_len"
    (.corruption commitLsn s!"{label}: idempotency_binding external_id overruns payload")
    (.corruption commitLsn s!"{label}: idempotency_binding external_id not UTF-8")
  return { op, tenant, kind, internalId, externalId }

/-- Format 6 has no operation byte: every binding is an install. -/
def readIdempotencyBindingsV6 : Reader (List IdempotencyBindingEntry) := do
  let n ← readU32Le "CommitBundle v6: n_idempotency_bindings"
  times (readBinding "CommitBundle v6" commitLsn .install) n

def readIdempotencyBindingV7 : Reader IdempotencyBindingEntry := do
  let opByte ← readU8 "CommitBundle v7: idempotency_binding op"
  let op ← lift (IdempotencyBindingOp.fromByte commitLsn opByte)
  readBinding "CommitBundle v7" commitLsn op

def parseV7IdempotencyTail : Reader (List IdempotencyBindingEntry) := do
  let n ← readU32Le "CommitBundle v7: n_idempotency_bindings"
  times (readIdempotencyBindingV7 commitLsn) n

def readGrant : Reader String :=
  readString "CommitBundle v8: acl_grant grant_len"
    (.corruption commitLsn "CommitBundle v8: acl_grant principal overruns payload")
    (.corruption commitLsn "CommitBundle v8: acl_grant principal not UTF-8")

def readAclGrant : Reader AclGrantEntry := do
  let opByte ← readU8 "CommitBundle v8: acl_grant op"
  let op ← lift (AclGrantOp.fromByte commitLsn opByte)
  let tenant ← readU64Le "CommitBundle v8: acl_grant tenant_id"
  let doc ← readU64Le "CommitBundle v8: acl_grant doc"
  let n ← readU32Le "CommitBundle v8: acl_grant n_grants"
  let grants ← times (readGrant commitLsn) n
  return { op, tenant, doc, grants := .ofList grants }

def parseV8AclGrants : Reader (List AclGrantEntry) := do
  let n ← readU32Le "CommitBundle v8: n_acl_grants"
  times (readAclGrant commitLsn) n

/-! ## Deltas -/

namespace DeltaFormat

def version : DeltaFormat → Nat
  | v9 => 9
  | v10 => 10

end DeltaFormat

/-- `DeltaOp::decode_prefix_for_format`. -/
def readDeltaOp (format : DeltaFormat) : Reader DeltaOp := do
  let fixed ← take 34 (.corruption 0 "truncated DeltaOp fixed prefix")
  let number (offset width : Nat) : Nat := leValue ((fixed.val.drop offset).take width)
  let reserved := number 3 1
  let opLsn := number 22 8
  require (reserved = 0)
    (.corruption 0 s!"DeltaOp reserved byte must be 0, got {reserved}")
  let payload ← take (number 30 4) (.corruption opLsn "DeltaOp payload overruns bundle")
  let kindByte := UInt8.ofNat (number 0 1)
  match DeltaOpKind.ofByte kindByte with
  | none => .fail (.corruption opLsn s!"unknown DeltaOp kind {kindByte}")
  | some kind =>
    let op : DeltaOp :=
      { kind
        storeId := UInt16.ofNat (number 1 2)
        tenantId := UInt64.ofNat (number 4 8)
        pageNo := UInt64.ofNat (number 12 8)
        slot := UInt16.ofNat (number 20 2)
        opLsn
        payload := payload.val }
    lift ((op.validateForFormat format).mapError .delta)
    return op

/-- The operation at `index` must carry the LSN the range gives it. -/
def readDelta (format : DeltaFormat) (commitLsn : Nat) (range : RedoLsnRange) (index : Nat) :
    Reader DeltaOp := do
  let op ← readDeltaOp format
  let found := op.opLsn
  let expected := (range.opLsn index).getD 0
  require (found = expected) (.corruption commitLsn
    s!"CommitBundle v9 delta {index} op_lsn Lsn({found}), expected Lsn({expected})")
  return op

/-- One pass over the physical operations that allocate (`alloc` gives the key they
create) or use (`use`) something: no key is allocated twice or after a use. -/
def allocationOrdered {κ : Type} [DecidableEq κ] (alloc use : DeltaOp → Option κ) :
    List DeltaOp → (used allocated : List κ) → Bool
  | [], _, _ => true
  | op :: rest, used, allocated =>
    match alloc op with
    | some key =>
      !(used.contains key || allocated.contains key)
        && allocationOrdered alloc use rest used (key :: allocated)
    | none =>
      match use op with
      | some key => allocationOrdered alloc use rest (key :: used) allocated
      | none => allocationOrdered alloc use rest used allocated

def pageKey (op : DeltaOp) : TenantId × UInt16 × Nat := (op.tenantId, op.storeId, op.pageNo.toNat)

variable (deltas : List DeltaOp)

/-- A use after the allocation is not recorded by the source; recording it changes
nothing, since a second allocation is refused anyway. -/
def validateDeltaPageAllocOrder :
    Except WalError Unit :=
  if allocationOrdered (fun op => if op.kind = .pageAlloc then some (pageKey op) else none)
      (fun op => some (pageKey op)) (deltas.filter (·.kind.isPhysical)) [] [] then .ok ()
  else
    .error (.corruption commitLsn "CommitBundle v9 PageAlloc is duplicate or sorts after page use")

def dirPageTag : Nat := 2 ^ 62

def extentKey (op : DeltaOp) (logicalExtent : Nat) : TenantId × UInt16 × Nat :=
  (op.tenantId, op.storeId, logicalExtent)

/-- The source's exit for an undecodable allocation is dead: every operation here
passed validation, which decodes it. -/
def validateDeltaExtentAllocOrder :
    Except WalError Unit :=
  if allocationOrdered
      (fun op =>
        if op.kind = .extentAlloc then
          (ExtentAllocation.decode op.payload).map fun a => extentKey op a.logicalExtent
        else none)
      (fun op =>
        if op.kind ≠ .extentAlloc ∧ op.pageNo.toNat < dirPageTag then
          some (extentKey op (op.pageNo.toNat / extentPages))
        else none)
      (deltas.filter (·.kind.isPhysical)) [] [] then .ok ()
  else
    .error (.corruption commitLsn
      "CommitBundle v9 ExtentAlloc is duplicate or sorts after extent page use")

def readDeltas (format : DeltaFormat) (commitLsn : Nat) : Reader (List DeltaOp) := do
  let n ← readU32Le "CommitBundle v9: n_deltas"
  match RedoLsnRange.endingAt commitLsn n with
  | none =>
    .fail (.corruption commitLsn "CommitBundle v9 delta count underflows commit LSN range")
  | some range =>
    let deltas ← timesFrom (readDelta format commitLsn range) 0 n
    lift (validateDeltaPageAllocOrder commitLsn deltas)
    lift (validateDeltaExtentAllocOrder commitLsn deltas)
    return deltas

/-! ## Formats -/

/-- The end of every decoder: what is left over is an error. -/
def decodeAll (label : String) (p : Reader DecodedCommitBundle) (bytes : Bytes) :
    Except WalError DecodedCommitBundle :=
  p.runAll (fun b n => .corruption b.commitLsn s!"{label}: {n} trailing bytes after decode") bytes

section
variable (primaryTenant : TenantId)

def sectionsV1 : Reader DecodedCommitBundle := do
  let b ← (mvccTexts "CommitBundle").readOwnSection primaryTenant
  let stagedPages ← readIndexPages "CommitBundle" b.commitLsn
  return { b with stagedPages }

def sectionsV2 : Reader DecodedCommitBundle := do
  let b ← (mvccTexts "CommitBundle v2").readSection primaryTenant
  let stagedPages ← readIndexPages "CommitBundle v2" b.commitLsn
  return { b with stagedPages }

/-- The sections of format 3, which formats 4 and 5 repeat under their own label. -/
def sectionsV3 (label : String) : Reader DecodedCommitBundle := do
  let b ← (mvccTexts label).readSection primaryTenant
  let stagedPages ← readStagedPages label b.commitLsn
  return { b with stagedPages }

def sectionsV4 : Reader DecodedCommitBundle := do
  let b ← sectionsV3 primaryTenant "CommitBundle v4"
  let allocatorAdvances ← readAllocatorAdvances "CommitBundle v4"
  return { b with allocatorAdvances }

/-- `decode_commit_bundle_v5_sections` -/
def sectionsV5 : Reader DecodedCommitBundle := do
  let b ← sectionsV3 primaryTenant "CommitBundle v5"
  let allocatorAdvances ← parseV4AllocatorAdvances
  let vectorPages ← readVectorPagesV5 b.commitLsn
  return { b with allocatorAdvances, vectorPages }

def sectionsV6 : Reader DecodedCommitBundle := do
  let b ← sectionsV5 primaryTenant
  let idempotencyBindings ← readIdempotencyBindingsV6 b.commitLsn
  return { b with idempotencyBindings }

def sectionsV7 : Reader DecodedCommitBundle := do
  let b ← sectionsV5 primaryTenant
  let idempotencyBindings ← parseV7IdempotencyTail b.commitLsn
  return { b with idempotencyBindings }

def sectionsV8 : Reader DecodedCommitBundle := do
  let b ← sectionsV7 primaryTenant
  let aclGrants ← parseV8AclGrants b.commitLsn
  return { b with aclGrants }

/-- `decode_commit_bundle_delta_for_format` -/
def sectionsDelta (format : DeltaFormat) : Reader DecodedCommitBundle := do
  let b ← mvccTextsV9.readSection primaryTenant
  let deltas ← readDeltas format b.commitLsn
  let stagedPages ← readRetainedPages b.commitLsn
  let vectorPages ← readVectorPagesV9 b.commitLsn
  let allocatorAdvances ← parseV4AllocatorAdvances
  let idempotencyBindings ← parseV7IdempotencyTail b.commitLsn
  let aclGrants ← parseV8AclGrants b.commitLsn
  require (format = .v9 || (idempotencyBindings.isEmpty && aclGrants.isEmpty))
    (.corruption b.commitLsn
      "CommitBundle v10 carries retired logical idempotency/ACL owner tails")
  return { b with
    deltas, stagedPages, vectorPages, allocatorAdvances, idempotencyBindings, aclGrants }

end

def decodeCommitBundleForVersion (bytes : Bytes) (formatVersion : Nat) (primaryTenant : TenantId) :
    Except WalError DecodedCommitBundle :=
  match formatVersion with
  | 1 => decodeAll "CommitBundle" (sectionsV1 primaryTenant) bytes
  | 2 => decodeAll "CommitBundle v2" (sectionsV2 primaryTenant) bytes
  | 3 => decodeAll "CommitBundle v3" (sectionsV3 primaryTenant "CommitBundle v3") bytes
  | 4 => decodeAll "CommitBundle v4" (sectionsV4 primaryTenant) bytes
  | 5 => decodeAll "CommitBundle v5" (sectionsV5 primaryTenant) bytes
  | 6 => decodeAll "CommitBundle v6" (sectionsV6 primaryTenant) bytes
  | 7 => decodeAll "CommitBundle v7" (sectionsV7 primaryTenant) bytes
  | 8 => decodeAll "CommitBundle v8" (sectionsV8 primaryTenant) bytes
  | 9 => decodeAll "CommitBundle v9" (sectionsDelta primaryTenant .v9) bytes
  | 10 => decodeAll "CommitBundle v9" (sectionsDelta primaryTenant .v10) bytes
  | v => .error (.formatMismatch v)

end ArcGraph.Wal
