import ArcGraph.Records.PageOp
import ArcGraph.Redo.DirtyPageTable
import ArcGraph.Wal.Delta

/-!
# Redo of physiological operations

Recovery sorts the bundles of the log by their LSN ranges and applies their operations in
order. A page that is missing, or all zero, is formatted by its `PageAlloc`; on a page that
is present an operation is applied if its LSN is newer than the page's, which is stamped
afterwards.

A store maps tenants and page numbers to page images, `none` for a missing page. Several
store ids share the record store. Where the source nests another error's text into a
message, the message ends before it.
-/

namespace ArcGraph.Redo
open Foundation Records Wal OwnerRowClass

/-! ## The redo order -/

structure RedoOrderError where
  previous : RedoLsnRange
  overlapping : RedoLsnRange
deriving DecidableEq

structure RedoOrderStats where
  duplicateRanges : Nat := 0
  gaps : Nat := 0
deriving DecidableEq

section
variable {α : Type} (rangeOf : α → RedoLsnRange)

/-- The loop over the sorted bundles. -/
def checkRedoOrder : List α → Option RedoLsnRange → RedoOrderStats →
    Except RedoOrderError RedoOrderStats
  | [], _, stats => .ok stats
  | b :: rest, none, stats => checkRedoOrder rest (some (rangeOf b)) stats
  | b :: rest, some previous, stats =>
    let current := rangeOf b
    if current = previous then
      checkRedoOrder rest (some previous)
        { stats with duplicateRanges := stats.duplicateRanges + 1 }
    else if current.base ≤ previous.end then .error ⟨previous, current⟩
    else
      checkRedoOrder rest (some current)
        (if previous.end + 1 < current.base then { stats with gaps := stats.gaps + 1 } else stats)

def sortByRedoRange (bundles : List α) : Except RedoOrderError (RedoOrderStats × List α) := do
  let sorted := sortBy (fun b => toLex ((rangeOf b).base, (rangeOf b).end)) bundles
  let stats ← checkRedoOrder rangeOf sorted none {}
  return (stats, sorted)

end

/-! ## One operation on one page -/

def deltaCorruption (op : DeltaOp) (reason : String) : WalError := .corruption op.opLsn reason

variable (storeId : UInt16)

def isOwnerStoreId : Bool :=
  storeId ∈ [storeNodeBindings, storeRelBindings, storeIntern, storeGrants]

def ownerDeltaIsRetirement (payload : Bytes) : Bool := payload.getD 9 0 = 2

def isPageMutation : DeltaOpKind → Bool
  | .putRecord | .putPropBlock | .tombstoneRecord | .internBind | .aclGrant => true
  | _ => false

def storeHolds (header : PageHeader) : Bool :=
  if storeId = storeProps then header.pageType = .propSlotted
  else if storeId = storeRecord then header.pageType = .node ∨ header.pageType = .rel
  else if storeId = storeRels then header.pageType = .rel
  else isOwnerStoreId storeId ∧ header.pageType = .propSlotted ∧ header.flags = storeId

def checkStore (op : DeltaOp) (header : PageHeader) : Except WalError Unit :=
  if storeHolds op.storeId header then .ok ()
  else if op.storeId ∈ [storeProps, storeRecord, storeRels] ∨ isOwnerStoreId op.storeId then
    .error (deltaCorruption op s!"page type does not belong to store_id {op.storeId}")
  else .error (deltaCorruption op s!"store_id {op.storeId} is not page-LSN-governed at M3")

section
variable (crc32c : Bytes → UInt32)

/-- The page that a mutation leaves, stamped, if its LSN is newer than the page's. -/
def applyRedoIfNewer {ε : Type} (page : SlottedPage) (opLsn : Nat)
    (mutate : SlottedPage → Except ε SlottedPage) : Except ε (Option SlottedPage) :=
  if opLsn ≤ page.header.lsn then .ok none
  else do
    let page ← mutate page
    return some { page with header := { page.header with lsn := opLsn } }

def mutatePage (op : DeltaOp) (commitLsn : Nat) (page : SlottedPage) :
    Except WalError SlottedPage :=
  let slot := op.slot.toNat
  let failed (what : String) (_ : PageError) := deltaCorruption op s!"{what} apply failed"
  match op.kind, page.header.pageType with
  | .putRecord, .node => do
      if op.payload.length ≠ NodeRecord.size then
        throw (deltaCorruption op "PutRecord node payload is not exactly 64 bytes")
      let record ← (NodeRecord.fromBytes op.payload).mapError fun _ =>
        deltaCorruption op "invalid node payload"
      (page.putNodeAt crc32c slot record).mapError (failed "PutRecord")
  | .putRecord, .rel => do
      if op.payload.length ≠ RelRecord.size then
        throw (deltaCorruption op "PutRecord relationship payload is not exactly 96 bytes")
      let record ← (RelRecord.fromBytes op.payload).mapError fun _ =>
        deltaCorruption op "invalid relationship payload"
      (page.putRelAt crc32c slot record).mapError (failed "PutRecord")
  | .putRecord, _ => .error (deltaCorruption op "PutRecord cannot target page type")
  | .putPropBlock, .propSlotted =>
    (page.putBagAt crc32c slot op.payload).mapError (failed "PutPropBlock")
  | .putPropBlock, _ => .error (deltaCorruption op "PutPropBlock cannot target page type")
  | .internBind, .propSlotted | .aclGrant, .propSlotted =>
    if ownerDeltaIsRetirement op.payload then
      (page.permanentTombstoneFixedBagAtSlot crc32c slot op.opLsn ownerRowBytes
        ownerRowsPerPage).mapError (failed "owner-row retirement")
    else
      (page.putFixedBagAtSlot crc32c slot op.payload ownerRowsPerPage).mapError
        (failed "owner-row put")
  | .internBind, _ | .aclGrant, _ =>
    .error (deltaCorruption op "owner-row delta cannot target page type")
  | .tombstoneRecord, .node => (page.tombstone crc32c slot).mapError (failed "node tombstone")
  | .tombstoneRecord, .rel =>
    match page.readRel slot with
    | .error _ => .error (deltaCorruption op "relationship tombstone read failed")
    | .ok none => .error (deltaCorruption op "relationship tombstone targets an empty slot")
    | .ok (some record) =>
      (page.updateRel crc32c slot
        { record with expiredLsn := UInt64.ofNat commitLsn }).mapError
          (failed "relationship tombstone")
  | .tombstoneRecord, _ => .error (deltaCorruption op "TombstoneRecord cannot target page type")
  | _, _ => .error (deltaCorruption op "unreachable: physical data kinds checked before page attach")

variable (page : SlottedPage) (op : DeltaOp) (commitLsn : Nat)

/-- What `apply_physical_delta` checks before it looks at the page's LSN. -/
def checkTarget : Except WalError Unit := do
  op.validateShape.mapError .delta
  if !isPageMutation op.kind then
    throw (deltaCorruption op "DeltaOp kind is not a physical data mutation")
  if commitLsn < op.opLsn then
    let lsn := op.opLsn
    throw (deltaCorruption op s!"bundle commit_lsn {commitLsn} precedes op_lsn {lsn}")
  (page.attach crc32c).mapError fun _ => deltaCorruption op "cannot open target page"
  if page.header.pageId ≠ op.pageNo ∨ page.header.tenantId ≠ op.tenantId then
    throw (deltaCorruption op "delta target tenant/page does not match page header")
  checkStore op page.header

/-- The changed page, `none` if its LSN covers the operation already. -/
def applyPhysicalDelta :
    Except WalError (Option SlottedPage) := do
  checkTarget crc32c page op commitLsn
  applyRedoIfNewer page op.opLsn (mutatePage crc32c op commitLsn)

/-! ## Recovery -/

inductive RecoveryDeltaOutcome
  | idempotent
  | formatted
  | applied
deriving DecidableEq

/-- The pages of a `DeltaPageStore`; an all-zero page counts as missing. -/
abbrev PageStore := TenantId × UInt64 → Option SlottedPage

structure RedoStores where
  props : PageStore
  records : PageStore
  dpt : DirtyPageTable

def recordStores : List UInt16 :=
  [storeRecord, storeTel, storeRels, storeNodeBindings, storeRelBindings, storeIntern, storeGrants]

variable (s : RedoStores)

namespace RedoStores

def readPageForRedo (op : DeltaOp) : Option SlottedPage :=
  if op.storeId = storeProps then s.props (op.tenantId, op.pageNo)
  else s.records (op.tenantId, op.pageNo)

/-- `install_page_from_redo`, and the page marked dirty. -/
def installPageFromRedo (op : DeltaOp) (page : SlottedPage) : RedoStores :=
  let dpt := (s.dpt.markDirty ⟨op.tenantId, op.storeId, op.pageNo⟩ op.opLsn).2
  if op.storeId = storeProps then
    { s with props := Function.update s.props (op.tenantId, op.pageNo) (some page), dpt }
  else { s with records := Function.update s.records (op.tenantId, op.pageNo) (some page), dpt }

end RedoStores

/-- The page that `PageAlloc` puts in place of a missing one. -/
def formatPage (op : DeltaOp) : Except WalError SlottedPage := do
  if op.kind ≠ .pageAlloc then
    let store := op.storeId
    throw (deltaCorruption op s!"delta references absent store {store} page with no preceding PageAlloc")
  match PageType.ofByte (op.payload.getD 0 0) with
  | none => .error (deltaCorruption op "PageAlloc carries invalid page type")
  | some .tel =>
    .ok
      { header :=
          { pageType := .tel
            pageId := op.pageNo
            lsn := op.opLsn
            tenantId := op.tenantId
            checksum := crc32c (Buffer.zero.read slotAreaStart pageBodyBytes)
            freeSpace := pageSize - slotAreaStart }
        bytes := Buffer.zero }
  | some pageType => do
      let flags := if isOwnerStoreId op.storeId then op.storeId else 0
      let page ← (SlottedPage.init crc32c
        { pageType, flags, pageId := op.pageNo, tenantId := op.tenantId }).mapError fun _ =>
          deltaCorruption op "PageAlloc format failed"
      let stamped ← applyRedoIfNewer page op.opLsn .ok
      return stamped.getD page

def checkPresent : Except WalError Unit :=
  if op.storeId = storeTel ∧ op.kind = .pageAlloc then
    if page.header.pageId ≠ op.pageNo ∨ page.header.tenantId ≠ op.tenantId ∨
        page.header.pageType ≠ .tel ∨
        crc32c (page.bytes.read slotAreaStart pageBodyBytes) ≠ page.header.checksum then
      .error (deltaCorruption op "torn/invalid TEL page survived DWB restore")
    else .ok ()
  else
    (page.attach crc32c).mapError fun _ =>
      deltaCorruption op "torn/invalid page survived DWB restore"

/-- An operation on a page that is present: the changed page, `none` if it is covered. -/
def redoPresent :
    Except WalError (Option SlottedPage) := do
  checkPresent crc32c page op
  if op.kind = .pageAlloc then
    if op.opLsn ≤ page.header.lsn then return none
    else throw (deltaCorruption op
      "PageAlloc encountered an already-formatted page with an older page_lsn")
  else applyPhysicalDelta crc32c page op commitLsn

/-- What `apply_recovery_delta` checks before it reads the page. -/
def checkPhysical (op : DeltaOp) : Except WalError Unit := do
  op.validateShape.mapError .delta
  if op.storeId = storeBlobOverflow then
    throw (deltaCorruption op
      "blob.overflow store_id 5 is PAGE-IMAGE at M3; physical delta replay is reserved")
  if !op.kind.isPhysical then
    throw (deltaCorruption op "logical op passed to physical redo")
  if op.storeId ≠ storeProps ∧ op.storeId ∉ recordStores then
    let other := op.storeId
    throw (deltaCorruption op s!"store_id {other} is outside the M3 delta set")

def applyRecoveryDelta (op : DeltaOp) (commitLsn : Nat) :
    Except WalError (RecoveryDeltaOutcome × RedoStores) := do
  checkPhysical op
  match s.readPageForRedo op with
  | none => do
      let page ← formatPage crc32c op
      return (.formatted, s.installPageFromRedo op page)
  | some page => do
      let changed ← redoPresent crc32c page op commitLsn
      match changed with
      | none => return (.idempotent, s)
      | some page => return (.applied, s.installPageFromRedo op page)

/-! ## The redo pass -/

structure RedoBundle where
  range : RedoLsnRange
  ops : List DeltaOp

inductive RedoError
  | order (error : RedoOrderError)
  | wal (error : WalError)
deriving DecidableEq

variable (bundles : List RedoBundle)

/-- The operations of sorted bundles, each with the commit LSN of its bundle. -/
def redoOps : List (DeltaOp × Nat) :=
  bundles.flatMap fun b => b.ops.map (·, b.range.end)

def applyAll (ops : List (DeltaOp × Nat)) : Except WalError RedoStores :=
  ops.foldlM (fun s op => do
    let (_, s) ← applyRecoveryDelta crc32c s op.1 op.2
    return s) s

def redoPass : Except RedoError RedoStores := do
  let (_, sorted) ← (sortByRedoRange RedoBundle.range bundles).mapError .order
  (applyAll crc32c s (redoOps sorted)).mapError .wal

end

section
variable {ε : Type} {page page' : SlottedPage} {mutate : SlottedPage → Except ε SlottedPage}
  {lsn : Nat}

theorem applyRedoIfNewer_some (h : applyRedoIfNewer page lsn mutate = .ok (some page')) :
    page.header.lsn < lsn ∧ ∃ q, mutate page = .ok q ∧
      page' = { q with header := { q.header with lsn := lsn } } := by
  unfold applyRedoIfNewer at h
  split at h
  · cases h
  · rename_i hlsn
    obtain ⟨q, hq, h⟩ := bind_eq_ok.mp h
    cases h
    exact ⟨not_le.mp hlsn, q, hq, rfl⟩

theorem applyRedoIfNewer_none :
    applyRedoIfNewer page lsn mutate = .ok none ↔ lsn ≤ page.header.lsn := by
  unfold applyRedoIfNewer
  constructor
  · intro h
    split at h
    · assumption
    · obtain ⟨q, -, h⟩ := bind_eq_ok.mp h
      cases h
  · intro h
    exact if_pos h

end

/-! ## Mutations as page operations -/

/-- The page operation that a mutation is. -/
inductive Redoes (op : DeltaOp) (page : SlottedPage) : PageOp → Prop
  | putNode (h : op.kind = .putRecord) (r : NodeRecord) :
      Redoes op page (.putNodeAt op.slot.toNat r)
  | putRel (h : op.kind = .putRecord) (r : RelRecord) : Redoes op page (.putRelAt op.slot.toNat r)
  | putBag (h : op.kind = .putPropBlock) : Redoes op page (.putBagAt op.slot.toNat op.payload)
  | putRow : Redoes op page
      (.putFixedBagAtSlot op.slot.toNat op.payload ownerRowsPerPage)
  | retireRow (h : op.kind = .internBind ∨ op.kind = .aclGrant) : Redoes op page
      (.permanentTombstoneFixedBagAtSlot op.slot.toNat op.opLsn ownerRowBytes
        ownerRowsPerPage)
  | tombstoneNode (h : op.kind = .tombstoneRecord) (htype : page.header.pageType = .node) :
      Redoes op page (.tombstone op.slot.toNat)
  | expireRel (h : op.kind = .tombstoneRecord) (r : RelRecord) :
      Redoes op page (.updateRel op.slot.toNat r)

theorem mutatePage_ok {crc32c : Bytes → UInt32} {op : DeltaOp} {commitLsn : Nat}
    {page page' : SlottedPage} (h : mutatePage crc32c op commitLsn page = .ok page') :
    ∃ pageOp, Redoes op page pageOp ∧ pageOp.apply crc32c page = .ok (op.slot.toNat, page') := by
  have happly : ∀ {x : Except PageError SlottedPage} {f : PageError → WalError},
      x.mapError f = .ok page' → (do return (op.slot.toNat, ← x)) = .ok (op.slot.toNat, page') := by
    intro x f hx
    exact bind_eq_ok.mpr ⟨page', mapError_eq_ok.mp hx, rfl⟩
  unfold mutatePage at h
  dsimp only at h
  split at h
  · rename_i hkind _
    rw [ite_throw_bind_eq_ok] at h
    obtain ⟨r, -, h⟩ := bind_eq_ok.mp h.2
    exact ⟨_, .putNode hkind r, happly h⟩
  · rename_i hkind _
    rw [ite_throw_bind_eq_ok] at h
    obtain ⟨r, -, h⟩ := bind_eq_ok.mp h.2
    exact ⟨_, .putRel hkind r, happly h⟩
  · cases h
  · rename_i hkind _
    exact ⟨_, .putBag hkind, happly h⟩
  · cases h
  · rename_i hkind _
    split at h
    · exact ⟨_, .retireRow (.inl hkind), happly h⟩
    · exact ⟨_, .putRow, happly h⟩
  · rename_i hkind _
    split at h
    · exact ⟨_, .retireRow (.inr hkind), happly h⟩
    · exact ⟨_, .putRow, happly h⟩
  · cases h
  · cases h
  · rename_i hkind htype
    exact ⟨_, .tombstoneNode hkind htype, happly h⟩
  · rename_i hkind _
    split at h
    · cases h
    · cases h
    · exact ⟨_, .expireRel hkind _, happly h⟩
  · cases h
  · cases h

end ArcGraph.Redo
