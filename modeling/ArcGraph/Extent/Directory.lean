import ArcGraph.Records.SlottedPage
import ArcGraph.Redo.DirtyPageTable
import ArcGraph.Wal.Delta

/-!
# Extent directories

The data pages of a store live in extents of 256 pages. A directory maps logical extents
to offsets in the store file. Its entries are 24 bytes each, 339 to a page, in pages at the
head of the file; an entry of zeros is empty.

Extents are handed out densely: the next offset follows from the number of entries. The
first use of a directory counts them in a census of the head pages, which also checks that
the offsets are the first ones and distinct.

`pages` holds the head pages by their number, `none` for a page of zeros. The table of
dirty pages that every caller passes is a field.
-/

namespace ArcGraph.Extent
open Foundation Records Wal Redo

def extentBytes : Nat := extentPages * pageSize

def directoryEntryBytes : Nat := 24

def directoryHeadPages : Nat :=
  (maxExtentsPerStore + directoryEntriesPerPage - 1) / directoryEntriesPerPage

def dirPageTag : Nat := 2 ^ 62

def directoryEntryGeneration : Nat := 1

def directoryPageId (k : Nat) : UInt64 := UInt64.ofNat (dirPageTag ||| k)

def entryOffset (slot : Nat) : Nat := slotAreaStart + slot * directoryEntryBytes

/-- The `n`th extent of a store file. -/
def denseOffset (n : Nat) : Nat := directoryHeadBytes + n * extentBytes

structure DirectoryEntry where
  allocation : ExtentAllocation
  generation : Nat
deriving DecidableEq

namespace DirectoryEntry

def decode (b : Buffer) (off : Nat) : Option DirectoryEntry :=
  if (b.read off directoryEntryBytes).all (· = 0) then none
  else
    some
      { allocation :=
          { logicalExtent := b.uintAt off 8
            physicalOffset := b.uintAt (off + 8) 8
            pairing := b.uintAt (off + 16) 4 }
        generation := b.uintAt (off + 20) 4 }

def encode (e : DirectoryEntry) (b : Buffer) (off : Nat) : Buffer :=
  (((b.write off (leBytes 8 e.allocation.logicalExtent)).write (off + 8)
    (leBytes 8 e.allocation.physicalOffset)).write (off + 16)
      (leBytes 4 e.allocation.pairing)).write (off + 20) (leBytes 4 e.generation)

end DirectoryEntry

inductive ExtentApplyOutcome
  | applied
  | idempotent
deriving DecidableEq

structure ExtentDirectory where
  tenant : TenantId
  storeId : UInt16
  pages : Nat → Option SlottedPage
  installedCount : Option Nat := none
  dpt : DirtyPageTable := .new

def entryLocation (logicalExtent : Nat) : Except WalError (Nat × Nat) :=
  if maxExtentsPerStore ≤ logicalExtent then
    .error (.corruption 0 "logical extent exceeds MAX_EXTENTS_PER_STORE cap")
  else
    .ok (logicalExtent / directoryEntriesPerPage, logicalExtent % directoryEntriesPerPage)

/-- The offset after `count` extents. -/
def nextPhysicalOffset (count : Nat) : Except WalError Nat :=
  if 2 ^ 64 ≤ denseOffset count then .error (.corruption 0 "next physical counter overflows")
  else .ok (denseOffset count)

namespace ExtentDirectory
variable (crc32c : Bytes → UInt32) (d : ExtentDirectory)

def formatPage (k : Nat) : SlottedPage where
  header :=
    { pageType := .free
      flags := d.storeId
      pageId := directoryPageId k
      tenantId := d.tenant
      checksum := crc32c (Buffer.zero.read slotAreaStart pageBodyBytes)
      freeSpace := pageBodyBytes }
  bytes := Buffer.zero

def validatePage (k : Nat) (page : SlottedPage) : Except WalError Unit := do
  let header := page.header
  if header.pageId ≠ directoryPageId k ∨ header.tenantId ≠ d.tenant ∨ header.pageType ≠ .free ∨
      header.flags ≠ d.storeId then
    throw (.corruption header.lsn
      "extent directory page identity does not match tenant/store/page key")
  if crc32c (page.bytes.read slotAreaStart pageBodyBytes) ≠ header.checksum then
    throw (.corruption header.lsn "extent directory page checksum mismatch")

/-! ## The census -/

def censusSlot (k : Nat) (page : SlottedPage) (offsets : List Nat) (slot : Nat) :
    Except WalError (List Nat) :=
  match DirectoryEntry.decode page.bytes (entryOffset slot) with
  | none => .ok offsets
  | some e =>
    let physical := e.allocation.physicalOffset
    if e.generation ≠ directoryEntryGeneration ∨
        e.allocation.logicalExtent ≠ k * directoryEntriesPerPage + slot ∨
        physical < directoryHeadBytes ∨ (physical - directoryHeadBytes) % extentBytes ≠ 0 ∨
        physical ∈ offsets then
      .error (.corruption page.header.lsn
        "extent directory is not a unique dense physical ledger")
    else .ok (physical :: offsets)

def censusPage (offsets : List Nat) (k : Nat) : Except WalError (List Nat) :=
  match d.pages k with
  | none => .ok offsets
  | some page => do
      d.validatePage crc32c k page
      (List.range directoryEntriesPerPage).foldlM (censusSlot k page) offsets

/-- The number of entries, if the offsets are the first ones. -/
def census : Except WalError Nat := do
  let offsets ← (List.range directoryHeadPages).foldlM (d.censusPage crc32c) []
  let count := offsets.length
  if sortBy id offsets ≠ (List.range count).map denseOffset then
    throw (.corruption 0 "extent directory physical offsets contain a gap")
  if maxExtentsPerStore ≤ count then
    throw (.corruption 0 "extent directory reaches MAX_EXTENTS_PER_STORE cap")
  return count

/-- The census is made once. -/
def countInstalled : Except WalError Nat :=
  match d.installedCount with
  | some count => .ok count
  | none => d.census crc32c

def recoverNextPhysicalOffset : Except WalError (Nat × ExtentDirectory) := do
  let count ← d.countInstalled crc32c
  let next ← nextPhysicalOffset count
  return (next, { d with installedCount := some count })

/-! ## Applying an allocation -/

/-- The checks before the directory is looked at: the allocation, its head page and slot. -/
def checkExtentAlloc (op : DeltaOp) : Except WalError (ExtentAllocation × Nat × Nat) := do
  op.validateShape.mapError .delta
  if op.kind ≠ .extentAlloc ∨ op.storeId ≠ d.storeId ∨ op.tenantId ≠ d.tenant then
    throw (.corruption op.opLsn "ExtentAlloc target directory mismatch")
  match ExtentAllocation.decode op.payload with
  | none => throw (.delta .extentAllocPayload)
  | some a => do
      let (k, slot) ← entryLocation a.logicalExtent
      if op.pageNo ≠ directoryPageId k then
        throw (.corruption op.opLsn "ExtentAlloc does not target its computed directory page")
      return (a, k, slot)

variable (page : SlottedPage)

/-- The page with the entry; its LSN only rises. -/
def installEntry (slot : Nat) (a : ExtentAllocation) (opLsn : Nat) :
    SlottedPage :=
  let bytes := DirectoryEntry.encode ⟨a, directoryEntryGeneration⟩ page.bytes (entryOffset slot)
  { header := { page.header with
      lsn := max page.header.lsn opLsn
      slotCount := min (page.header.slotCount + 1) (2 ^ 16 - 1)
      freeSpace := page.header.freeSpace - directoryEntryBytes
      checksum := crc32c (bytes.read slotAreaStart pageBodyBytes) }
    bytes }

/-- What becomes of an allocation: the page with its entry, `none` if it is there already. -/
def decideEntry (slot : Nat) (a : ExtentAllocation) (opLsn next : Nat) :
    Except WalError (Option SlottedPage) :=
  match DirectoryEntry.decode page.bytes (entryOffset slot) with
  | some current =>
    let generation := current.generation
    if generation ≠ directoryEntryGeneration then
      .error (.corruption opLsn
        s!"ExtentAlloc conflicts with unsupported directory generation {generation}")
    else if current.allocation = a then .ok none
    else .error (.corruption opLsn s!"ExtentAlloc conflicts with generation {generation} mapping")
  | none =>
    let physical := a.physicalOffset
    if physical ≠ next then
      .error (.corruption opLsn
        s!"ExtentAlloc physical_offset {physical} is not dense next offset {next}")
    else .ok (some (installEntry crc32c page slot a opLsn))

def setPage (k : Nat) (page : SlottedPage) : ExtentDirectory :=
  { d with pages := Function.update d.pages k (some page) }

def homePage (k : Nat) : SlottedPage := (d.pages k).getD (d.formatPage crc32c k)

/-- The outcome and the directory afterwards. A page of zeros is formatted before the
entry is looked at, so it stays formatted when the allocation is refused. -/
def applyEntry (a : ExtentAllocation) (k slot opLsn next : Nat) :
    Except WalError ExtentApplyOutcome × ExtentDirectory :=
  let page := d.homePage crc32c k
  match d.validatePage crc32c k page with
  | .error e => (.error e, d)
  | .ok () =>
    match decideEntry crc32c page slot a opLsn next with
    | .error e => (.error e, d.setPage k page)
    | .ok none => (.ok .idempotent, d.setPage k page)
    | .ok (some page) =>
      (.ok .applied,
        { d.setPage k page with
          installedCount := d.installedCount.map (· + 1)
          dpt := (d.dpt.markDirtyCovering
            ⟨d.tenant, d.storeId, directoryPageId k⟩ opLsn).2 })

def applyExtentAlloc (op : DeltaOp) : Except WalError ExtentApplyOutcome × ExtentDirectory :=
  match d.checkExtentAlloc op with
  | .error e => (.error e, d)
  | .ok (a, k, slot) =>
    match d.recoverNextPhysicalOffset crc32c with
    | .error e => (.error e, d)
    | .ok (next, d) => d.applyEntry crc32c a k slot op.opLsn next

def mapping (logicalExtent : Nat) : Except WalError (Option ExtentAllocation) := do
  let (k, slot) ← entryLocation logicalExtent
  match d.pages k with
  | none => return none
  | some page => do
      d.validatePage crc32c k page
      match DirectoryEntry.decode page.bytes (entryOffset slot) with
      | none => return none
      | some e =>
        let generation := e.generation
        if generation ≠ directoryEntryGeneration then
          throw (.corruption page.header.lsn
            s!"directory slot carries unsupported generation {generation}")
        if e.allocation.logicalExtent ≠ logicalExtent then
          throw (.corruption page.header.lsn "directory slot carries the wrong logical extent")
        return some e.allocation

end ExtentDirectory
end ArcGraph.Extent
