import ArcGraph.Foundation.Buffer
import ArcGraph.Foundation.Fallible
import ArcGraph.Records.Record

/-!
# Slotted pages

A page is its decoded header and its bytes by offset; the first forty bytes are the
header's and nothing else touches them. Behind the header the slot directory grows
forward, four bytes a slot, and the records grow backward from the end of the page.
An entry `(0, 0)` is a hole that may be filled, `(0, 65535)` a permanent tombstone.

Records get their place in two ways. `insertRaw` and `putFixedAt` take the next bytes
below the records already there. `writeFixedAtSlot` takes the cell that the slot
number determines on a page of fixed-size records.

The body checksum is a parameter.
-/

namespace ArcGraph.Records
open Foundation RelRecord

inductive PageType
  | free
  | node
  | rel
  | tel
  | indexInternal
  | indexLeaf
  | vectorNeighbor
  | walBuffer
  | indexOverflow
  | propSlotted
deriving DecidableEq

def PageType.ofByte : UInt8 → Option PageType
  | 0 => some free
  | 1 => some node
  | 2 => some rel
  | 3 => some tel
  | 4 => some indexInternal
  | 5 => some indexLeaf
  | 6 => some vectorNeighbor
  | 7 => some walBuffer
  | 8 => some indexOverflow
  | 9 => some propSlotted
  | _ => none

def slotSize : Nat := 4

def permanentTombstoneLen : Nat := 65535

def slotAreaStart : Nat := 40

def pageBodyBytes : Nat := pageSize - slotAreaStart

def nodeCapacity : Nat := pageBodyBytes / (slotSize + NodeRecord.size)

def relCapacity : Nat := pageBodyBytes / (slotSize + size)

def maxSlots : Nat := (pageSize - slotAreaStart) / slotSize

def propBagMaxBytes : Nat := pageBodyBytes - slotSize

/-- The magic and the version of a header are constants that its decoder checks. -/
structure PageHeader where
  pageType : PageType
  flags : UInt16 := 0
  pageId : UInt64
  lsn : Nat := 0
  tenantId : TenantId
  checksum : UInt32 := 0
  slotCount : Nat := 0
  freeSpace : Nat := 0
deriving DecidableEq

inductive PageError
  | full (needed free : Nat)
  | slotOutOfRange (slot count : Nat)
  | slotTombstoned (slot : Nat)
  | wrongPageType (got expected : PageType)
  | format (reason : String)
  | recordDecode (version : UInt8)
  | checksumMismatch (stored computed : UInt32)
  | stalePublish (slot current incoming : Nat)
deriving DecidableEq

@[ext] structure SlottedPage where
  header : PageHeader
  bytes : Buffer

/-- Where the directory entry of a slot lies; of the slot count, where the directory
ends. -/
def slotOffset (slot : Nat) : Nat := slotAreaStart + slot * slotSize

def cellStart (slot len : Nat) : Nat := pageSize - (slot + 1) * len

def writeEntry (b : Buffer) (slot off len : Nat) : Buffer :=
  (b.write (slotOffset slot) (leBytes 2 off)).write (slotOffset slot + 2) (leBytes 2 len)

namespace SlottedPage

def entry (p : SlottedPage) (slot : Nat) : Nat × Nat :=
  (p.bytes.uintAt (slotOffset slot) 2, p.bytes.uintAt (slotOffset slot + 2) 2)

/-- Where the records begin: the free space lies between the directory and them. -/
def recordArea (p : SlottedPage) : Nat := slotOffset p.header.slotCount + p.header.freeSpace

/-! ## Reading -/

def slotEntry (p : SlottedPage) (slot : Nat) : Except PageError (Option (Nat × Nat)) := do
  let count := p.header.slotCount
  if count ≤ slot then throw (.slotOutOfRange slot count)
  let off := slotOffset slot
  if pageSize < off + slotSize then
    throw (.format s!"slot {slot} directory entry at offset {off} overruns page (count={count})")
  let (recordOff, recordLen) := p.entry slot
  if recordOff = 0 ∧ (recordLen = 0 ∨ recordLen = permanentTombstoneLen) then return none
  if recordOff < slotOffset count ∨ pageSize < recordOff + recordLen then
    throw (.format s!"slot {slot} points outside record area: off={recordOff} len={recordLen}")
  return some (recordOff, recordLen)

def isPermanentTombstone (p : SlottedPage) (slot : Nat) : Except PageError Bool := do
  let count := p.header.slotCount
  if count ≤ slot then throw (.slotOutOfRange slot count)
  let off := slotOffset slot
  if pageSize < off + slotSize then
    throw (.format s!"slot {slot} directory entry at offset {off} overruns page (count={count})")
  return p.entry slot = (0, permanentTombstoneLen)

def permanentTombstoneLsn (p : SlottedPage) (slot fixedRecordLen : Nat) :
    Except PageError (Option Nat) := do
  let permanent ← p.isPermanentTombstone slot
  if permanent then
    if fixedRecordLen < 8 then
      throw (.format "fixed tombstone body is too short for its LSN")
    if pageSize < (slot + 1) * fixedRecordLen then
      throw (.format "fixed tombstone offset underflow")
    return some (p.bytes.uintAt (cellStart slot fixedRecordLen) 8)
  else return none

def readRaw (p : SlottedPage) (slot : Nat) : Except PageError (Option Bytes) := do
  let entry ← p.slotEntry slot
  return entry.map fun (off, len) => p.bytes.read off len

/-! ## Writing -/

variable (crc32c : Bytes → UInt32)

def recomputeChecksum (p : SlottedPage) : SlottedPage :=
  { p with header := { p.header with
      checksum := crc32c (p.bytes.read slotAreaStart pageBodyBytes) } }

def init (header : PageHeader) : Except PageError SlottedPage :=
  match header.pageType with
  | .node | .rel | .propSlotted =>
    .ok (recomputeChecksum crc32c
      { header := { header with slotCount := 0, freeSpace := pageBodyBytes }
        bytes := Buffer.zero })
  | other => .error (.wrongPageType other .node)

/-- `SlottedPage::open` -/
def attach (p : SlottedPage) : Except PageError Unit := do
  let computed := crc32c (p.bytes.read slotAreaStart pageBodyBytes)
  if computed ≠ p.header.checksum then
    throw (.checksumMismatch p.header.checksum computed)
  let count := p.header.slotCount
  if maxSlots < count then
    throw (.format s!"slot_count {count} exceeds page capacity (max {maxSlots})")

def requirePageType (p : SlottedPage) (expected : PageType) : Except PageError Unit :=
  if p.header.pageType = expected then .ok ()
  else .error (.wrongPageType p.header.pageType expected)

/-- The record at `start`, its directory entry, and the new counts in the header. -/
def place (p : SlottedPage) (slot start : Nat) (record : Bytes) (slotCount freeSpace : Nat) :
    SlottedPage :=
  recomputeChecksum crc32c
    { header := { p.header with slotCount := slotCount, freeSpace := freeSpace }
      bytes := writeEntry (p.bytes.write start record) slot start record.length }

def insertRaw (p : SlottedPage) (record : Bytes) : Except PageError (Nat × SlottedPage) := do
  let recLen := record.length
  if 2 ^ 16 ≤ recLen then throw (.format s!"record too large: {recLen}")
  let needed := recLen + slotSize
  let free := p.header.freeSpace
  let count := p.header.slotCount
  if free < needed then throw (.full needed free)
  if pageBodyBytes < free + count * slotSize then
    throw (.format s!"record-area watermark underflow: free_space={free} slot_count={count} exceeds PAGE_BODY_BYTES={pageBodyBytes}")
  let used := pageBodyBytes - free - count * slotSize
  if pageSize < used + recLen then
    throw (.format s!"record-area watermark underflow: record_start underflow (used_record_bytes={used} rec_len={recLen} exceeds PAGE_SIZE={pageSize})")
  let recordStart := pageSize - used - recLen
  if 2 ^ 16 ≤ recordStart then
    throw (.format s!"record offset overflows u16: {recordStart}")
  return (count, p.place crc32c count recordStart record (count + 1) (free - needed))

def overwrite (p : SlottedPage) (slot : Nat) (record : Bytes) (expectedLen : Nat) :
    Except PageError SlottedPage := do
  match ← p.slotEntry slot with
  | none => throw (.slotTombstoned slot)
  | some (off, len) =>
    if len ≠ expectedLen then
      throw (.format s!"slot {slot} has length {len}, expected {expectedLen}")
    return recomputeChecksum crc32c { p with bytes := p.bytes.write off record }

/-- The page with room for the slots up to `newCount`: their entries and their cells
are zero. -/
def growFixed (p : SlottedPage) (newCount len : Nat) : SlottedPage :=
  let count := p.header.slotCount
  if count < newCount then
    let directory := p.bytes.clear (slotOffset count) (slotOffset newCount)
    { p with bytes := directory.clear (pageSize - newCount * len) (pageSize - count * len) }
  else p

def checkCanonical (p : SlottedPage) (slot recordStart expectedLen : Nat) :
    Except PageError Unit :=
  if slot < p.header.slotCount then do
    match ← p.slotEntry slot with
    | none => return ()
    | some (off, len) =>
      if off ≠ recordStart ∨ len ≠ expectedLen then
        throw (.format s!"slot {slot} is not canonical: offset={off} len={len}, expected offset={recordStart} len={expectedLen}")
  else .ok ()

def writeFixedAtSlot (p : SlottedPage) (slot : Nat) (record : Bytes)
    (expectedLen capacity : Nat) : Except PageError SlottedPage := do
  if capacity ≤ slot then throw (.slotOutOfRange slot capacity)
  let recordLen := record.length
  if recordLen ≠ expectedLen then
    throw (.format s!"fixed record length {recordLen} does not match expected {expectedLen}")
  let count := p.header.slotCount
  let free := p.header.freeSpace
  if capacity < count then
    throw (.format s!"fixed page high-water {count} exceeds capacity {capacity}")
  let oldUsed := count * (expectedLen + slotSize)
  if pageBodyBytes < oldUsed then throw (.format "fixed page watermark underflow")
  let expectedOldFree := pageBodyBytes - oldUsed
  if free ≠ expectedOldFree then
    throw (.format s!"non-canonical fixed page watermark: count={count} free={free} expected={expectedOldFree}")
  let newCount := max (slot + 1) count
  let newUsed := newCount * (expectedLen + slotSize)
  if pageBodyBytes < newUsed then throw (.format "fixed page exceeds page body")
  if pageSize < (slot + 1) * expectedLen then throw (.format "fixed record offset underflow")
  let recordStart := cellStart slot expectedLen
  let directoryEnd := slotOffset newCount
  if recordStart < directoryEnd then
    throw (.format s!"fixed slot {slot} overlaps directory: record_start={recordStart} directory_end={directoryEnd}")
  p.checkCanonical slot recordStart expectedLen
  if 2 ^ 16 ≤ recordStart then
    throw (.format s!"fixed record offset overflows u16: {recordStart}")
  return (p.growFixed newCount expectedLen).place crc32c slot recordStart record newCount
    (pageBodyBytes - newUsed)

def setEntry (p : SlottedPage) (slot off len : Nat) : SlottedPage :=
  recomputeChecksum crc32c { p with bytes := writeEntry p.bytes slot off len }

def tombstone (p : SlottedPage) (slot : Nat) : Except PageError SlottedPage :=
  if p.header.slotCount ≤ slot then .error (.slotOutOfRange slot p.header.slotCount)
  else .ok (p.setEntry crc32c slot 0 0)

def isMarked (p : SlottedPage) (slot : Nat) : Except PageError Bool :=
  if slot < p.header.slotCount then p.isPermanentTombstone slot else .ok false

def writeFixedPermanentTombstone (p : SlottedPage) (slot tombstoneLsn expectedLen capacity : Nat) :
    Except PageError SlottedPage := do
  let markerRecord := leBytes 8 tombstoneLsn ++ List.replicate (expectedLen - 8) 0
  if ← p.isMarked slot then
    let existing ← p.permanentTombstoneLsn slot expectedLen
    if tombstoneLsn ≤ existing.getD 0 then return p
    return recomputeChecksum crc32c
      { p with bytes := p.bytes.write (cellStart slot expectedLen) markerRecord }
  else
    let written ← p.writeFixedAtSlot crc32c slot markerRecord expectedLen capacity
    return written.setEntry crc32c slot 0 permanentTombstoneLen

/-- The entries between the slot count and `slot` become holes, without records. -/
def reserveGap (p : SlottedPage) (slot : Nat) : SlottedPage where
  header := { p.header with
    slotCount := slot
    freeSpace := p.header.freeSpace - (slot - p.header.slotCount) * slotSize }
  bytes := p.bytes.clear (slotOffset p.header.slotCount) (slotOffset slot)

/-- `put_fixed_at` behind the slot count. -/
def insertSparse (p : SlottedPage) (slot : Nat) (record : Bytes) (expectedLen : Nat) :
    Except PageError (Nat × SlottedPage) := do
  let free := p.header.freeSpace
  let directoryBytes := (slot - p.header.slotCount) * slotSize
  if 2 ^ 16 ≤ directoryBytes then throw (.format "sparse slot directory overflow")
  let needed := min (2 ^ 16 - 1) (directoryBytes + (expectedLen + slotSize))
  if free < needed then throw (.full needed free)
  (p.reserveGap slot).insertRaw crc32c record

/-- `put_fixed_at` in a slot without a record. -/
def revive (p : SlottedPage) (slot : Nat) (record : Bytes) (expectedLen : Nat) :
    Except PageError SlottedPage := do
  let count := p.header.slotCount
  let free := p.header.freeSpace
  if free < expectedLen then throw (.full expectedLen free)
  if pageBodyBytes < free + count * slotSize then
    throw (.format "tombstone-revive watermark underflow")
  let used := pageBodyBytes - free - count * slotSize
  if pageSize < used + expectedLen then
    throw (.format "tombstone-revive record offset underflow")
  let recordStart := pageSize - used - expectedLen
  if 2 ^ 16 ≤ recordStart then
    throw (.format s!"record offset overflows u16: {recordStart}")
  return p.place crc32c slot recordStart record count (free - expectedLen)

def putFixedAt (p : SlottedPage) (slot : Nat) (record : Bytes) (expectedLen : Nat) :
    Except PageError SlottedPage :=
  let count := p.header.slotCount
  if slot = count then do
    let (_, inserted) ← p.insertRaw crc32c record
    return inserted
  else if count < slot then do
    let (_, inserted) ← p.insertSparse crc32c slot record expectedLen
    return inserted
  else do
    match ← p.slotEntry slot with
    | none => p.revive crc32c slot record expectedLen
    | some _ => p.overwrite crc32c slot record expectedLen

end SlottedPage

/-! ## The operations of each record type -/

/-- What the pages of a fixed-size record type need to know of it. -/
structure RecordFormat (α : Type) where
  pageType : PageType
  size : Nat
  capacity : Nat
  toBytes : α → Bytes
  fromBytes : Bytes → Except UInt8 α
  createdLsn : α → Nat
  length_toBytes : ∀ r, (toBytes r).length = size
  fromBytes_toBytes : ∀ r, fromBytes (toBytes r) = .ok r

def nodeFormat : RecordFormat NodeRecord where
  pageType := .node
  size := NodeRecord.size
  capacity := nodeCapacity
  toBytes := NodeRecord.toBytes
  fromBytes := NodeRecord.fromBytes
  createdLsn r := r.createdLsn.toNat
  length_toBytes := NodeRecord.length_toBytes
  fromBytes_toBytes := NodeRecord.fromBytes_toBytes

def relFormat : RecordFormat RelRecord where
  pageType := .rel
  size := size
  capacity := relCapacity
  toBytes := toBytes
  fromBytes := fromBytes
  createdLsn r := r.createdLsn.toNat
  length_toBytes := length_toBytes
  fromBytes_toBytes := fromBytes_toBytes

namespace SlottedPage

section
variable {α : Type} (crc32c : Bytes → UInt32) (f : RecordFormat α) (p : SlottedPage)

def readRecord (slot : Nat) : Except PageError (Option α) := do
  match ← p.slotEntry slot with
  | none => return none
  | some (off, len) =>
    let size := f.size
    if len ≠ size then
      throw (.format s!"slot {slot} has length {len}, expected {size}")
    let record ← (f.fromBytes (p.bytes.read off len)).mapError .recordDecode
    return some record

def insertRecord (r : α) : Except PageError (Nat × SlottedPage) := do
  p.requirePageType f.pageType
  p.insertRaw crc32c (f.toBytes r)

def guardMonotonePublish (slot incoming : Nat) : Except PageError Unit := do
  if slot < p.header.slotCount then
    if ← p.isPermanentTombstone slot then throw (.slotTombstoned slot)
    let record ← p.readRecord f slot
    let current := record.map f.createdLsn
    if current.any (incoming < ·) then
      throw (.stalePublish slot (current.getD 0) incoming)

def writeRecordAtSlot (slot : Nat) (r : α) : Except PageError SlottedPage := do
  p.requirePageType f.pageType
  p.guardMonotonePublish f slot (f.createdLsn r)
  p.writeFixedAtSlot crc32c slot (f.toBytes r) f.size f.capacity

def updateRecord (slot : Nat) (r : α) : Except PageError SlottedPage := do
  p.requirePageType f.pageType
  p.overwrite crc32c slot (f.toBytes r) f.size

def putRecordAt (slot : Nat) (r : α) : Except PageError SlottedPage := do
  p.requirePageType f.pageType
  if ← p.isMarked slot then throw (.slotTombstoned slot)
  p.putFixedAt crc32c slot (f.toBytes r) f.size

def permanentTombstoneRecordAtSlot (slot tombstoneLsn : Nat) : Except PageError SlottedPage := do
  p.requirePageType f.pageType
  p.writeFixedPermanentTombstone crc32c slot tombstoneLsn f.size f.capacity

end

variable (crc32c : Bytes → UInt32) (p : SlottedPage)

def readNode (slot : Nat) : Except PageError (Option NodeRecord) := p.readRecord nodeFormat slot

def readRel (slot : Nat) : Except PageError (Option RelRecord) := p.readRecord relFormat slot

def insertNode (r : NodeRecord) : Except PageError (Nat × SlottedPage) :=
  p.insertRecord crc32c nodeFormat r

def insertRel (r : RelRecord) : Except PageError (Nat × SlottedPage) :=
  p.insertRecord crc32c relFormat r

def writeNodeAtSlot (slot : Nat) (r : NodeRecord) : Except PageError SlottedPage :=
  p.writeRecordAtSlot crc32c nodeFormat slot r

def writeRelAtSlot (slot : Nat) (r : RelRecord) : Except PageError SlottedPage :=
  p.writeRecordAtSlot crc32c relFormat slot r

def updateNode (slot : Nat) (r : NodeRecord) : Except PageError SlottedPage :=
  p.updateRecord crc32c nodeFormat slot r

def updateRel (slot : Nat) (r : RelRecord) : Except PageError SlottedPage :=
  p.updateRecord crc32c relFormat slot r

def putNodeAt (slot : Nat) (r : NodeRecord) : Except PageError SlottedPage :=
  p.putRecordAt crc32c nodeFormat slot r

def putRelAt (slot : Nat) (r : RelRecord) : Except PageError SlottedPage :=
  p.putRecordAt crc32c relFormat slot r

def permanentTombstoneNodeAtSlot (slot tombstoneLsn : Nat) : Except PageError SlottedPage :=
  p.permanentTombstoneRecordAtSlot crc32c nodeFormat slot tombstoneLsn

def permanentTombstoneRelAtSlot (slot tombstoneLsn : Nat) : Except PageError SlottedPage :=
  p.permanentTombstoneRecordAtSlot crc32c relFormat slot tombstoneLsn

/-! Property bags have the length they have; the rows of the owner stores are bags of a
fixed length in cells. -/

def readBag (slot : Nat) : Except PageError (Option Bytes) := do
  p.requirePageType .propSlotted
  p.readRaw slot

def insertBag (bag : Bytes) : Except PageError (Nat × SlottedPage) := do
  p.requirePageType .propSlotted
  let len := bag.length
  if len = 0 then
    throw (.format "property bag payload is empty; zero-length bags are not packable")
  if propBagMaxBytes < len then
    throw (.format s!"property bag payload {len} exceeds PROP_BAG_MAX_BYTES {propBagMaxBytes}")
  p.insertRaw crc32c bag

def putBagAt (slot : Nat) (bag : Bytes) : Except PageError SlottedPage := do
  p.requirePageType .propSlotted
  let len := bag.length
  if len = 0 ∨ propBagMaxBytes < len then
    throw (.format s!"property bag payload length {len} is outside 1..={propBagMaxBytes}")
  p.putFixedAt crc32c slot bag len

def putFixedBagAtSlot (slot : Nat) (bag : Bytes) (capacity : Nat) :
    Except PageError SlottedPage := do
  p.requirePageType .propSlotted
  let len := bag.length
  if 2 ^ 16 ≤ len then throw (.format s!"record too large: {len}")
  if len = 0 ∨ propBagMaxBytes < len then
    throw (.format s!"fixed bag payload length {len} is outside 1..={propBagMaxBytes}")
  if ← p.isMarked slot then throw (.slotTombstoned slot)
  p.writeFixedAtSlot crc32c slot bag len capacity

def permanentTombstoneFixedBagAtSlot (slot tombstoneLsn fixedLen capacity : Nat) :
    Except PageError SlottedPage := do
  p.requirePageType .propSlotted
  p.writeFixedPermanentTombstone crc32c slot tombstoneLsn fixedLen capacity

end SlottedPage
end ArcGraph.Records
