import ArcGraph.Wal.Record

/-!
# WAL segments

A segment file is a header of eight bytes and whole records. The writer appends
batches to the segment with the highest number and rotates to a new one when a
batch would exceed the limit. A directory is the list of its segment files in
ascending order; file operations are functions on it.
-/

namespace ArcGraph.Wal
open Foundation List

/-- `AGWL` -/
def walSegmentMagic : Bytes := [65, 71, 87, 76]

/-- The bundle format that new segments carry, unless the generation says otherwise. -/
def currentWalFormatVersion : Nat := 8

def supportedWalFormatVersions : List Nat := [1, 2, 3, 4, 5, 6, 7, 8, 9, 10]

/-! ## Headers -/

structure SegmentHeader where
  formatVersion : Nat
deriving DecidableEq

variable (bytes : Bytes)

namespace SegmentHeader

def size : Nat := 8

variable (h : SegmentHeader)

def encode : Bytes := walSegmentMagic ++ (leBytes 2 h.formatVersion ++ [0, 0])

def decode : Except WalError SegmentHeader :=
  let formatVersion := leValue ((bytes.drop 4).take 2)
  if bytes.length < size then .error (.formatMismatch 0)
  else if bytes.take 4 ≠ walSegmentMagic then .error (.badMagic (bytes.take 4))
  else if (bytes.drop 6).take 2 ≠ [0, 0] then .error (.formatMismatch formatVersion)
  else if formatVersion ∉ supportedWalFormatVersions then .error (.formatMismatch formatVersion)
  else .ok ⟨formatVersion⟩

def Supported : Prop := h.formatVersion ∈ supportedWalFormatVersions

instance (h : SegmentHeader) : Decidable h.Supported :=
  inferInstanceAs (Decidable (_ ∈ supportedWalFormatVersions))

@[simp] theorem length_encode : h.encode.length = size := by
  simp [encode, walSegmentMagic, size]

variable {h : SegmentHeader}

theorem Supported.lt (hs : h.Supported) : 0 < h.formatVersion ∧ h.formatVersion < 256 := by
  simp only [Supported, supportedWalFormatVersions, mem_cons, not_mem_nil, or_false] at hs
  omega

/-- A supported version takes one byte; the other header bytes after the magic are
zero. -/
theorem Supported.encode_eq (hs : h.Supported) :
    h.encode = walSegmentMagic ++ (UInt8.ofNat h.formatVersion :: replicate 3 0) := by
  have hlt := hs.lt.2
  have hmod : h.formatVersion % 256 = h.formatVersion := Nat.mod_eq_of_lt hlt
  have hdiv : h.formatVersion / 256 = 0 := Nat.div_eq_of_lt hlt
  simp [encode, leBytes, hmod, hdiv]

theorem Supported.decode_encode (hs : h.Supported) : decode h.encode = .ok h := by
  have hlt := hs.lt.2
  have hval : leValue (leBytes 2 h.formatVersion) = h.formatVersion :=
    leValue_leBytes 2 _ (by omega)
  have hversion : leValue ((h.encode.drop 4).take 2) = h.formatVersion := by
    simp [encode, walSegmentMagic, hval]
  have hreserved : (h.encode.drop 6).take 2 = [0, 0] := by
    simp [encode, walSegmentMagic]
  have hsup : h.formatVersion ∈ supportedWalFormatVersions := hs
  rw [decode, hversion, hreserved, length_encode]
  simp [encode, walSegmentMagic, hsup]

end SegmentHeader

/-! ## Files -/

structure SegmentFile where
  number : Nat
  bytes : Bytes
deriving DecidableEq

/-- The segment files of a directory in ascending order of their numbers. -/
abbrev WalDir := List SegmentFile

/-- `set_len`: cut, or extend with zeros. -/
def setLen (n : Nat) : Bytes := bytes.take n ++ replicate (n - bytes.length) 0

/-- `write_all_at` -/
def writeAt (offset : Nat) (data : Bytes) : Bytes :=
  setLen bytes offset ++ data ++ bytes.drop (offset + data.length)

theorem writeAt_end (data : Bytes) : writeAt bytes bytes.length data = bytes ++ data := by
  simp [writeAt, setLen, drop_eq_nil_of_le]

def WalDir.modify (dir : WalDir) (number : Nat) (f : Bytes → Bytes) : WalDir :=
  dir.map fun file => if file.number = number then { file with bytes := f file.bytes } else file

/-- A new segment file. The new number is the highest. -/
def WalDir.create (dir : WalDir) (number : Nat) (bytes : Bytes) : Except WalError WalDir :=
  if dir.any (·.number = number) then .error .alreadyExists else .ok (dir ++ [⟨number, bytes⟩])

/-! ## The writer -/

/-- What a generation manifest says about the WAL. -/
inductive ManifestWalFormat
  | pageImage
  | deltaV9
  | deltaV10
  | other (name : String)
deriving DecidableEq

/-- `generation_wal_format`; `none` is a generation without a manifest. -/
def generationWalFormat : Option ManifestWalFormat → Except WalError Nat
  | none | some .pageImage => .ok currentWalFormatVersion
  | some .deltaV9 => .ok 9
  | some .deltaV10 => .ok 10
  | some (.other name) =>
    .error (.corruption 0 s!"MANIFEST carries unsupported wal_format \"{name}\"")

structure SegmentWriter where
  currentSeg : Nat
  currentBytes : Nat
  maxBytes : Nat
  formatVersion : Nat
deriving DecidableEq

namespace SegmentWriter
variable (generation : Option ManifestWalFormat)

/-- The format of a segment whose header was lost: that of the segment before it. -/
def tornFormat (dir : WalDir) : Except WalError Nat :=
  match dir.dropLast.getLast? with
  | some previous =>
    if previous.bytes.length < SegmentHeader.size then .error .unexpectedEof
    else do
      let header ← SegmentHeader.decode (previous.bytes.take SegmentHeader.size)
      return if header.formatVersion = 9 ∨ header.formatVersion = 10 then header.formatVersion
        else currentWalFormatVersion
  | none => generationWalFormat generation

/-- The writer and the directory it leaves behind. A first segment is created
before its format is known. -/
def openDir (maxBytes : Nat) (dir : WalDir) :
    Except WalError SegmentWriter × WalDir :=
  match dir.getLast? with
  | none =>
    match generationWalFormat generation with
    | .error e => (.error e, [⟨0, []⟩])
    | .ok version => (.ok ⟨0, 0, maxBytes, version⟩, [⟨0, SegmentHeader.encode ⟨version⟩⟩])
  | some last =>
    if last.bytes.length < SegmentHeader.size then
      match tornFormat generation dir with
      | .error e => (.error e, dir)
      | .ok version =>
        (.ok ⟨last.number, 0, maxBytes, version⟩, dir.modify last.number fun bytes =>
          setLen (writeAt bytes 0 (SegmentHeader.encode ⟨version⟩)) SegmentHeader.size)
    else
      match SegmentHeader.decode (last.bytes.take SegmentHeader.size) with
      | .error e => (.error e, dir)
      | .ok header =>
        if header.formatVersion = currentWalFormatVersion ∨ header.formatVersion = 9 ∨
            header.formatVersion = 10 then
          (.ok ⟨last.number, last.bytes.length - SegmentHeader.size, maxBytes,
            header.formatVersion⟩, dir)
        else
          match dir.create (last.number + 1) (SegmentHeader.encode ⟨currentWalFormatVersion⟩) with
          | .error e => (.error e, dir)
          | .ok dir => (.ok ⟨last.number + 1, 0, maxBytes, currentWalFormatVersion⟩, dir)

variable (w : SegmentWriter)

def rotate (dir : WalDir) : Except WalError (SegmentWriter × WalDir) := do
  let dir ← dir.create (w.currentSeg + 1) (SegmentHeader.encode ⟨w.formatVersion⟩)
  return ({ w with currentSeg := w.currentSeg + 1, currentBytes := 0 }, dir)

/-- A batch of `n` bytes goes to a new segment. -/
def rotates (n : Nat) : Bool := w.maxBytes < w.currentBytes + n && 0 < w.currentBytes

def landingSegmentFor (n : Nat) : Nat :=
  if w.rotates n then w.currentSeg + 1 else w.currentSeg

def write (dir : WalDir) (bytes : Bytes) : SegmentWriter × WalDir :=
  ({ w with currentBytes := w.currentBytes + bytes.length },
    dir.modify w.currentSeg fun file => writeAt file (SegmentHeader.size + w.currentBytes) bytes)

def append (dir : WalDir) (bytes : Bytes) :
    Except WalError (SegmentWriter × WalDir) :=
  if bytes.isEmpty then .ok (w, dir)
  else if w.rotates bytes.length then do
    let (w, dir) ← w.rotate dir
    return w.write dir bytes
  else .ok (w.write dir bytes)

end SegmentWriter
end ArcGraph.Wal
