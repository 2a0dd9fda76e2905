import ArcGraph.Foundation.Fallible
import ArcGraph.Wal.Delta

/-!
# WAL records

A record is a header of 44 bytes and a payload. The checksum in the first four
bytes covers everything after them; it is a parameter.
-/

namespace ArcGraph.Wal
open Foundation List Nat

inductive WalRecordType
  | begin
  | commit
  | abort
  | putNode
  | putRel
  | deleteNode
  | deleteRel
  | checkpoint
  | internString
  | putBlob
  | indexPage
  | commitBundle
deriving DecidableEq

namespace WalRecordType

def asByte : WalRecordType → UInt8
  | begin => 1
  | commit => 2
  | abort => 3
  | putNode => 4
  | putRel => 5
  | deleteNode => 6
  | deleteRel => 7
  | checkpoint => 8
  | internString => 9
  | putBlob => 10
  | indexPage => 11
  | commitBundle => 12

def fromByte : UInt8 → Except WalError WalRecordType
  | 1 => .ok begin
  | 2 => .ok commit
  | 3 => .ok abort
  | 4 => .ok putNode
  | 5 => .ok putRel
  | 6 => .ok deleteNode
  | 7 => .ok deleteRel
  | 8 => .ok checkpoint
  | 9 => .ok internString
  | 10 => .ok putBlob
  | 11 => .ok indexPage
  | 12 => .ok commitBundle
  | other =>
    if 13 ≤ other ∧ other ≤ 17 then .error (.recordTypeReserved other)
    else .error (.corruption 0 s!"unknown wal record type byte: {other}")

@[simp] theorem fromByte_asByte (t : WalRecordType) : fromByte t.asByte = .ok t := by
  cases t <;> rfl

end WalRecordType

structure WalRecord where
  recordType : WalRecordType
  txnId : UInt64
  lsn : UInt64
  timestampMs : Int64
  tenantId : TenantId
  payload : Bytes
deriving DecidableEq

namespace WalRecord

def headerSize : Nat := 44

def maxPayloadLen : Nat := 2 ^ 32 - 1 - headerSize

variable (r : WalRecord)

def encodedLen : Nat := headerSize + r.payload.length

section
variable (crc32c : Bytes → UInt32)

def covered : Bytes :=
  leBytes 4 r.encodedLen ++ ([r.recordType.asByte] ++ ([0, 0, 0] ++ (leBytes 8 r.txnId.toNat ++
    (leBytes 8 r.lsn.toNat ++ (leBytes 8 r.timestampMs.toUInt64.toNat ++
      (leBytes 8 r.tenantId.toNat ++ r.payload))))))

def encoded (r : WalRecord) : Bytes := leBytes 4 (crc32c r.covered).toNat ++ r.covered

def encodeToVec (r : WalRecord) : Except WalError Bytes :=
  if maxPayloadLen < r.payload.length then
    .error (.invalidRecordLength r.payload.length maxPayloadLen)
  else .ok (r.encoded crc32c)

/-- The little-endian number of `width` bytes at `offset`. -/
def field (bytes : Bytes) (offset width : Nat) : Nat := leValue ((bytes.drop offset).take width)

/-- At least eight lower-case hexadecimal digits, as `{:08x}` prints. -/
def hex8 (n : Nat) : String :=
  let digits := Nat.toDigits 16 n
  String.ofList (List.replicate (8 - digits.length) '0' ++ digits)

/-- The record at the front of `bytes` and its length. -/
def decode (bytes : Bytes) : Except WalError (WalRecord × Nat) := do
  if bytes.length < headerSize then
    throw (.invalidRecordLength bytes.length headerSize)
  let length := field bytes 4 4
  if length < headerSize then
    throw (.corruption 0 s!"record length {length} < header size")
  if bytes.length < length then
    throw (.invalidRecordLength bytes.length length)
  let stored := field bytes 0 4
  let computed := (crc32c ((bytes.take length).drop 4)).toNat
  if stored ≠ computed then
    throw (.corruption 0 s!"crc mismatch: stored 0x{hex8 stored}, computed 0x{hex8 computed}")
  if (bytes.drop 9).take 3 ≠ [0, 0, 0] then
    throw (.corruption 0 "non-zero reserved bytes")
  let recordType ← WalRecordType.fromByte (UInt8.ofNat (field bytes 8 1))
  return ({ recordType
            txnId := UInt64.ofNat (field bytes 12 8)
            lsn := UInt64.ofNat (field bytes 20 8)
            timestampMs := (UInt64.ofNat (field bytes 28 8)).toInt64
            tenantId := UInt64.ofNat (field bytes 36 8)
            payload := (bytes.take length).drop headerSize }, length)

end

/-! ## Round trip -/

def Fits : Prop := r.payload.length ≤ maxPayloadLen

theorem field_append {a : Bytes} {offset : Nat} (h : a.length ≤ offset) (b : Bytes) (width : Nat) :
    field (a ++ b) offset width = field b (offset - a.length) width := by
  rw [field, drop_append, drop_eq_nil_of_le h, nil_append, field]

variable {n : Nat} {r : WalRecord}

theorem field_leBytes {width : Nat} (h : n < 256 ^ width) (rest : Bytes) :
    field (leBytes width n ++ rest) 0 width = n := by
  rw [field, drop_zero, take_append_of_le_length (by simp),
    take_of_length_le (by simp), leValue_leBytes width n h]

@[simp] theorem length_covered (r : WalRecord) : r.covered.length = r.encodedLen - 4 := by
  simp only [covered, encodedLen, headerSize, length_append, length_leBytes, length_cons,
    length_nil]
  omega

@[simp] theorem length_encoded (crc32c : Bytes → UInt32) (r : WalRecord) :
    (r.encoded crc32c).length = r.encodedLen := by
  simp only [encoded, length_append, length_leBytes, length_covered, encodedLen, headerSize]
  omega

theorem Fits.encodedLen_lt (h : r.Fits) : r.encodedLen < 256 ^ 4 := by
  unfold Fits maxPayloadLen headerSize at h
  unfold encodedLen headerSize
  omega

section
variable (crc32c : Bytes → UInt32) {r : WalRecord} (rest : Bytes)

theorem field_length (h : r.Fits) : field (r.encoded crc32c ++ rest) 4 4 = r.encodedLen := by
  simp only [encoded, covered, append_assoc]
  rw [field_append (by simp), length_leBytes]
  exact field_leBytes h.encodedLen_lt _

theorem field_checksum (r : WalRecord) :
    field (r.encoded crc32c ++ rest) 0 4 = (crc32c r.covered).toNat := by
  have hcrc : (crc32c r.covered).toNat < 256 ^ 4 := by
    have := (crc32c r.covered).toNat_lt
    omega
  rw [encoded, append_assoc]
  exact field_leBytes hcrc _

theorem take_encoded (r : WalRecord) :
    (r.encoded crc32c ++ rest).take r.encodedLen = r.encoded crc32c := by
  rw [← length_encoded crc32c r, take_left]

theorem covered_eq_drop (r : WalRecord) : (r.encoded crc32c).drop 4 = r.covered := by
  rw [encoded, drop_append_of_le_length (by simp), drop_of_length_le (by simp), nil_append]

theorem field_u64 (x : UInt64) (after : Bytes) :
    UInt64.ofNat (field (leBytes 8 x.toNat ++ after) 0 8) = x := by
  have hx : x.toNat < 256 ^ 8 := by
    have := x.toNat_lt
    omega
  rw [field_leBytes hx, UInt64.ofNat_toNat]

def framing (r : WalRecord) : Bytes :=
  leBytes 4 (crc32c r.covered).toNat ++ leBytes 4 r.encodedLen

theorem encoded_eq (r : WalRecord) : r.encoded crc32c =
    r.framing crc32c ++ ([r.recordType.asByte, 0, 0, 0] ++ (leBytes 8 r.txnId.toNat ++
      (leBytes 8 r.lsn.toNat ++ (leBytes 8 r.timestampMs.toUInt64.toNat ++
        (leBytes 8 r.tenantId.toNat ++ r.payload))))) := by
  simp [encoded, covered, framing]

@[simp] theorem length_framing (r : WalRecord) : (r.framing crc32c).length = 8 := by
  simp [framing]

theorem payload_eq_drop (r : WalRecord) : (r.encoded crc32c).drop headerSize = r.payload := by
  have hsplit : r.encoded crc32c = (r.framing crc32c ++ [r.recordType.asByte, 0, 0, 0] ++
      leBytes 8 r.txnId.toNat ++ leBytes 8 r.lsn.toNat ++ leBytes 8 r.timestampMs.toUInt64.toNat ++
        leBytes 8 r.tenantId.toNat) ++ r.payload := by
    simp [encoded_eq]
  rw [hsplit]
  exact drop_left' (by simp [headerSize])

theorem decode_encoded (h : r.Fits) :
    decode crc32c (r.encoded crc32c ++ rest) = .ok (r, r.encodedLen) := by
  generalize hb : r.encoded crc32c ++ rest = bytes
  have hbytes : bytes = r.framing crc32c ++ ([r.recordType.asByte, 0, 0, 0] ++
      (leBytes 8 r.txnId.toNat ++ (leBytes 8 r.lsn.toNat ++ (leBytes 8 r.timestampMs.toUInt64.toNat ++
        (leBytes 8 r.tenantId.toNat ++ (r.payload ++ rest)))))) := by
    rw [← hb, encoded_eq]
    simp only [append_assoc]
  have hlong : r.encodedLen ≤ bytes.length := by
    rw [← hb, length_append, length_encoded]
    omega
  have hheader : headerSize ≤ r.encodedLen := by
    unfold encodedLen
    omega
  have hlength : field bytes 4 4 = r.encodedLen := hb ▸ field_length crc32c rest h
  have hstored : field bytes 0 4 = (crc32c r.covered).toNat := hb ▸ field_checksum crc32c rest r
  have htake : bytes.take r.encodedLen = r.encoded crc32c := hb ▸ take_encoded crc32c rest r
  have hreserved : (bytes.drop 9).take 3 = [0, 0, 0] := by
    rw [hbytes, drop_append, drop_eq_nil_of_le (by simp)]
    simp
  have htype : UInt8.ofNat (field bytes 8 1) = r.recordType.asByte := by
    rw [hbytes, field_append (by simp)]
    simp [field, leValue]
  have htxn : UInt64.ofNat (field bytes 12 8) = r.txnId := by
    simp (disch := simp) only [hbytes, field_append, length_framing, length_cons,
      length_nil, reduceAdd, reduceSub, field_u64]
  have hlsn : UInt64.ofNat (field bytes 20 8) = r.lsn := by
    simp (disch := simp) only [hbytes, field_append, length_framing, length_leBytes,
      length_cons, length_nil, reduceAdd, reduceSub, field_u64]
  have htime : UInt64.ofNat (field bytes 28 8) = r.timestampMs.toUInt64 := by
    simp (disch := simp) only [hbytes, field_append, length_framing, length_leBytes,
      length_cons, length_nil, reduceAdd, reduceSub, field_u64]
  have htenant : UInt64.ofNat (field bytes 36 8) = r.tenantId := by
    simp (disch := simp) only [hbytes, field_append, length_framing, length_leBytes,
      length_cons, length_nil, reduceAdd, reduceSub]
    exact field_u64 r.tenantId _
  simp only [decode, hlength, hstored, htake, covered_eq_drop, payload_eq_drop, hreserved, htype,
    htxn, hlsn, htime, htenant, WalRecordType.fromByte_asByte, Int64.toInt64_toUInt64]
  rw [if_neg (by omega), if_neg (by omega), if_neg (by omega), if_neg (by simp), if_neg (by simp)]
  rfl

end

/-- The length that is consumed is the stored one, and the bytes hold it. -/
theorem decode_spec {crc32c : Bytes → UInt32} {bytes : Bytes}
    (h : decode crc32c bytes = .ok (r, n)) :
    n = field bytes 4 4 ∧ headerSize ≤ n ∧ n ≤ bytes.length := by
  unfold decode at h
  simp only [ite_throw_bind_eq_ok, bind_eq_ok, not_lt] at h
  obtain ⟨-, hbig, hfit, -, -, _, -, h⟩ := h
  cases h
  exact ⟨rfl, hbig, hfit⟩

end WalRecord

/-- A checksum that the kernel can compute. -/
def byteSum (bytes : Bytes) : UInt32 := UInt32.ofNat (bytes.map (·.toNat)).sum

end ArcGraph.Wal
