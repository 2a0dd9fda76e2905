import ArcGraph.Wal.Segment

/-!
# The recovery reader

The reader goes through the segments in ascending order and yields their records.
`turn` is one pass of the loop in `Iterator::next`; `recover` drives the iterator to
its end. An incomplete record at the end of the last segment is a torn tail and
ends the iteration quietly; anything else that does not decode is an error.

`turn_size` bounds the number of turns, so the iteration always ends
(`recover_isSome`). `drives_records` is what the reader does with whole records,
and the lemmas after it say how a segment can end.
-/

namespace ArcGraph.Wal
open Foundation List Option Nat

/-! ## Encrypted payloads -/

/-- `AEAD` -/
def walEncryptionMagic : Bytes := [65, 69, 65, 68]

def walPayloadHeaderLen : Nat := 36

def isEncryptedWalPayload (payload : Bytes) : Bool :=
  walPayloadHeaderLen ≤ payload.length && payload.take 4 = walEncryptionMagic &&
    (payload.drop 6).take 2 = [0, 0]

/-- `WalEncryption::decrypt` with the keys of the deployment: segment, LSN, payload. -/
abbrev WalEncryption := Nat → UInt64 → Bytes → Except WalError Bytes

def decryptRecord (encryption : Option WalEncryption) (segNo : Nat) (r : WalRecord) :
    Except WalError WalRecord :=
  if isEncryptedWalPayload r.payload then
    match encryption with
    | some decrypt => do
        let payload ← decrypt segNo r.lsn r.payload
        return { r with payload }
    | none =>
      .error (.decryptionFailed r.lsn.toNat (leValue ((r.payload.drop 4).take 2))
        ("WalRecoveryReader has no encryption config; encountered encrypted payload during " ++
          "recovery — use WalRecoveryReader::with_encryption(...) at open time"))
  else .ok r

/-! ## The reader -/

structure TornTail where
  segment : Nat
  offset : Nat
deriving DecidableEq

def truncateTornTail (dir : WalDir) (tail : TornTail) : WalDir :=
  dir.modify tail.segment fun bytes => setLen bytes tail.offset

structure SegmentBuffer where
  segNo : Nat
  bytes : Bytes
  cursor : Nat

namespace SegmentBuffer

def remaining (b : SegmentBuffer) : Bytes := b.bytes.drop b.cursor

end SegmentBuffer

structure WalRecoveryReader where
  remainingSegments : WalDir
  current : Option SegmentBuffer
  lastLsn : UInt64
  tornTail : Option TornTail
  done : Bool

inductive DecodeOutcome
  | record (r : WalRecord) (consumed : Nat)
  | reserved (lsn : UInt64) (consumed : Nat)
  | truncated
  | failure (error : WalError)

inductive Turn
  | again (reader : WalRecoveryReader)
  | item (record : WalRecord) (reader : WalRecoveryReader)
  | fail (error : WalError)
  | finish (reader : WalRecoveryReader)

/-- The records the iterator yielded, and how it ended. -/
structure Recovery where
  records : List WalRecord
  result : Except WalError WalRecoveryReader

section
variable (crc32c : Bytes → UInt32) (encryption : Option WalEncryption)

/-- A corruption error whose length field is zero is a zero-filled tail. -/
def decodeOutcome (remaining : Bytes) : DecodeOutcome :=
  match WalRecord.decode crc32c remaining with
  | .ok (record, consumed) => .record record consumed
  | .error (.recordTypeReserved _) =>
    .reserved (UInt64.ofNat (WalRecord.field remaining 20 8)) (WalRecord.field remaining 4 4)
  | .error (.invalidRecordLength _ _) => .truncated
  | .error (.corruption lsn reason) =>
    if WalRecord.headerSize ≤ remaining.length ∧ (remaining.drop 4).take 4 = [0, 0, 0, 0] then
      .truncated
    else .failure (.corruption lsn reason)
  | .error e => .failure e

namespace WalRecoveryReader
variable (r : WalRecoveryReader)

def advanceSegment : Except WalError WalRecoveryReader :=
  match r.remainingSegments with
  | [] => .ok { r with current := none }
  | file :: rest =>
    if file.bytes.length < SegmentHeader.size ∧ rest.isEmpty then
      .ok { r with
        remainingSegments := rest
        tornTail := some ⟨file.number, 0⟩
        done := true
        current := none }
    else do
      let _header ← SegmentHeader.decode (file.bytes.take SegmentHeader.size)
      return { r with
        remainingSegments := rest
        current := some ⟨file.number, file.bytes, SegmentHeader.size⟩ }

variable (buf : SegmentBuffer)

def consume (lsn : UInt64) (consumed : Nat) :
    WalRecoveryReader :=
  { r with
    current := some { buf with cursor := buf.cursor + consumed }
    lastLsn := if r.lastLsn < lsn then lsn else r.lastLsn }

def advanceTurn : Turn :=
  match r.advanceSegment with
  | .error e => .fail e
  | .ok r => if r.current.isNone then .finish { r with done := true } else .again r

def decodeTurn : Turn :=
  match decodeOutcome crc32c buf.remaining with
  | .record record consumed =>
    match decryptRecord encryption buf.segNo record with
    | .error e => .fail e
    | .ok plain => .item plain (r.consume buf record.lsn consumed)
  | .reserved lsn consumed => .again (r.consume buf lsn consumed)
  | .truncated =>
    if r.remainingSegments.isEmpty then
      .finish { r with tornTail := some ⟨buf.segNo, buf.cursor⟩, done := true }
    else
      let segNo := buf.segNo
      let cursor := buf.cursor
      .fail (.corruption 0
        s!"truncated record in non-terminal segment {segNo} at offset {cursor}")
  | .failure e => .fail e

def turn : Turn :=
  if r.done then .finish r
  else
    match r.current with
    | none => r.advanceTurn
    | some buf => if buf.remaining = [] then r.advanceTurn else r.decodeTurn crc32c encryption buf

/-- Call the iterator until it ends; `none` is only for too little fuel. -/
def drive : Nat → WalRecoveryReader → Option Recovery
  | 0, _ => none
  | fuel + 1, r =>
    match r.turn crc32c encryption with
    | .again r => drive fuel r
    | .item record r => (drive fuel r).map fun out => { out with records := record :: out.records }
    | .fail e => some ⟨[], .error e⟩
    | .finish r => some ⟨[], .ok r⟩

def size : Nat :=
  (r.remainingSegments.map (·.bytes.length + 1)).sum +
    (r.current.map (·.remaining.length)).getD 0

def atStart (dir : WalDir) : WalRecoveryReader where
  remainingSegments := dir
  current := none
  lastLsn := 0
  tornTail := none
  done := false

def openDir (dir : WalDir) : Except WalError WalRecoveryReader := (atStart dir).advanceSegment

end WalRecoveryReader

def recover (dir : WalDir) : Option Recovery :=
  match WalRecoveryReader.openDir dir with
  | .error e => some ⟨[], .error e⟩
  | .ok r => r.drive crc32c encryption (r.size + 1)

end

/-! ## One record -/

variable {out : Recovery} {consumed : Nat}

section
open WalRecord
variable {crc32c : Bytes → UInt32} {remaining : Bytes}

def Torn (remaining : Bytes) : Prop :=
  remaining.length < headerSize ∨ field remaining 4 4 = 0 ∨ remaining.length < field remaining 4 4

instance (remaining : Bytes) : Decidable (Torn remaining) := inferInstanceAs (Decidable (_ ∨ _ ∨ _))

variable (crc32c) in
def Passes (remaining : Bytes) : Prop :=
  headerSize ≤ field remaining 4 4 ∧ field remaining 4 4 ≤ remaining.length ∧
    field remaining 0 4 = (crc32c ((remaining.take (field remaining 4 4)).drop 4)).toNat

instance (remaining : Bytes) : Decidable (Passes crc32c remaining) :=
  inferInstanceAs (Decidable (_ ∧ _ ∧ _))

theorem zero_length_iff (h : headerSize ≤ remaining.length) :
    (remaining.drop 4).take 4 = [0, 0, 0, 0] ↔ field remaining 4 4 = 0 := by
  constructor
  · intro hzero
    rw [field, hzero]
    rfl
  · intro hzero
    have hlen : ((remaining.drop 4).take 4).length = 4 := by
      rw [length_take, length_drop]
      unfold headerSize at h
      omega
    rw [leValue_eq_zero hzero, hlen]
    rfl

theorem decodeOutcome_of_torn (h : Torn remaining) :
    decodeOutcome crc32c remaining = .truncated := by
  rcases lt_or_ge remaining.length headerSize with hshort | hlong
  · have hdecode : decode crc32c remaining =
        .error (.invalidRecordLength remaining.length headerSize) := by
      rw [decode, if_pos hshort]
      rfl
    rw [decodeOutcome, hdecode]
  · rcases lt_or_ge (field remaining 4 4) headerSize with hsmall | hbig
    · have hzero : field remaining 4 4 = 0 := by
        rcases h with h | h | h
        · omega
        · exact h
        · omega
      obtain ⟨reason, hdecode⟩ : ∃ reason,
          decode crc32c remaining = .error (.corruption 0 reason) := by
        rw [decode, if_neg (not_lt.mpr hlong)]
        exact ⟨_, by simp only [hsmall, if_true]; rfl⟩
      simp only [decodeOutcome, hdecode]
      exact if_pos ⟨hlong, (zero_length_iff hlong).mpr hzero⟩
    · have hcut : remaining.length < field remaining 4 4 := by
        have hpos : 0 < headerSize := by decide
        rcases h with h | h | h <;> omega
      have hdecode : decode crc32c remaining =
          .error (.invalidRecordLength remaining.length (field remaining 4 4)) := by
        rw [decode, if_neg (not_lt.mpr hlong)]
        simp only [not_lt.mpr hbig, if_false, hcut, if_true]
        rfl
      rw [decodeOutcome, hdecode]

theorem decodeOutcome_of_not_passes (htorn : ¬ Torn remaining)
    (h : ¬ Passes crc32c remaining) : ∃ e, decodeOutcome crc32c remaining = .failure e := by
  simp only [Torn, not_or, not_lt] at htorn
  obtain ⟨hlong, hne, hfit⟩ := htorn
  have hnonzero : ¬ (headerSize ≤ remaining.length ∧ (remaining.drop 4).take 4 = [0, 0, 0, 0]) :=
    fun hz => hne ((zero_length_iff hlong).mp hz.2)
  have hcorrupt : ∃ lsn reason, decode crc32c remaining = .error (.corruption lsn reason) := by
    rcases lt_or_ge (field remaining 4 4) headerSize with hsmall | hbig
    · rw [decode, if_neg (not_lt.mpr hlong)]
      exact ⟨_, _, by simp only [hsmall, if_true]; rfl⟩
    · have hcrc : field remaining 0 4 ≠
          (crc32c ((remaining.take (field remaining 4 4)).drop 4)).toNat :=
        fun heq => h ⟨hbig, hfit, heq⟩
      rw [decode, if_neg (not_lt.mpr hlong)]
      simp only [not_lt.mpr hbig, not_lt.mpr hfit, if_false]
      exact ⟨_, _, by simp only [ne_eq, hcrc, not_false_eq_true, if_true]; rfl⟩
  obtain ⟨lsn, reason, hdecode⟩ := hcorrupt
  refine ⟨.corruption lsn reason, ?_⟩
  simp only [decodeOutcome, hdecode]
  exact if_neg hnonzero

theorem decodeOutcome_encoded {r : WalRecord} (h : r.Fits) (rest : Bytes) :
    decodeOutcome crc32c (r.encoded crc32c ++ rest) = .record r r.encodedLen := by
  rw [decodeOutcome, decode_encoded crc32c rest h]

theorem consumed_bounds (h : (∃ r, decodeOutcome crc32c remaining = .record r consumed) ∨
      ∃ lsn, decodeOutcome crc32c remaining = .reserved lsn consumed) :
    headerSize ≤ consumed ∧ consumed ≤ remaining.length := by
  by_cases htorn : Torn remaining
  · rw [decodeOutcome_of_torn htorn] at h
    rcases h with ⟨_, h⟩ | ⟨_, h⟩ <;> cases h
  · by_cases hpass : Passes crc32c remaining
    · have hconsumed : consumed = field remaining 4 4 := by
        cases hdecode : decode crc32c remaining with
        | ok =>
          simp only [decodeOutcome, hdecode] at h
          rcases h with ⟨_, h⟩ | ⟨_, h⟩ <;> cases h
          exact (decode_spec hdecode).1
        | error e =>
          cases e with simp only [decodeOutcome, hdecode] at h
          | recordTypeReserved =>
            rcases h with ⟨_, h⟩ | ⟨_, h⟩ <;> cases h
            rfl
          | corruption =>
            split at h <;> rcases h with ⟨_, h⟩ | ⟨_, h⟩ <;> cases h
          | _ =>
            rcases h with ⟨_, h⟩ | ⟨_, h⟩ <;> cases h
      rw [hconsumed]
      exact ⟨hpass.1, hpass.2.1⟩
    · obtain ⟨e, he⟩ := decodeOutcome_of_not_passes htorn hpass
      rw [he] at h
      rcases h with ⟨_, h⟩ | ⟨_, h⟩ <;> cases h

end

/-! ## The iteration ends -/

def Turn.next : Turn → Option WalRecoveryReader
  | again r | item _ r => some r
  | fail _ | finish _ => none

open SegmentBuffer

namespace WalRecoveryReader

variable {crc32c : Bytes → UInt32} {encryption : Option WalEncryption} {r r' : WalRecoveryReader}
  {buf : SegmentBuffer} {fuel : Nat}

theorem size_of_advanceTurn (h : r.advanceTurn.next = some r') : r'.size < r.size := by
  unfold advanceTurn advanceSegment at h
  cases hseg : r.remainingSegments with simp only [hseg] at h
  | nil =>
    cases h
  | cons file rest =>
    by_cases hshort : file.bytes.length < SegmentHeader.size ∧ rest.isEmpty
    · rw [if_pos hshort] at h
      cases h
    · rw [if_neg hshort] at h
      cases hdec : SegmentHeader.decode (file.bytes.take SegmentHeader.size) with rw [hdec] at h
      | error =>
        cases h
      | ok =>
        cases h
        simp only [size, hseg, remaining, map_some, getD_some, map_cons, sum_cons, length_drop]
        omega

theorem size_consume (hcur : r.current = some buf)
    (hpos : WalRecord.headerSize ≤ consumed) (hle : consumed ≤ buf.remaining.length)
    (lsn : UInt64) : (r.consume buf lsn consumed).size < r.size := by
  have hheader : 0 < WalRecord.headerSize := by decide
  simp only [remaining, length_drop] at hle
  simp only [size, consume, hcur, remaining, map_some, getD_some, length_drop]
  omega

theorem size_of_decodeTurn (hcur : r.current = some buf)
    (h : (r.decodeTurn crc32c encryption buf).next = some r') : r'.size < r.size := by
  unfold decodeTurn at h
  cases hout : decodeOutcome crc32c buf.remaining with
  | record record =>
    obtain ⟨hpos, hle⟩ := consumed_bounds (.inl ⟨record, hout⟩)
    simp only [hout] at h
    cases hrec : decryptRecord encryption buf.segNo record with rw [hrec] at h
    | error =>
      cases h
    | ok =>
      cases h
      exact size_consume hcur hpos hle record.lsn
  | reserved lsn =>
    obtain ⟨hpos, hle⟩ := consumed_bounds (.inr ⟨lsn, hout⟩)
    simp only [hout] at h
    cases h
    exact size_consume hcur hpos hle lsn
  | truncated =>
    simp only [hout] at h
    split at h <;> cases h
  | failure =>
    simp only [hout] at h
    cases h

theorem turn_size (h : (r.turn crc32c encryption).next = some r') : r'.size < r.size := by
  unfold turn at h
  split at h
  · cases h
  · split at h
    · exact size_of_advanceTurn h
    · rename_i buf hcur
      split at h
      · exact size_of_advanceTurn h
      · exact size_of_decodeTurn hcur h

theorem drive_isSome (h : r.size < fuel) : (r.drive crc32c encryption fuel).isSome = true := by
  induction fuel generalizing r with
  | zero => omega
  | succ fuel ih =>
    rw [drive]
    cases hturn : r.turn crc32c encryption with
    | again r' =>
      have hsize : r'.size < r.size := turn_size (by rw [hturn]; rfl)
      exact ih (by omega)
    | item _ r' =>
      have hsize : r'.size < r.size := turn_size (by rw [hturn]; rfl)
      simpa using ih (show r'.size < fuel by omega)
    | fail => rfl
    | finish => rfl

variable (crc32c encryption) in
/-- The iteration from a reader, without fuel. -/
inductive Drives : WalRecoveryReader → Recovery → Prop
  | again {r r' : WalRecoveryReader} {out : Recovery} :
      r.turn crc32c encryption = .again r' → Drives r' out → Drives r out
  | item {r r' : WalRecoveryReader} {out : Recovery} {record : WalRecord} :
      r.turn crc32c encryption = .item record r' → Drives r' out →
        Drives r ⟨record :: out.records, out.result⟩
  | fail {r : WalRecoveryReader} {e : WalError} :
      r.turn crc32c encryption = .fail e → Drives r ⟨[], .error e⟩
  | finish {r r' : WalRecoveryReader} :
      r.turn crc32c encryption = .finish r' → Drives r ⟨[], .ok r'⟩

theorem Drives.drive (h : Drives crc32c encryption r out)
    (hfuel : r.size < fuel) : r.drive crc32c encryption fuel = some out := by
  induction h generalizing fuel with
  | again hturn _ ih =>
    obtain ⟨n, rfl⟩ := exists_eq_succ_of_ne_zero (ne_zero_of_lt hfuel)
    have hsize := turn_size (by rw [hturn]; rfl)
    rw [WalRecoveryReader.drive, hturn]
    exact ih (by omega)
  | item hturn _ ih =>
    obtain ⟨n, rfl⟩ := exists_eq_succ_of_ne_zero (ne_zero_of_lt hfuel)
    have hsize := turn_size (by rw [hturn]; rfl)
    rw [WalRecoveryReader.drive, hturn]
    simp only [ih (show _ < n by omega), map_some]
  | fail hturn | finish hturn =>
    obtain ⟨n, rfl⟩ := exists_eq_succ_of_ne_zero (ne_zero_of_lt hfuel)
    rw [WalRecoveryReader.drive, hturn]

theorem Drives.unique {out' : Recovery} (h : Drives crc32c encryption r out)
    (h' : Drives crc32c encryption r out') : out = out' := by
  have hdrive := h.drive (lt_succ_self r.size)
  rw [h'.drive (lt_succ_self r.size)] at hdrive
  exact (some.inj hdrive).symm

end WalRecoveryReader

open WalRecoveryReader
variable {crc32c : Bytes → UInt32} {encryption : Option WalEncryption}

/-- The iteration ends on every directory. -/
theorem recover_isSome (dir : WalDir) : (recover crc32c encryption dir).isSome = true := by
  unfold recover
  split
  · rfl
  · exact drive_isSome (lt_succ_self _)

theorem turn_atStart (dir : WalDir) :
    (atStart dir).turn crc32c encryption = (atStart dir).advanceTurn := rfl

variable {r : WalRecoveryReader} {rest : WalDir} {buf : SegmentBuffer} {seg : Segment}
  {bytes tail : Bytes}

theorem advanceSegment_none {r' : WalRecoveryReader} (h : r.advanceSegment = .ok r')
    (hcur : r'.current = none) : r'.done = true ∨ r'.remainingSegments = [] := by
  unfold advanceSegment at h
  split at h
  · rename_i hnil
    cases h
    exact .inr hnil
  · split at h
    · cases h
      exact .inl rfl
    · simp only [bind, Except.bind] at h
      split at h
      · cases h
      · cases h
        cases hcur

theorem turn_of_none (hcur : r.current = none) (h : r.done = true ∨ r.remainingSegments = []) :
    r.turn crc32c encryption = .finish { r with done := true } := by
  obtain ⟨_, _, _, _, done⟩ := r
  cases done with
  | true => rfl
  | false =>
    simp only [Bool.false_eq_true, false_or] at h hcur
    subst h hcur
    rfl

theorem recover_of_drives {dir : WalDir}
    (h : Drives crc32c encryption (atStart dir) out) : recover crc32c encryption dir = some out := by
  unfold recover WalRecoveryReader.openDir
  cases hadv : (atStart dir).advanceSegment with
  | error e =>
    have hturn : (atStart dir).turn crc32c encryption = .fail e := by
      rw [turn_atStart, advanceTurn, hadv]
    rw [h.unique (.fail hturn)]
  | ok r =>
    have hturn : (atStart dir).turn crc32c encryption =
        if r.current.isNone then .finish { r with done := true } else .again r := by
      rw [turn_atStart, advanceTurn, hadv]
    cases hcur : r.current with
    | some =>
      rw [hcur] at hturn
      cases h with
      | again hagain hrest =>
        cases hturn.symm.trans hagain
        exact hrest.drive (lt_succ_self _)
      | item hitem => cases hturn.symm.trans hitem
      | fail hfail => cases hturn.symm.trans hfail
      | finish hfinish => cases hturn.symm.trans hfinish
    | none =>
      rw [if_pos (by rw [hcur]; rfl)] at hturn
      rw [h.unique (.finish hturn)]
      exact Drives.drive (.finish (turn_of_none hcur (advanceSegment_none hadv hcur)))
        (lt_succ_self _)

/-! ## Segments of whole records -/

def body (crc32c : Bytes → UInt32) (records : List WalRecord) : Bytes :=
  records.flatMap (·.encoded crc32c)

@[simp] theorem body_nil : body crc32c [] = [] := rfl

@[simp] theorem body_cons (r : WalRecord) (records : List WalRecord) :
    body crc32c (r :: records) = r.encoded crc32c ++ body crc32c records := rfl

@[simp] theorem body_append (records more : List WalRecord) :
    body crc32c (records ++ more) = body crc32c records ++ body crc32c more :=
  flatMap_append

/-- What a segment file is meant to hold. -/
structure Segment where
  number : Nat
  header : SegmentHeader
  records : List WalRecord

variable (encryption) in
def yielded (segNo : Nat) (r : WalRecord) : WalRecord :=
  (decryptRecord encryption segNo r).toOption.getD r

namespace Segment
variable (crc32c) in
def image (seg : Segment) : Bytes := seg.header.encode ++ body crc32c seg.records

variable (crc32c) in
def file (seg : Segment) : SegmentFile := ⟨seg.number, seg.image crc32c⟩

variable (encryption) in
def yields (seg : Segment) : List WalRecord := seg.records.map (yielded encryption seg.number)

variable (encryption) in
/-- The header is known, the records have a length field that holds, and payloads
that look encrypted decrypt. -/
structure Valid (seg : Segment) : Prop where
  supported : seg.header.Supported
  fits : ∀ r ∈ seg.records, r.Fits
  readable : ∀ r ∈ seg.records, (decryptRecord encryption seg.number r).isOk = true

end Segment

/-- A reader that is about to go to the next segment. -/
structure AtEnd (r : WalRecoveryReader) : Prop where
  live : r.done = false
  whole : r.tornTail = none
  read : ∀ buf, r.current = some buf → buf.remaining = []

theorem AtEnd.turn (h : AtEnd r) : r.turn crc32c encryption = r.advanceTurn := by
  rw [WalRecoveryReader.turn, h.live]
  cases hcur : r.current with
  | none => rfl
  | some buf => simp [h.read buf hcur]

structure Inside (r : WalRecoveryReader) (rest : WalDir) (buf : SegmentBuffer) : Prop where
  live : r.done = false
  whole : r.tornTail = none
  segments : r.remainingSegments = rest
  current : r.current = some buf

theorem Inside.turn (h : Inside r rest buf) (hne : buf.remaining ≠ []) :
    r.turn crc32c encryption = r.decodeTurn crc32c encryption buf := by
  rw [WalRecoveryReader.turn, h.live, h.current]
  simp [hne]

theorem decryptRecord_yielded {segNo : Nat} {r : WalRecord}
    (h : (decryptRecord encryption segNo r).isOk = true) :
    decryptRecord encryption segNo r = .ok (yielded encryption segNo r) :=
  eq_ok_getD r h

theorem encoded_ne_nil (r : WalRecord) (rest : Bytes) : r.encoded crc32c ++ rest ≠ [] := by
  intro hnil
  have hlen := congrArg length hnil
  rw [length_append, WalRecord.length_encoded, WalRecord.encodedLen, WalRecord.headerSize,
    length_nil] at hlen
  omega

/-- The reader yields the whole records of a segment one after another. -/
theorem drives_records {records : List WalRecord} (h : Inside r rest buf)
    (hrem : buf.remaining = body crc32c records ++ tail) (hfits : ∀ x ∈ records, x.Fits)
    (hread : ∀ x ∈ records, (decryptRecord encryption buf.segNo x).isOk = true) :
    ∃ r', Inside r' rest { buf with cursor := buf.cursor + (body crc32c records).length } ∧
      ∀ out, Drives crc32c encryption r' out → Drives crc32c encryption r
        ⟨records.map (yielded encryption buf.segNo) ++ out.records, out.result⟩ := by
  induction records generalizing r buf with
  | nil => exact ⟨r, h, fun out hout => hout⟩
  | cons x xs ih =>
    rw [body_cons, append_assoc] at hrem
    have hout : decodeOutcome crc32c buf.remaining = .record x x.encodedLen := by
      rw [hrem]
      exact decodeOutcome_encoded (hfits x mem_cons_self) _
    have hturn : r.turn crc32c encryption = .item (yielded encryption buf.segNo x)
        (r.consume buf x.lsn x.encodedLen) := by
      rw [h.turn (hrem ▸ encoded_ne_nil x _), decodeTurn, hout]
      simp only [decryptRecord_yielded (hread x mem_cons_self)]
    have hnext : Inside (r.consume buf x.lsn x.encodedLen) rest
        { buf with cursor := buf.cursor + x.encodedLen } := ⟨h.live, h.whole, h.segments, rfl⟩
    have hrest : ({ buf with cursor := buf.cursor + x.encodedLen } : SegmentBuffer).remaining =
        body crc32c xs ++ tail := by
      have hdrop : buf.bytes.drop (buf.cursor + x.encodedLen) =
          buf.remaining.drop x.encodedLen := by
        rw [remaining, drop_drop]
      show buf.bytes.drop (buf.cursor + x.encodedLen) = _
      rw [hdrop, hrem, ← WalRecord.length_encoded crc32c x, drop_left]
    obtain ⟨r', hr', hdrives⟩ := ih hnext hrest (fun y hy => hfits y (mem_cons_of_mem _ hy))
      fun y hy => hread y (mem_cons_of_mem _ hy)
    refine ⟨r', ?_, fun out hd => .item hturn (hdrives out hd)⟩
    rw [body_cons, length_append, WalRecord.length_encoded, ← add_assoc]
    exact hr'

theorem advanceTurn_image (hseg : seg.header.Supported)
    (hsegs : r.remainingSegments = ⟨seg.number, seg.image crc32c ++ tail⟩ :: rest) :
    r.advanceTurn = .again { r with
      remainingSegments := rest
      current := some ⟨seg.number, seg.image crc32c ++ tail, SegmentHeader.size⟩ } := by
  have hlong : SegmentHeader.size ≤ (seg.image crc32c ++ tail).length := by
    rw [Segment.image, append_assoc, length_append, SegmentHeader.length_encode]
    omega
  have hheader : (seg.image crc32c ++ tail).take SegmentHeader.size = seg.header.encode := by
    rw [Segment.image, append_assoc, ← seg.header.length_encode, take_left]
  rw [advanceTurn, advanceSegment, hsegs]
  simp only [not_lt.mpr hlong, false_and, if_false, hheader, hseg.decode_encode]
  rfl

theorem drives_segment (hend : AtEnd r) (hseg : seg.Valid encryption)
    (hsegs : r.remainingSegments = ⟨seg.number, seg.image crc32c ++ tail⟩ :: rest) :
    ∃ r', Inside r' rest ⟨seg.number, seg.image crc32c ++ tail, (seg.image crc32c).length⟩ ∧
      ∀ out, Drives crc32c encryption r' out → Drives crc32c encryption r
        ⟨seg.yields encryption ++ out.records, out.result⟩ := by
  have hturn : r.turn crc32c encryption = .again _ :=
    hend.turn.trans (advanceTurn_image hseg.supported hsegs)
  have hrem : (⟨seg.number, seg.image crc32c ++ tail, SegmentHeader.size⟩ :
      SegmentBuffer).remaining = body crc32c seg.records ++ tail := by
    rw [remaining, Segment.image, append_assoc, ← seg.header.length_encode, drop_left]
  obtain ⟨r', hr', hdrives⟩ := drives_records (r := { r with
    remainingSegments := rest
    current := some ⟨seg.number, seg.image crc32c ++ tail, SegmentHeader.size⟩ })
    ⟨hend.live, hend.whole, rfl, rfl⟩ hrem hseg.fits hseg.readable
  refine ⟨r', ?_, fun out hout => .again hturn (hdrives out hout)⟩
  rw [Segment.image, length_append, SegmentHeader.length_encode]
  exact hr'

/-! ### How the last segment can end -/

/-- A file in which the header of a segment is not whole: some of its bytes, then
zeros. -/
def HeaderTorn (header : SegmentHeader) (bytes : Bytes) : Prop :=
  ¬ header.encode <+: bytes ∧ ∃ cut fill, bytes = header.encode.take cut ++ replicate fill 0

theorem HeaderTorn.decode {header : SegmentHeader} (hs : header.Supported)
    (h : HeaderTorn header bytes) (hlong : SegmentHeader.size ≤ bytes.length) :
    ∃ e, SegmentHeader.decode (bytes.take SegmentHeader.size) = .error e := by
  obtain ⟨hno, cut, fill, rfl⟩ := h
  rw [hs.encode_eq] at hno hlong ⊢
  rcases lt_or_ge 4 cut with hlarge | hsmall
  · -- the version byte is there and zeros follow, so the header is whole after all
    refine absurd ?_ hno
    obtain ⟨k, rfl⟩ : ∃ k, cut = 4 + (k + 1) := ⟨cut - 5, by omega⟩
    have htake : (walSegmentMagic ++ (UInt8.ofNat header.formatVersion :: replicate 3 0)).take
        (4 + (k + 1)) = walSegmentMagic ++ (UInt8.ofNat header.formatVersion ::
          replicate (min k 3) 0) := by
      have hoffset : 4 + (k + 1) - walSegmentMagic.length = k + 1 := by
        simp [walSegmentMagic]
      rw [take_append, take_of_length_le (by simp [walSegmentMagic]), hoffset,
        take_succ_cons, take_replicate]
    rw [htake] at hlong ⊢
    have hfill : 3 ≤ min k 3 + fill := by
      simp only [walSegmentMagic, SegmentHeader.size, length_append, length_cons,
        length_nil, length_replicate] at hlong
      omega
    refine ⟨replicate (min k 3 + fill - 3) 0, ?_⟩
    simp only [append_assoc, cons_append, replicate_append_replicate]
    rw [add_sub_of_le hfill]
  · have htake : (walSegmentMagic ++ (UInt8.ofNat header.formatVersion :: replicate 3 0)).take
        cut = walSegmentMagic.take cut :=
      take_append_of_le_length (by simpa [walSegmentMagic] using hsmall)
    have hmagic : (walSegmentMagic.take cut).length = cut := by
      simpa [walSegmentMagic] using hsmall
    rw [htake] at hlong ⊢
    have hfill : SegmentHeader.size - cut ≤ fill := by
      rw [length_append, hmagic, length_replicate] at hlong
      omega
    have hbytes : (walSegmentMagic.take cut ++ replicate fill 0).take SegmentHeader.size =
        walSegmentMagic.take cut ++ replicate (SegmentHeader.size - cut) 0 := by
      rw [take_append, hmagic, take_replicate, min_eq_left hfill,
        take_of_length_le (by rw [hmagic]; unfold SegmentHeader.size; omega)]
    rw [hbytes]
    have hcases : cut = 0 ∨ cut = 1 ∨ cut = 2 ∨ cut = 3 ∨ cut = 4 := by omega
    rcases hcases with rfl | rfl | rfl | rfl | rfl <;> exact ⟨_, rfl⟩

/-- The file of the last segment: its image and bytes that no record can be made
of, or a torn header. -/
inductive LastBytes (crc32c : Bytes → UInt32) (seg : Segment) : Bytes → Prop
  | tail (tail : Bytes) : ¬ Passes crc32c tail → LastBytes crc32c seg (seg.image crc32c ++ tail)
  | header (bytes : Bytes) : seg.records = [] → HeaderTorn seg.header bytes →
      LastBytes crc32c seg bytes

variable (crc32c) in
/-- How the reader ends: with an error, or with this torn tail. -/
def ending (seg : Segment) (bytes : Bytes) : Option (Option TornTail) :=
  if seg.header.encode <+: bytes then
    let tail := bytes.drop (seg.image crc32c).length
    if tail = [] then some none
    else if Torn tail then some (some ⟨seg.number, (seg.image crc32c).length⟩)
    else none
  else if bytes.length < SegmentHeader.size then some (some ⟨seg.number, 0⟩)
  else none

theorem ending_image (seg : Segment) (tail : Bytes) :
    ending crc32c seg (seg.image crc32c ++ tail) = if tail = [] then some none
      else if Torn tail then some (some ⟨seg.number, (seg.image crc32c).length⟩) else none := by
  have hprefix : seg.header.encode <+: seg.image crc32c ++ tail := by
    rw [Segment.image, append_assoc]
    exact prefix_append _ _
  rw [ending, if_pos hprefix, drop_left]

theorem ending_headerTorn (h : HeaderTorn seg.header bytes) :
    ending crc32c seg bytes =
      if bytes.length < SegmentHeader.size then some (some ⟨seg.number, 0⟩) else none := by
  rw [ending, if_neg h.1]

/-- A recovery that ended as `ending` says. -/
def Recovery.EndsWith (out : Recovery) : Option (Option TornTail) → Prop
  | none => ∃ e, out.result = .error e
  | some tail => ∃ r, out.result = .ok r ∧ r.tornTail = tail

theorem Inside.drives_end (h : Inside r [] buf) (hread : buf.remaining = []) :
    ∃ r', Drives crc32c encryption r ⟨[], .ok r'⟩ ∧ r'.tornTail = none := by
  have hend : AtEnd r := by
    refine ⟨h.live, h.whole, fun b hb => ?_⟩
    rw [h.current] at hb
    cases hb
    exact hread
  have hturn : r.turn crc32c encryption = .finish { r with current := none, done := true } := by
    rw [hend.turn, advanceTurn, advanceSegment, h.segments]
    rfl
  exact ⟨_, .finish hturn, h.whole⟩

theorem Inside.drives_torn (h : Inside r [] buf) (hne : buf.remaining ≠ [])
    (htorn : Torn buf.remaining) :
    ∃ r', Drives crc32c encryption r ⟨[], .ok r'⟩ ∧ r'.tornTail = some ⟨buf.segNo, buf.cursor⟩ := by
  have hturn : r.turn crc32c encryption =
      .finish { r with tornTail := some ⟨buf.segNo, buf.cursor⟩, done := true } := by
    rw [h.turn hne, decodeTurn, decodeOutcome_of_torn htorn, h.segments]
    rfl
  exact ⟨_, .finish hturn, rfl⟩

theorem Inside.drives_rejected (h : Inside r rest buf) (hne : buf.remaining ≠ [])
    (htorn : ¬ Torn buf.remaining) (hpass : ¬ Passes crc32c buf.remaining) :
    ∃ e, Drives crc32c encryption r ⟨[], .error e⟩ := by
  obtain ⟨e, he⟩ := decodeOutcome_of_not_passes htorn hpass
  have hturn : r.turn crc32c encryption = .fail e := by
    rw [h.turn hne, decodeTurn, he]
  exact ⟨e, .fail hturn⟩

theorem drives_last (hend : AtEnd r) (hseg : seg.Valid encryption)
    (hbytes : LastBytes crc32c seg bytes) (hsegs : r.remainingSegments = [⟨seg.number, bytes⟩]) :
    ∃ out, Drives crc32c encryption r out ∧ out.records = seg.yields encryption ∧
      out.EndsWith (ending crc32c seg bytes) := by
  cases hbytes with
  | tail tail =>
    obtain ⟨_, hinside, hdrives⟩ := drives_segment hend hseg hsegs
    have hrem : (⟨seg.number, seg.image crc32c ++ tail, (seg.image crc32c).length⟩ :
        SegmentBuffer).remaining = tail := drop_left
    rw [ending_image]
    by_cases hnil : tail = []
    · obtain ⟨r2, hr2, htail⟩ := hinside.drives_end (hrem.trans hnil)
      rw [if_pos hnil]
      exact ⟨_, hdrives _ hr2, by simp, r2, rfl, htail⟩
    · rw [if_neg hnil]
      by_cases htorn : Torn tail
      · obtain ⟨r2, hr2, htail⟩ := hinside.drives_torn (by rwa [hrem]) (by rwa [hrem])
        rw [if_pos htorn]
        exact ⟨_, hdrives _ hr2, by simp, r2, rfl, htail⟩
      · obtain ⟨e, he⟩ := hinside.drives_rejected (by rwa [hrem]) (by rwa [hrem]) (by rwa [hrem])
        rw [if_neg htorn]
        exact ⟨_, hdrives _ he, by simp, e, rfl⟩
  | header bytes hnil htorn =>
    have hyields : seg.yields encryption = [] := by rw [Segment.yields, hnil, map_nil]
    rw [ending_headerTorn htorn, hyields]
    by_cases hshort : bytes.length < SegmentHeader.size
    · have hturn : r.turn crc32c encryption = .finish { r with
          remainingSegments := []
          tornTail := some ⟨seg.number, 0⟩
          done := true
          current := none } := by
        rw [hend.turn, advanceTurn, advanceSegment, hsegs]
        simp [hshort]
      rw [if_pos hshort]
      exact ⟨_, .finish hturn, rfl, _, rfl, rfl⟩
    · obtain ⟨e, he⟩ := htorn.decode hseg.supported (not_lt.mp hshort)
      have hturn : r.turn crc32c encryption = .fail e := by
        rw [hend.turn, advanceTurn, advanceSegment, hsegs]
        simp only [hshort, false_and, if_false, he]
        rfl
      rw [if_neg hshort]
      exact ⟨_, .fail hturn, rfl, e, rfl⟩

theorem drives_images {segs : List Segment} {last : Segment} (hend : AtEnd r)
    (hsegs : ∀ seg ∈ segs, seg.Valid encryption) (hlast : last.Valid encryption)
    (hbytes : LastBytes crc32c last bytes)
    (hdir : r.remainingSegments = segs.map (·.file crc32c) ++ [⟨last.number, bytes⟩]) :
    ∃ out, Drives crc32c encryption r out ∧
      out.records = (segs ++ [last]).flatMap (·.yields encryption) ∧
      out.EndsWith (ending crc32c last bytes) := by
  induction segs generalizing r with
  | nil => simpa using drives_last hend hlast hbytes hdir
  | cons seg rest ih =>
    have hfile : r.remainingSegments = ⟨seg.number, seg.image crc32c ++ []⟩ ::
        (rest.map (·.file crc32c) ++ [⟨last.number, bytes⟩]) := by
      rw [hdir, append_nil]
      rfl
    obtain ⟨r', hinside, hdrives⟩ :=
      drives_segment hend (hsegs seg mem_cons_self) hfile
    have hend' : AtEnd r' := by
      refine ⟨hinside.live, hinside.whole, fun buf hbuf => ?_⟩
      rw [hinside.current] at hbuf
      cases hbuf
      exact drop_left
    obtain ⟨out, hout, hrecords, hending⟩ := ih hend'
      (fun x hx => hsegs x (mem_cons_of_mem _ hx)) hinside.segments
    refine ⟨_, hdrives out hout, ?_, ?_⟩
    · rw [cons_append, flatMap_cons, hrecords]
    · cases hcase : ending crc32c last bytes with rw [hcase] at hending
      | none =>
        exact hending
      | some =>
        exact hending

/-- What a recovery gives for whole segments followed by a possibly damaged one. -/
theorem recover_images {segs : List Segment} {last : Segment}
    (hsegs : ∀ seg ∈ segs, seg.Valid encryption) (hlast : last.Valid encryption)
    (hbytes : LastBytes crc32c last bytes) :
    ∃ out, recover crc32c encryption (segs.map (·.file crc32c) ++ [⟨last.number, bytes⟩]) =
        some out ∧ out.records = (segs ++ [last]).flatMap (·.yields encryption) ∧
      out.EndsWith (ending crc32c last bytes) := by
  obtain ⟨out, hout, hrecords, hending⟩ := drives_images (r := atStart _)
    ⟨rfl, rfl, fun buf hbuf => by cases hbuf⟩ hsegs hlast hbytes rfl
  exact ⟨out, recover_of_drives hout, hrecords, hending⟩

theorem recover_nil : ∃ out, recover crc32c encryption [] = some out ∧ out.records = [] ∧
    out.EndsWith (some none) :=
  ⟨_, rfl, rfl, _, rfl, rfl⟩

end ArcGraph.Wal
