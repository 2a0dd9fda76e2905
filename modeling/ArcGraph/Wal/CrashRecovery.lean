import ArcGraph.Foundation.System
import ArcGraph.Wal.Recovery

/-!
# Runs with crashes

A run appends batches, crashes, recovers, truncates the torn tail and opens the
writer again, any number of times. A crash cuts the last segment at any offset
and may leave zeros behind the cut.

Beside the directory, the state holds the segments as they should be: the records
that were appended and not cut off. The invariant `OnDisk` ties the two together;
each step of the run keeps it (`OnDisk.crash`, `OnDisk.recover`, `OnDisk.truncate`,
`OnDisk.openWriter`, `OnDisk.append`). `recovery_exact` is what follows for every
state of a run.
-/

namespace ArcGraph.Wal
open Foundation List SegmentHeader SegmentWriter WalRecord

/-- Where the process is between a crash and the next append. -/
inductive WalPhase
  | down
  | recovered (tail : Option TornTail)
  | clean
  | running (writer : SegmentWriter)

inductive WalAction
  | append (batch : List WalRecord)
  | crash (cut fill : Nat)
  | recover
  | truncate
  | openWriter (maxBytes : Nat)

structure WalRun where
  dir : WalDir
  phase : WalPhase
  segments : List Segment

/-! ## What a crash leaves -/

/-- The file contents after a crash. -/
def damage (bytes : Bytes) (cut fill : Nat) : Bytes := bytes.take cut ++ List.replicate fill 0

section
variable (crc32c : Bytes → UInt32) (encryption : Option WalEncryption)

/-- The records at the front of a list that stand whole at the front of the bytes. -/
def wholeIn : Bytes → List WalRecord → List WalRecord
  | _, [] => []
  | bytes, r :: rest =>
    if r.encoded crc32c <+: bytes then r :: wholeIn (bytes.drop r.encodedLen) rest else []

def Segment.cutTo (seg : Segment) (bytes : Bytes) : Segment :=
  { seg with
    records :=
      if seg.header.encode <+: bytes then
        wholeIn crc32c (bytes.drop SegmentHeader.size) seg.records
      else [] }

/-- Apply `f` to the last element. -/
def modifyLast {α : Type} (f : α → α) (l : List α) : List α :=
  match l.getLast? with
  | none => []
  | some a => l.dropLast ++ [f a]

def crashed (s : WalRun) (cut fill : Nat) : WalRun where
  dir := modifyLast (fun file => { file with bytes := damage file.bytes cut fill }) s.dir
  phase := .down
  segments :=
    match s.dir.getLast? with
    | none => s.segments
    | some file => modifyLast (·.cutTo crc32c (damage file.bytes cut fill)) s.segments

/-! ## Steps -/

variable (segments : List Segment)

/-- The segments after an append: a rotation starts a new one. -/
def appended (w w' : SegmentWriter) (batch : List WalRecord) :
    List Segment :=
  if w'.currentSeg = w.currentSeg then
    modifyLast (fun seg => { seg with records := seg.records ++ batch }) segments
  else segments ++ [⟨w'.currentSeg, ⟨w'.formatVersion⟩, batch⟩]

/-- The segments after the writer was opened: the last one may have got a new
header, or a new one was started. -/
def reopened (dir dir' : WalDir) (version : Nat) : List Segment :=
  if dir.length < dir'.length then
    segments ++ [⟨(dir'.getLast?.map (·.number)).getD 0, ⟨version⟩, []⟩]
  else if dir.getLast?.any (·.bytes.length < SegmentHeader.size) then
    modifyLast (fun seg => { seg with header := ⟨version⟩ }) segments
  else segments

variable (generation : Option ManifestWalFormat)

/-- `none` is an action that is not possible here. A recovery that ends with an
error leaves the process down. -/
def WalRun.step (s : WalRun) : WalAction → Option WalRun
  | .append batch =>
    match s.phase, batch.mapM (·.encodeToVec crc32c) with
    | .running w, .ok records =>
      match w.append s.dir records.flatten with
      | .ok (w', dir) => some ⟨dir, .running w', appended s.segments w w' batch⟩
      | .error _ => none
    | _, _ => none
  | .crash cut fill => some (crashed crc32c s cut fill)
  | .recover =>
    match s.phase, Wal.recover crc32c encryption s.dir with
    | .down, some ⟨_, .ok r⟩ => some { s with phase := .recovered r.tornTail }
    | _, _ => none
  | .truncate =>
    match s.phase with
    | .recovered (some tail) => some { s with dir := truncateTornTail s.dir tail, phase := .clean }
    | .recovered none => some { s with phase := .clean }
    | _ => none
  | .openWriter maxBytes =>
    match s.phase with
    | .clean =>
      if maxBytes = 0 then none
      else
        match SegmentWriter.openDir generation maxBytes s.dir with
        | (.ok w, dir) => some ⟨dir, .running w, reopened s.segments s.dir dir w.formatVersion⟩
        | (.error _, dir) =>
          some ⟨dir, .down, reopened s.segments s.dir dir currentWalFormatVersion⟩
    | _ => none

/-- The runs over a directory that starts with whole segments. -/
def walSystem (start : List Segment) : System WalRun WalAction where
  init := ⟨start.map (·.file crc32c), .down, start⟩
  step := WalRun.step crc32c encryption generation

/-- The records that were appended and not cut off, as a reader gives them out. -/
def WalRun.logged (s : WalRun) : List WalRecord := s.segments.flatMap (·.yields encryption)

/-- The damage to the last segment is of a kind that the reader takes for a torn
tail: the header is whole or too short to be looked at, and where the first record
is missing there is less than a record header, a zero length, or less than the
length says. -/
def WalRun.Tolerated (s : WalRun) : Prop :=
  match s.segments.getLast?, s.dir.getLast? with
  | some seg, some file => (ending crc32c seg file.bytes).isSome = true
  | _, _ => True

/-- What is assumed of a step: payloads that look encrypted decrypt in the segment
they land in, and the checksum rejects what a crash left of a record. -/
def WalOk (s : WalRun) : WalAction → Prop
  | .append batch =>
    match s.phase with
    | .running w => ∀ r ∈ batch, (decryptRecord encryption
        (w.landingSegmentFor (body crc32c batch).length) r).isOk = true
    | _ => True
  | .crash cut fill =>
    match s.segments.getLast?, s.dir.getLast? with
    | some seg, some file =>
      let bytes := damage file.bytes cut fill
      seg.header.encode <+: bytes →
        ¬ Passes crc32c (bytes.drop ((seg.cutTo crc32c bytes).image crc32c).length)
    | _, _ => True
  | _ => True

end

/-! ## Crashes -/

variable {bytes : Bytes} {cut : Nat}

open Segment

section
variable {crc32c : Bytes → UInt32} {encryption : Option WalEncryption}

@[simp] theorem modifyLast_concat {α : Type} (f : α → α) (l : List α) (a : α) :
    modifyLast f (l ++ [a]) = l ++ [f a] := by
  simp [modifyLast]

theorem wholeIn_prefix (bytes : Bytes) (records : List WalRecord) :
    body crc32c (wholeIn crc32c bytes records) <+: bytes := by
  induction records generalizing bytes with
  | nil => exact nil_prefix
  | cons r _ ih =>
    rw [wholeIn]
    split
    · rename_i hwhole
      obtain ⟨tail, rfl⟩ := hwhole
      have hdrop : (r.encoded crc32c ++ tail).drop r.encodedLen = tail := by
        rw [← length_encoded crc32c r, drop_left]
      rw [hdrop, body_cons]
      exact (prefix_append_right_inj _).mpr (ih tail)
    · exact nil_prefix

theorem wholeIn_sublist (bytes : Bytes) (records : List WalRecord) :
    (wholeIn crc32c bytes records).Sublist records := by
  induction records generalizing bytes with
  | nil => exact .slnil
  | cons r _ ih =>
    rw [wholeIn]
    split
    · exact (ih _).cons_cons r
    · exact nil_sublist _

theorem Segment.cutTo_sublist (seg : Segment) (bytes : Bytes) :
    (seg.cutTo crc32c bytes).records.Sublist seg.records := by
  unfold cutTo
  split
  · exact wholeIn_sublist _ _
  · exact nil_sublist _

variable {seg : Segment} {fill : Nat}

theorem Segment.Valid.cutTo (h : seg.Valid encryption) (bytes : Bytes) :
    (seg.cutTo crc32c bytes).Valid encryption where
  supported := h.supported
  fits r hr := h.fits r ((seg.cutTo_sublist bytes).subset hr)
  readable r hr := h.readable r ((seg.cutTo_sublist bytes).subset hr)

theorem LastBytes.headerTorn (h : LastBytes crc32c seg bytes)
    (hno : ¬ seg.header.encode <+: damage bytes cut fill) :
    HeaderTorn seg.header (damage bytes cut fill) := by
  refine ⟨hno, ?_⟩
  cases h with
  | tail =>
    rcases lt_or_ge cut seg.header.encode.length with hcut | hcut
    · refine ⟨cut, fill, ?_⟩
      rw [damage, image, append_assoc, take_append_of_le_length hcut.le]
    · refine absurd ?_ hno
      rw [damage, image, append_assoc, take_append, take_of_length_le hcut, append_assoc]
      exact prefix_append _ _
  | header _ _ htorn =>
    obtain ⟨-, c, m, rfl⟩ := htorn
    refine ⟨min cut c, min (cut - (seg.header.encode.take c).length) m + fill, ?_⟩
    rw [damage, take_append, take_take, take_replicate, append_assoc, replicate_append_replicate]

theorem Segment.cutTo_header (seg : Segment) (rest : Bytes) :
    seg.cutTo crc32c (seg.header.encode ++ rest) =
      { seg with records := wholeIn crc32c rest seg.records } := by
  rw [cutTo, if_pos (prefix_append _ _), ← seg.header.length_encode, drop_left]

variable (crc32c) in
theorem image_cutTo (seg : Segment) (rest : Bytes) :
    seg.header.encode ++ rest = (seg.cutTo crc32c (seg.header.encode ++ rest)).image crc32c ++
        rest.drop (body crc32c (wholeIn crc32c rest seg.records)).length := by
  obtain ⟨_, htail⟩ : body crc32c (wholeIn crc32c rest seg.records) <+: rest :=
    wholeIn_prefix rest seg.records
  rw [cutTo_header]
  generalize wholeIn crc32c rest seg.records = whole at htail ⊢
  rw [← htail, drop_left, image, append_assoc]

theorem lastBytes_of_header (hheader : seg.header.encode <+: bytes)
    (hpass : ¬ Passes crc32c (bytes.drop ((seg.cutTo crc32c bytes).image crc32c).length)) :
    LastBytes crc32c (seg.cutTo crc32c bytes) bytes := by
  obtain ⟨rest, rfl⟩ := hheader
  have hbytes := image_cutTo crc32c seg rest
  generalize seg.cutTo crc32c (seg.header.encode ++ rest) = cut at hbytes hpass ⊢
  rw [hbytes, drop_left] at hpass
  rw [hbytes]
  exact .tail _ hpass

theorem LastBytes.crash (h : LastBytes crc32c seg bytes)
    (hreject : seg.header.encode <+: damage bytes cut fill →
      ¬ Passes crc32c ((damage bytes cut fill).drop
        ((seg.cutTo crc32c (damage bytes cut fill)).image crc32c).length)) :
    LastBytes crc32c (seg.cutTo crc32c (damage bytes cut fill)) (damage bytes cut fill) := by
  by_cases hheader : seg.header.encode <+: damage bytes cut fill
  · exact lastBytes_of_header hheader (hreject hheader)
  · refine .header _ ?_ (h.headerTorn hheader)
    rw [cutTo, if_neg hheader]

end

/-! ## The invariant -/

section
variable (crc32c : Bytes → UInt32) (encryption : Option WalEncryption)

def PhaseBytes (last : Segment) (bytes : Bytes) : WalPhase → Prop
  | .down => LastBytes crc32c last bytes
  | .recovered tail => LastBytes crc32c last bytes ∧ ending crc32c last bytes = some tail
  | .clean => bytes = last.image crc32c ∨ (last.records = [] ∧ bytes = [])
  | .running w => bytes = last.image crc32c ∧ w.currentSeg = last.number ∧
      SegmentHeader.size + w.currentBytes = bytes.length ∧
      w.formatVersion = last.header.formatVersion

def PhaseEmpty : WalPhase → Prop
  | .recovered tail => tail = none
  | .running _ => False
  | .down | .clean => True

/-- The directory holds the segments, all but the last one as they should be. -/
inductive OnDisk (phase : WalPhase) : List Segment → WalDir → Prop
  | empty : PhaseEmpty phase → OnDisk phase [] []
  | mk (segs : List Segment) (last : Segment) (bytes : Bytes) : PhaseBytes crc32c last bytes phase →
      OnDisk phase (segs ++ [last]) (segs.map (·.file crc32c) ++ [⟨last.number, bytes⟩])

structure Segmented (segments : List Segment) : Prop where
  valid : ∀ seg ∈ segments, seg.Valid encryption
  ascending : segments.Pairwise fun a b => a.number < b.number

structure WalInv (s : WalRun) : Prop where
  disk : OnDisk crc32c s.phase s.segments s.dir
  segmented : Segmented encryption s.segments

end

section
variable {crc32c : Bytes → UInt32} {encryption : Option WalEncryption} {bytes : Bytes}

theorem not_passes_of_torn (h : Torn bytes) : ¬ Passes crc32c bytes := by
  intro hpass
  obtain ⟨_, _, -⟩ := hpass
  have hheader : 0 < headerSize := by decide
  rcases h with h | h | h <;> omega

theorem torn_nil : Torn [] := .inl (by decide)

theorem lastBytes_image (seg : Segment) : LastBytes crc32c seg (seg.image crc32c) := by
  have h : LastBytes crc32c seg (seg.image crc32c ++ []) := .tail [] (not_passes_of_torn torn_nil)
  rwa [append_nil] at h

variable {seg last : Segment} {segs segments : List Segment} {w : SegmentWriter} {dir : WalDir}
  {file : SegmentFile} {version number : Nat} {phase : WalPhase}
  {generation : Option ManifestWalFormat}

theorem lastBytes_nil (h : seg.records = []) : LastBytes crc32c seg [] := by
  refine .header [] h ⟨?_, 0, 0, rfl⟩
  rintro ⟨_, hrest⟩
  have hlen := congrArg length hrest
  rw [length_append, length_encode, size, length_nil] at hlen
  omega

theorem PhaseBytes.lastBytes
    (h : PhaseBytes crc32c last bytes phase) : LastBytes crc32c last bytes := by
  cases phase with
  | down => exact h
  | recovered => exact h.1
  | clean =>
    rcases h with rfl | ⟨hnil, rfl⟩
    · exact lastBytes_image last
    · exact lastBytes_nil hnil
  | running =>
    rw [h.1]
    exact lastBytes_image last

theorem Segmented.lt_last (h : Segmented encryption (segs ++ [last])) :
    ∀ seg ∈ segs, seg.number < last.number := by
  intro seg hseg
  exact (pairwise_append.mp h.ascending).2.2 seg hseg last (mem_singleton.mpr rfl)

theorem Segmented.snoc (h : Segmented encryption segs)
    (hlt : ∀ seg ∈ segs, seg.number < last.number) (hvalid : last.Valid encryption) :
    Segmented encryption (segs ++ [last]) where
  valid := forall_mem_append.mpr ⟨h.valid, forall_mem_singleton.mpr hvalid⟩
  ascending := by
    refine pairwise_append.mpr ⟨h.ascending, pairwise_singleton _ _, fun seg hseg => ?_⟩
    exact forall_mem_singleton.mpr (hlt seg hseg)

section
variable (h : Segmented encryption (segs ++ [last]))
include h

theorem Segmented.init : Segmented encryption segs :=
  ⟨fun seg hseg => h.valid seg (mem_append_left _ hseg), (pairwise_append.mp h.ascending).1⟩

theorem Segmented.replaceLast {last' : Segment}
    (hnumber : last'.number = last.number) (hvalid : last'.Valid encryption) :
    Segmented encryption (segs ++ [last']) :=
  h.init.snoc (hnumber ▸ h.lt_last) hvalid

theorem Segmented.concat {next : Segment}
    (hnumber : next.number = last.number + 1) (hvalid : next.Valid encryption) :
    Segmented encryption (segs ++ [last] ++ [next]) := by
  refine h.snoc (forall_mem_append.mpr ⟨fun seg hseg => ?_, ?_⟩) hvalid
  · have hlt := h.lt_last seg hseg
    omega
  · refine forall_mem_singleton.mpr ?_
    omega

theorem Segmented.valid_last : last.Valid encryption :=
  h.valid last (mem_append_right _ (mem_singleton.mpr rfl))

end

theorem WalInv.crash {s : WalRun} (h : WalInv crc32c encryption s) {fill : Nat}
    (hok : WalOk crc32c encryption s (.crash cut fill)) :
    WalInv crc32c encryption (crashed crc32c s cut fill) := by
  obtain ⟨_, phase, _⟩ := s
  obtain ⟨hdisk, hsegs⟩ := h
  simp only at hdisk hsegs
  cases hdisk with
  | empty => exact ⟨.empty trivial, hsegs⟩
  | mk segs last bytes hbytes =>
    simp only [WalOk, getLast?_append, getLast?_singleton, Option.some_or] at hok
    have hcrashed : crashed crc32c ⟨segs.map (·.file crc32c) ++ [⟨last.number, bytes⟩], phase,
        segs ++ [last]⟩ cut fill =
        ⟨segs.map (·.file crc32c) ++ [⟨last.number, damage bytes cut fill⟩], .down,
          segs ++ [last.cutTo crc32c (damage bytes cut fill)]⟩ := by
      simp [crashed]
    rw [hcrashed]
    refine ⟨.mk segs (last.cutTo crc32c (damage bytes cut fill)) (damage bytes cut fill)
      (hbytes.lastBytes.crash hok), ?_⟩
    exact hsegs.replaceLast rfl (hsegs.valid_last.cutTo _)

/-- The recovery of a directory gives out the records of its segments. -/
theorem OnDisk.recover
    (h : OnDisk crc32c phase segments dir) (hsegs : Segmented encryption segments) :
    ∃ out tail, Wal.recover crc32c encryption dir = some out ∧
      out.records = segments.flatMap (·.yields encryption) ∧ out.EndsWith tail ∧
      (tail.isSome = true ↔ WalRun.Tolerated crc32c ⟨dir, phase, segments⟩) ∧
      ∀ torn, tail = some torn → OnDisk crc32c (.recovered torn) segments dir := by
  cases h with
  | empty =>
    obtain ⟨out, hout, hrecords, hend⟩ : ∃ out, Wal.recover crc32c encryption [] = some out ∧
        out.records = [] ∧ out.EndsWith (some none) := recover_nil
    refine ⟨out, some none, hout, hrecords, hend, iff_of_true rfl trivial, fun torn ht => .empty ?_⟩
    exact (Option.some.inj ht).symm
  | mk segs last bytes hbytes =>
    obtain ⟨out, hout, hrecords, hend⟩ := recover_images hsegs.init.valid hsegs.valid_last
      hbytes.lastBytes
    refine ⟨out, _, hout, hrecords, hend, ?_, fun torn ht =>
      .mk segs last bytes ⟨hbytes.lastBytes, ht⟩⟩
    simp [WalRun.Tolerated]

theorem modify_last (h : ∀ seg ∈ segs, seg.number < number) (f : Bytes → Bytes) :
    WalDir.modify (segs.map (·.file crc32c) ++ [⟨number, bytes⟩]) number f =
      segs.map (·.file crc32c) ++ [⟨number, f bytes⟩] := by
  have hkeep : ∀ file ∈ segs.map (·.file crc32c), file.number ≠ number := by
    refine forall_mem_map.mpr fun seg hseg => ?_
    exact (h seg hseg).ne
  have hmap : (segs.map (·.file crc32c)).map (fun file : SegmentFile =>
      if file.number = number then { file with bytes := f file.bytes } else file) =
        segs.map (·.file crc32c) := by
    refine (map_congr_left fun file hfile => ?_).trans (map_id _)
    exact if_neg (hkeep file hfile)
  rw [WalDir.modify, map_append, hmap]
  simp

theorem setLen_append (bytes tail : Bytes) : setLen (bytes ++ tail) bytes.length = bytes := by
  simp [setLen]

theorem OnDisk.truncate {tail : TornTail} (h : OnDisk crc32c (.recovered (some tail)) segments dir)
    (hsegs : Segmented encryption segments) :
    OnDisk crc32c .clean segments (truncateTornTail dir tail) := by
  cases h with
  | empty hempty => cases hempty
  | mk segs last bytes hbytes =>
    obtain ⟨hlast, hending⟩ := hbytes
    have hclean : tail.segment = last.number ∧
        PhaseBytes crc32c last (setLen bytes tail.offset) .clean := by
      cases hlast with
      | tail =>
        rw [ending_image] at hending
        split at hending
        · cases hending
        · split at hending
          · cases hending
            exact ⟨rfl, .inl (setLen_append _ _)⟩
          · cases hending
      | header _ hnil htorn =>
        rw [ending_headerTorn htorn] at hending
        split at hending
        · cases hending
          exact ⟨rfl, .inr ⟨hnil, by simp [setLen]⟩⟩
        · cases hending
    rw [truncateTornTail, hclean.1, modify_last hsegs.lt_last]
    exact .mk segs last _ hclean.2

theorem OnDisk.whole
    (h : OnDisk crc32c (.recovered none) segments dir) : OnDisk crc32c .clean segments dir := by
  cases h with
  | empty => exact .empty trivial
  | mk segs last bytes hbytes =>
    obtain ⟨hlast, hending⟩ := hbytes
    refine .mk segs last bytes (.inl ?_)
    cases hlast with
    | tail =>
      rw [ending_image] at hending
      split at hending
      · rename_i hnil
        rw [hnil, append_nil]
      · split at hending <;> cases hending
    | header _ _ htorn =>
      rw [ending_headerTorn htorn] at hending
      split at hending <;> cases hending

/-! ### Opening the writer -/

theorem generationWalFormat_supported
    (h : generationWalFormat generation = .ok version) : Supported ⟨version⟩ := by
  unfold generationWalFormat at h
  split at h <;> cases h <;> decide

theorem size_le_image (seg : Segment) : size ≤ (seg.image crc32c).length := by
  rw [image, length_append, length_encode]
  omega

theorem take_image (seg : Segment) : (seg.image crc32c).take size = seg.header.encode := by
  rw [image, ← seg.header.length_encode, take_left]

/-- The format of a segment that lost its header is taken from the one before it. -/
theorem tornFormat_previous {previous : Segment}
    (hprevious : previous.Valid encryption) (file : SegmentFile) :
    tornFormat generation ((segs ++ [previous]).map (·.file crc32c) ++ [file]) =
      .ok (if previous.header.formatVersion = 9 ∨ previous.header.formatVersion = 10 then
        previous.header.formatVersion else currentWalFormatVersion) := by
  have hlong : ¬ (previous.image crc32c).length < size :=
    not_lt.mpr (size_le_image previous)
  rw [tornFormat, dropLast_concat, map_append, map_singleton, getLast?_concat]
  simp only [Segment.file, hlong, if_false, take_image, hprevious.supported.decode_encode]
  rfl

theorem tornFormat_supported (hsegs : ∀ seg ∈ segs, seg.Valid encryption)
    (h : tornFormat generation (segs.map (·.file crc32c) ++ [file]) = .ok version) :
    Supported ⟨version⟩ := by
  rcases eq_nil_or_concat segs with rfl | ⟨init, previous, rfl⟩
  · exact generationWalFormat_supported h
  · rw [concat_eq_append] at h hsegs
    have hprevious := hsegs previous (by simp)
    rw [tornFormat_previous hprevious] at h
    cases h
    by_cases hdelta : previous.header.formatVersion = 9 ∨ previous.header.formatVersion = 10
    · rw [if_pos hdelta]
      exact hprevious.supported
    · rw [if_neg hdelta]
      decide

theorem tornFormat_ok (hsegs : ∀ seg ∈ segs, seg.Valid encryption)
    (hgen : generationWalFormat generation = .ok version) (file : SegmentFile) :
    ∃ version', tornFormat generation (segs.map (·.file crc32c) ++ [file]) = .ok version' := by
  rcases eq_nil_or_concat segs with rfl | ⟨init, previous, rfl⟩
  · exact ⟨version, hgen⟩
  · rw [concat_eq_append] at hsegs ⊢
    exact ⟨_, tornFormat_previous (hsegs previous (by simp)) file⟩

theorem supported_current : Supported ⟨currentWalFormatVersion⟩ := by decide

theorem rewritten_header (header : SegmentHeader) :
    setLen (writeAt [] 0 header.encode) size = header.encode := by
  have hwrite : writeAt [] 0 header.encode = header.encode := writeAt_end [] header.encode
  have hlen := setLen_append header.encode []
  rw [append_nil, length_encode] at hlen
  rw [hwrite, hlen]

structure Reopened (crc32c : Bytes → UInt32) (encryption : Option WalEncryption) (phase : WalPhase)
    (segments segments' : List Segment) (dir' : WalDir) : Prop where
  disk : OnDisk crc32c phase segments' dir'
  segmented : Segmented encryption segments'
  yields : segments'.flatMap (·.yields encryption) = segments.flatMap (·.yields encryption)

theorem valid_nil (h : Supported ⟨version⟩) :
    Segment.Valid encryption ⟨number, ⟨version⟩, []⟩ :=
  ⟨h, by simp, by simp⟩

/-- The outcome of opening the writer: it stands on the records that were there, and so does
the directory of an open that failed. -/
def Opened (crc32c : Bytes → UInt32) (encryption : Option WalEncryption) (segments : List Segment)
    (dir : WalDir) : Except WalError SegmentWriter × WalDir → Prop
  | (.ok w, dir') => Reopened crc32c encryption (.running w) segments
      (reopened segments dir dir' w.formatVersion) dir'
  | (.error _, dir') => Reopened crc32c encryption .down segments
      (reopened segments dir dir' currentWalFormatVersion) dir'

theorem openDir_nil (generation : Option ManifestWalFormat) (maxBytes : Nat) :
    Opened crc32c encryption [] [] (openDir generation maxBytes []) := by
  have hsingle : ∀ seg : Segment, seg.Valid encryption → Segmented encryption [seg] := fun seg h =>
    ⟨by simpa using h, pairwise_singleton _ _⟩
  cases hgen : generationWalFormat generation with
  | error e =>
    have hopen : openDir generation maxBytes [] = (.error e, [⟨0, []⟩]) := by
      rw [openDir, getLast?_nil, hgen]
    rw [hopen]
    exact ⟨.mk [] ⟨0, ⟨currentWalFormatVersion⟩, []⟩ [] (lastBytes_nil rfl),
      hsingle _ (valid_nil supported_current), rfl⟩
  | ok version =>
    have hopen : openDir generation maxBytes [] =
        (.ok ⟨0, 0, maxBytes, version⟩, [⟨0, encode ⟨version⟩⟩]) := by
      rw [openDir, getLast?_nil, hgen]
    rw [hopen]
    refine ⟨.mk [] ⟨0, ⟨version⟩, []⟩ (encode ⟨version⟩) ⟨?_, rfl, ?_, rfl⟩,
      hsingle _ (valid_nil (generationWalFormat_supported hgen)), rfl⟩
    · simp [image]
    · simp

variable {file' : SegmentFile} {batch records : List WalRecord} {n : Nat} {a b tail : Bytes}

theorem reopened_same (hlong : ¬ file.bytes.length < size) (version : Nat) :
    reopened (segs ++ [last]) (dir ++ [file]) (dir ++ [file']) version = segs ++ [last] := by
  simp [reopened, hlong]

theorem reopened_header (hshort : file.bytes.length < size) (version : Nat) :
    reopened (segs ++ [last]) (dir ++ [file]) (dir ++ [file']) version =
      segs ++ [{ last with header := ⟨version⟩ }] := by
  simp [reopened, hshort]

theorem reopened_next (version : Nat) :
    reopened segs dir (dir ++ [file]) version = segs ++ [⟨file.number, ⟨version⟩, []⟩] := by
  simp [reopened]

theorem files_snoc (segs : List Segment) (last : Segment) : (segs ++ [last]).map (·.file crc32c) =
    segs.map (·.file crc32c) ++ [⟨last.number, last.image crc32c⟩] := by
  rw [map_append]
  rfl

theorem create_next {header : Bytes} (hsegs : Segmented encryption (segs ++ [last])) :
    WalDir.create (segs.map (·.file crc32c) ++ [⟨last.number, bytes⟩]) (last.number + 1) header =
      .ok (segs.map (·.file crc32c) ++ [⟨last.number, bytes⟩] ++ [⟨last.number + 1, header⟩]) := by
  refine if_neg ?_
  simp only [any_eq_true, mem_append, mem_map, mem_singleton, decide_eq_true_eq,
    not_exists, not_and]
  intro file hfile
  rcases hfile with ⟨seg, hseg, rfl⟩ | rfl
  · have hlt := hsegs.lt_last seg hseg
    show seg.number ≠ last.number + 1
    omega
  · exact (Nat.lt_succ_self _).ne

/-- The writer attaches to a whole last segment, or starts a new one behind a
segment of an older format. -/
theorem openDir_image (hsegs : Segmented encryption (segs ++ [last]))
    (generation : Option ManifestWalFormat) (maxBytes : Nat)
    (hdir : dir = segs.map (·.file crc32c) ++ [⟨last.number, last.image crc32c⟩]) :
    ∃ w dir', openDir generation maxBytes dir = (.ok w, dir') ∧
      Reopened crc32c encryption (.running w) (segs ++ [last])
        (reopened (segs ++ [last]) dir dir' w.formatVersion) dir' := by
  have hlong : ¬ (last.image crc32c).length < size :=
    not_lt.mpr (size_le_image last)
  have hheader := hsegs.valid_last.supported.decode_encode
  rw [openDir, hdir, getLast?_concat]
  simp only [hlong, if_false, take_image, hheader]
  by_cases hcurrent : last.header.formatVersion = currentWalFormatVersion ∨
      last.header.formatVersion = 9 ∨ last.header.formatVersion = 10
  · rw [if_pos hcurrent]
    refine ⟨_, _, rfl, ?_⟩
    rw [reopened_same hlong]
    refine ⟨.mk segs last _ ⟨rfl, rfl, ?_, rfl⟩, hsegs, rfl⟩
    show size + ((last.image crc32c).length - size) = _
    omega
  · rw [if_neg hcurrent, create_next hsegs]
    refine ⟨_, _, rfl, ?_⟩
    rw [reopened_next]
    rw [← files_snoc]
    refine ⟨.mk (segs ++ [last]) ⟨last.number + 1, ⟨currentWalFormatVersion⟩, []⟩ _
      ⟨?_, rfl, ?_, rfl⟩, hsegs.concat rfl (valid_nil supported_current), ?_⟩
    · simp [image]
    · simp
    · simp [yields]

theorem openDir_torn (hnil : last.records = [])
    (hsegs : Segmented encryption (segs ++ [last])) (generation : Option ManifestWalFormat)
    (maxBytes : Nat) (hdir : dir = segs.map (·.file crc32c) ++ [⟨last.number, []⟩]) :
    Opened crc32c encryption (segs ++ [last]) dir (openDir generation maxBytes dir) := by
  have hshort : ([] : Bytes).length < size := by decide
  have hvalid : ∀ version, Supported ⟨version⟩ →
      ({ last with header := ⟨version⟩ } : Segment).Valid encryption := fun version h =>
    ⟨h, hsegs.valid_last.fits, hsegs.valid_last.readable⟩
  have hyields : ∀ version, (segs ++ [({ last with header := ⟨version⟩ } : Segment)]).flatMap
      (·.yields encryption) = (segs ++ [last]).flatMap (·.yields encryption) := by
    intro version
    rw [flatMap_append, flatMap_append]
    rfl
  have hlast : dir.getLast? = some ⟨last.number, []⟩ := by rw [hdir, getLast?_concat]
  cases hformat : tornFormat generation dir with
  | error e =>
    have hopen : openDir generation maxBytes dir = (.error e, dir) := by
      simp only [openDir, hlast, if_pos hshort, hformat]
    rw [hopen]
    simp only [hdir, Opened]
    rw [reopened_header hshort]
    exact ⟨.mk segs { last with header := ⟨currentWalFormatVersion⟩ } [] (lastBytes_nil hnil),
      hsegs.replaceLast rfl (hvalid _ supported_current), hyields _⟩
  | ok version =>
    have hopen : openDir generation maxBytes dir =
        (.ok ⟨last.number, 0, maxBytes, version⟩, dir.modify last.number fun bytes =>
          setLen (writeAt bytes 0 (encode ⟨version⟩)) size) := by
      simp only [openDir, hlast, if_pos hshort, hformat]
    rw [hopen]
    rw [hdir] at hformat
    have hsupported := tornFormat_supported
      hsegs.init.valid hformat
    simp only [hdir, Opened]
    rw [modify_last hsegs.lt_last, reopened_header hshort]
    refine ⟨.mk segs { last with header := ⟨version⟩ } _ ⟨?_, rfl, ?_, rfl⟩,
      hsegs.replaceLast rfl (hvalid _ hsupported), hyields _⟩
    · simp only [rewritten_header, image, hnil, body_nil, append_nil]
    · rw [rewritten_header, length_encode]
      rfl

/-! ### Appending -/

theorem mapM_encodeToVec {records : List Bytes} : batch.mapM (·.encodeToVec crc32c) = .ok records ↔
      (∀ r ∈ batch, r.Fits) ∧ records = batch.map (·.encoded crc32c) := by
  induction batch generalizing records with
  | nil => simp [pure, Except.pure, eq_comm]
  | cons r _ ih =>
    have hr : ∀ bytes, r.encodeToVec crc32c = .ok bytes ↔ r.Fits ∧ r.encoded crc32c = bytes := by
      intro bytes
      rw [encodeToVec, WalRecord.Fits]
      split
      · simp only [reduceCtorEq, false_iff, not_and]
        omega
      · simp only [Except.ok.injEq, iff_and_self]
        omega
    rw [mapM_cons]
    simp only [bind_eq_ok, pure_eq_ok, hr, ih, forall_mem_cons, map_cons]
    constructor
    · rintro ⟨_, ⟨hfits, rfl⟩, _, ⟨hall, rfl⟩, rfl⟩
      exact ⟨⟨hfits, hall⟩, rfl⟩
    · rintro ⟨⟨hfits, hall⟩, rfl⟩
      exact ⟨_, ⟨hfits, rfl⟩, _, ⟨hall, rfl⟩, rfl⟩

theorem flatten_encoded (batch : List WalRecord) :
    (batch.map (·.encoded crc32c)).flatten = body crc32c batch :=
  flatMap_def.symm

theorem body_eq_nil (h : body crc32c batch = []) : batch = [] := by
  cases batch with
  | nil => rfl
  | cons r => exact absurd h (encoded_ne_nil r _)

structure Appended (crc32c : Bytes → UInt32) (encryption : Option WalEncryption)
    (w w' : SegmentWriter) (batch : List WalRecord) (segments segments' : List Segment)
    (dir' : WalDir) : Prop where
  disk : OnDisk crc32c (.running w') segments' dir'
  segmented : Segmented encryption segments'
  yields : segments'.flatMap (·.yields encryption) = segments.flatMap (·.yields encryption) ++
    batch.map (yielded encryption (w.landingSegmentFor (body crc32c batch).length))

def Appends (crc32c : Bytes → UInt32) (encryption : Option WalEncryption) (w : SegmentWriter)
    (batch : List WalRecord) (segments : List Segment) (dir : WalDir) : Prop :=
  ∃ w' dir', w.append dir (body crc32c batch) = .ok (w', dir') ∧
    Appended crc32c encryption w w' batch segments (appended segments w w' batch) dir'

def Segment.extend (seg : Segment) (batch : List WalRecord) : Segment :=
  { seg with records := seg.records ++ batch }

theorem write_last (hsegs : ∀ seg ∈ segs, seg.number < last.number)
    (hlast : PhaseBytes crc32c last (last.image crc32c) (.running w)) (batch : List WalRecord) :
    w.write ((segs ++ [last]).map (·.file crc32c)) (body crc32c batch) =
      ({ w with currentBytes := w.currentBytes + (body crc32c batch).length },
        (segs ++ [last.extend batch]).map (·.file crc32c)) := by
  obtain ⟨-, hseg, hlen, -⟩ := hlast
  have himage : (last.extend batch).image crc32c = last.image crc32c ++ body crc32c batch := by
    rw [image, image, extend, body_append, append_assoc]
  rw [files_snoc, files_snoc, write, hseg, modify_last hsegs, hlen, writeAt_end, himage]
  rfl

theorem running_write
    (hlast : PhaseBytes crc32c last (last.image crc32c) (.running w)) (batch : List WalRecord) :
    PhaseBytes crc32c (last.extend batch) ((last.extend batch).image crc32c)
      (.running { w with currentBytes := w.currentBytes + (body crc32c batch).length }) := by
  obtain ⟨-, hseg, hlen, hversion⟩ := hlast
  refine ⟨rfl, hseg, ?_, hversion⟩
  simp only [image, extend, length_append, length_encode, body_append] at hlen ⊢
  omega

theorem Segmented.extend (h : Segmented encryption (segs ++ [last])) (hfits : ∀ r ∈ batch, r.Fits)
    (hread : ∀ r ∈ batch, (decryptRecord encryption last.number r).isOk = true) :
    Segmented encryption (segs ++ [last.extend batch]) := by
  refine h.replaceLast rfl ⟨h.valid_last.supported, ?_, ?_⟩
  · exact forall_mem_append.mpr ⟨h.valid_last.fits, hfits⟩
  · exact forall_mem_append.mpr ⟨h.valid_last.readable, hread⟩

theorem yields_extend (segs : List Segment) (last : Segment) (batch : List WalRecord) :
    (segs ++ [last.extend batch]).flatMap (·.yields encryption) =
      (segs ++ [last]).flatMap (·.yields encryption) ++
        batch.map (yielded encryption last.number) := by
  simp [yields, extend]

section
variable {last : Segment} (hlast : PhaseBytes crc32c last (last.image crc32c) (.running w))
  (hsegs : Segmented encryption (segs ++ [last])) (hfits : ∀ r ∈ batch, r.Fits)
  (hbody : (body crc32c batch).isEmpty = false)
include hlast hsegs hfits hbody

theorem append_extends (hread : ∀ r ∈ batch, (decryptRecord encryption last.number r).isOk = true)
    (hrot : w.rotates (body crc32c batch).length = false) :
    Appends crc32c encryption w batch (segs ++ [last]) ((segs ++ [last]).map (·.file crc32c)) := by
  have hlanding : w.landingSegmentFor (body crc32c batch).length = last.number := by
    rw [landingSegmentFor, hrot, if_neg (by simp), hlast.2.1]
  refine ⟨{ w with currentBytes := w.currentBytes + (body crc32c batch).length },
    (segs ++ [last.extend batch]).map (·.file crc32c), ?_, ?_⟩
  · rw [append, hbody, if_neg (by simp), hrot, if_neg (by simp), write_last hsegs.lt_last hlast]
  · rw [appended, if_pos rfl, modifyLast_concat, files_snoc]
    refine ⟨.mk segs _ _ (running_write hlast batch), hsegs.extend hfits hread, ?_⟩
    rw [hlanding]
    exact yields_extend segs last batch

theorem append_rotates
    (hread : ∀ r ∈ batch, (decryptRecord encryption (last.number + 1) r).isOk = true)
    (hrot : w.rotates (body crc32c batch).length = true) :
    Appends crc32c encryption w batch (segs ++ [last]) ((segs ++ [last]).map (·.file crc32c)) := by
  obtain ⟨-, hseg, -, hversion⟩ := hlast
  -- the new segment, before the batch is written to it
  let next : Segment := ⟨last.number + 1, ⟨w.formatVersion⟩, []⟩
  let rotated : SegmentWriter := { w with currentSeg := w.currentSeg + 1, currentBytes := 0 }
  have hsupported : next.header.Supported := by
    show Supported ⟨w.formatVersion⟩
    rw [hversion]
    exact hsegs.valid_last.supported
  have hsegs' : Segmented encryption (segs ++ [last] ++ [next]) :=
    hsegs.concat rfl (valid_nil hsupported)
  have hnext : PhaseBytes crc32c next (next.image crc32c) (.running rotated) := by
    refine ⟨rfl, ?_, ?_, rfl⟩
    · show w.currentSeg + 1 = last.number + 1
      rw [hseg]
    · simp [rotated, next, image]
  have hrotate : w.rotate ((segs ++ [last]).map (·.file crc32c)) =
      .ok (rotated, (segs ++ [last] ++ [next]).map (·.file crc32c)) := by
    have himage : encode ⟨w.formatVersion⟩ = next.image crc32c := by
      simp [next, image]
    rw [files_snoc (segs ++ [last]), files_snoc, SegmentWriter.rotate, hseg, create_next hsegs,
      himage]
    simp only [rotated, hseg]
    rfl
  have hlanding : w.landingSegmentFor (body crc32c batch).length = next.number := by
    rw [SegmentWriter.landingSegmentFor, if_pos hrot, hseg]
  have hsegments : appended (segs ++ [last]) w
      { rotated with currentBytes := rotated.currentBytes + (body crc32c batch).length } batch =
        segs ++ [last] ++ [next.extend batch] := by
    rw [appended, if_neg (by simp [rotated])]
    simp [rotated, next, extend, hseg]
  refine ⟨{ rotated with currentBytes := rotated.currentBytes + (body crc32c batch).length },
    (segs ++ [last] ++ [next.extend batch]).map (·.file crc32c), ?_, ?_⟩
  · rw [SegmentWriter.append, hbody, if_neg (by simp), if_pos hrot, hrotate]
    exact congrArg Except.ok (write_last hsegs'.lt_last hnext batch)
  · rw [hsegments, files_snoc]
    refine ⟨.mk (segs ++ [last]) _ _ (running_write hnext batch), hsegs'.extend hfits hread, ?_⟩
    rw [hlanding, yields_extend]
    simp [next, yields]

end

/-- An append never fails; it extends the last segment or starts the next one. -/
theorem OnDisk.append
    (h : OnDisk crc32c (.running w) segments dir) (hsegs : Segmented encryption segments)
    (hfits : ∀ r ∈ batch, r.Fits) (hread : ∀ r ∈ batch, (decryptRecord encryption
      (w.landingSegmentFor (body crc32c batch).length) r).isOk = true) :
    Appends crc32c encryption w batch segments dir := by
  cases h with
  | empty hempty => cases hempty
  | mk segs last _ hbytes =>
    obtain ⟨rfl, hseg, hlen, hversion⟩ := hbytes
    have hlast : PhaseBytes crc32c last (last.image crc32c) (.running w) :=
      ⟨rfl, hseg, hlen, hversion⟩
    by_cases hne : batch = []
    · subst hne
      refine ⟨w, _, rfl, ?_⟩
      rw [appended, if_pos rfl, modifyLast_concat]
      simp only [append_nil]
      exact ⟨.mk segs last _ hlast, hsegs, by simp⟩
    · have hbody : (body crc32c batch).isEmpty = false := by
        rw [isEmpty_eq_false_iff]
        exact fun hnil => hne (body_eq_nil hnil)
      rw [← files_snoc]
      cases hrot : w.rotates (body crc32c batch).length with
      | true =>
        rw [landingSegmentFor, if_pos hrot, hseg] at hread
        exact append_rotates hlast hsegs hfits hbody hread hrot
      | false =>
        rw [landingSegmentFor, hrot, if_neg (by simp), hseg] at hread
        exact append_extends hlast hsegs hfits hbody hread hrot

/-! ### Plain cuts -/

/-- The records that end within the first `n` bytes. -/
def beforeCut : Nat → List WalRecord → List WalRecord
  | _, [] => []
  | n, r :: rest => if r.encodedLen ≤ n then r :: beforeCut (n - r.encodedLen) rest else []

theorem wholeIn_zeros (hfits : ∀ r ∈ records, r.Fits) (n : Nat) :
    wholeIn crc32c (replicate n 0) records = [] := by
  cases records with
  | nil => rfl
  | cons r =>
    refine if_neg ?_
    rintro ⟨tail, htail⟩
    have hlength := field_length crc32c tail (hfits r mem_cons_self)
    rw [htail, field, drop_replicate, take_replicate, leValue_replicate_zero,
      encodedLen, headerSize] at hlength
    omega

theorem damage_append_of_le (h : a.length ≤ cut) (fill : Nat) :
    damage (a ++ b) cut fill = a ++ damage b (cut - a.length) fill := by
  rw [damage, take_append, take_of_length_le h, append_assoc, damage]

theorem damage_append_of_lt (h : cut < a.length) (fill : Nat) :
    damage (a ++ b) cut fill = a.take cut ++ replicate fill 0 := by
  rw [damage, take_append_of_le_length h.le]

/-- The records that survive a crash: those before the cut, and at most one more
whose missing bytes are the zeros that the crash left. -/
theorem wholeIn_damage (hfits : ∀ r ∈ records, r.Fits) (tail : Bytes) (cut fill : Nat) :
    ∃ restored, wholeIn crc32c (damage (body crc32c records ++ tail) cut fill) records =
        beforeCut cut records ++ restored ∧ restored.length ≤ 1 ∧ (fill = 0 → restored = []) := by
  induction records generalizing cut with
  | nil => exact ⟨[], rfl, by simp, fun _ => rfl⟩
  | cons r _ ih =>
    rw [body_cons, append_assoc, wholeIn, beforeCut]
    rcases lt_or_ge cut (r.encoded crc32c).length with hlt | hle
    · rw [damage_append_of_lt hlt, if_neg (not_le.mpr (length_encoded crc32c r ▸ hlt))]
      by_cases hwhole : r.encoded crc32c <+: (r.encoded crc32c).take cut ++ replicate fill 0
      · have hzeros : ((r.encoded crc32c).take cut ++ replicate fill 0).drop r.encodedLen =
            replicate (fill - (r.encodedLen - cut)) 0 := by
          have hlen : ((r.encoded crc32c).take cut).length = cut := by
            rw [length_take, min_eq_left hlt.le]
          rw [length_encoded] at hlt
          rw [drop_append, hlen, drop_eq_nil_of_le (by omega), nil_append, drop_replicate]
        rw [if_pos hwhole, hzeros, wholeIn_zeros fun x hx => hfits x (mem_cons_of_mem _ hx)]
        refine ⟨[r], rfl, by simp, fun hfill => ?_⟩
        -- without a fill there are not enough bytes
        have hlen := hwhole.length_le
        rw [hfill, length_append, length_take, length_replicate] at hlen
        omega
      · rw [if_neg hwhole]
        exact ⟨[], rfl, by simp, fun _ => rfl⟩
    · rw [damage_append_of_le hle, if_pos (prefix_append _ _),
        if_pos (length_encoded crc32c r ▸ hle), ← length_encoded crc32c r,
        drop_left]
      obtain ⟨restored, hwhole, hlen, hplain⟩ :=
        ih (fun x hx => hfits x (mem_cons_of_mem _ hx)) (cut - (r.encoded crc32c).length)
      exact ⟨restored, by rw [hwhole, cons_append], hlen, hplain⟩

def Quiet (tail : Bytes) : Prop := tail = [] ∨ Torn tail

theorem field_take (h : headerSize ≤ n) : field (bytes.take n) 4 4 = field bytes 4 4 := by
  unfold headerSize at h
  rw [field, drop_take, take_take, min_eq_left (by omega), field]

theorem Quiet.take (h : Quiet tail) (n : Nat) : Quiet (tail.take n) := by
  rcases lt_or_ge (tail.take n).length headerSize with hshort | hlong
  · exact .inr (.inl hshort)
  · rw [length_take] at hlong
    have hfield : field (tail.take n) 4 4 = field tail 4 4 :=
      field_take (by omega)
    rcases h with hnil | h | h | h
    · rw [hnil, take_nil]
      exact .inl rfl
    · omega
    · exact .inr (.inr (.inl (hfield.trans h)))
    · refine .inr (.inr (.inr ?_))
      rw [hfield, length_take]
      omega

theorem torn_cut {r : WalRecord} (hfits : r.Fits) (h : n < r.encodedLen) :
    Torn ((r.encoded crc32c).take n) := by
  rcases lt_or_ge n headerSize with hshort | hlong
  · refine .inl ?_
    rw [length_take]
    omega
  · have hlength := field_length crc32c [] hfits
    rw [append_nil] at hlength
    refine .inr (.inr ?_)
    rw [field_take hlong, hlength, length_take, length_encoded]
    omega

variable (crc32c) in
theorem quiet_of_cut (hfits : ∀ r ∈ records, r.Fits) (htail : Quiet tail) (cut : Nat) :
    Quiet (((body crc32c records ++ tail).take cut).drop
      (body crc32c (wholeIn crc32c ((body crc32c records ++ tail).take cut) records)).length) := by
  induction records generalizing cut with
  | nil => exact htail.take cut
  | cons r _ ih =>
    rw [body_cons, append_assoc]
    rcases Nat.lt_or_ge cut (r.encoded crc32c).length with hlt | hle
    · have hnot : ¬ r.encoded crc32c <+: (r.encoded crc32c).take cut := by
        intro hprefix
        have hlen := hprefix.length_le
        rw [length_take] at hlen
        omega
      rw [take_append_of_le_length hlt.le, wholeIn, if_neg hnot]
      rw [length_encoded] at hlt
      exact .inr (torn_cut (hfits r mem_cons_self) hlt)
    · rw [take_append, take_of_length_le hle, wholeIn,
        if_pos (prefix_append _ _), body_cons, ← length_encoded crc32c r,
        drop_left, length_append, drop_append, drop_eq_nil_of_le (by omega),
        nil_append, Nat.add_sub_cancel_left]
      exact ih (fun x hx => hfits x (mem_cons_of_mem _ hx)) _

theorem ending_isSome_image :
    (ending crc32c seg (seg.image crc32c ++ tail)).isSome = true ↔ Quiet tail := by
  rw [ending_image]
  by_cases hnil : tail = []
  · simp [hnil, Quiet]
  · by_cases htorn : Torn tail
    · simp [hnil, htorn, Quiet]
    · simp [hnil, htorn, Quiet]

theorem ending_of_cut (h : LastBytes crc32c seg bytes)
    (hvalid : seg.Valid encryption) (hend : (ending crc32c seg bytes).isSome = true) (cut : Nat) :
    (ending crc32c (seg.cutTo crc32c (bytes.take cut)) (bytes.take cut)).isSome = true := by
  by_cases hheader : seg.header.encode <+: bytes.take cut
  · cases h with
    | header _ _ htorn => exact absurd (hheader.trans ( take_prefix _ _)) htorn.1
    | tail tail =>
      have hcut : seg.header.encode.length ≤ cut := by
        have hlen := hheader.length_le
        rw [length_take] at hlen
        omega
      have hbytes : (seg.image crc32c ++ tail).take cut = seg.header.encode ++
          (body crc32c seg.records ++ tail).take (cut - seg.header.encode.length) := by
        rw [image, append_assoc, take_append, take_of_length_le hcut]
      rw [hbytes]
      have hquiet := quiet_of_cut crc32c hvalid.fits (ending_isSome_image.mp hend)
        (cut - seg.header.encode.length)
      have himage := image_cutTo crc32c seg
        ((body crc32c seg.records ++ tail).take (cut - seg.header.encode.length))
      generalize seg.cutTo crc32c (seg.header.encode ++ _) = after at himage ⊢
      rw [himage]
      exact ending_isSome_image.mpr hquiet
  · have hshort : (bytes.take cut).length < size := by
      cases h with
      | header _ _ htorn =>
        rw [ending_headerTorn htorn] at hend
        split at hend
        · rw [length_take]
          omega
        · cases hend
      | tail =>
        rw [← seg.header.length_encode]
        by_contra hlong
        refine hheader ?_
        rw [length_take] at hlong
        rw [image, append_assoc, take_append, take_of_length_le (by omega)]
        exact prefix_append _ _
    have hsame : (seg.cutTo crc32c (bytes.take cut)).header = seg.header := rfl
    rw [ending, hsame, if_neg hheader, if_pos hshort]
    rfl

end

/-! ## Whole runs -/

open WalRun

section
variable {crc32c : Bytes → UInt32} {encryption : Option WalEncryption}
  {generation : Option ManifestWalFormat} {s s' : WalRun}

variable {batch : List WalRecord} {segments start : List Segment} {dir : WalDir}
  {maxBytes version : Nat}

theorem step_append (h : s.step crc32c encryption generation (.append batch) = some s') :
    ∃ w w' dir, s.phase = .running w ∧ (∀ r ∈ batch, r.Fits) ∧
      w.append s.dir (body crc32c batch) = .ok (w', dir) ∧
      s' = ⟨dir, .running w', appended s.segments w w' batch⟩ := by
  simp only [step] at h
  split at h
  · rename_i w records hphase hrecords
    obtain ⟨hfits, rfl⟩ := mapM_encodeToVec.mp hrecords
    rw [flatten_encoded] at h
    split at h
    · rename_i w' dir happend
      cases h
      exact ⟨w, w', dir, hphase, hfits, happend, rfl⟩
    · cases h
  · cases h

theorem step_recover (h : s.step crc32c encryption generation .recover = some s') :
    ∃ records r, s.phase = .down ∧ recover crc32c encryption s.dir = some ⟨records, .ok r⟩ ∧
      s' = { s with phase := .recovered r.tornTail } := by
  simp only [step] at h
  split at h
  · rename_i records r hphase hrecover
    cases h
    exact ⟨records, r, hphase, hrecover, rfl⟩
  · cases h

theorem step_truncate (h : s.step crc32c encryption generation .truncate = some s') :
    (∃ tail, s.phase = .recovered (some tail) ∧
      s' = { s with dir := truncateTornTail s.dir tail, phase := .clean }) ∨
    (s.phase = .recovered none ∧ s' = { s with phase := .clean }) := by
  simp only [step] at h
  split at h
  · rename_i tail hphase
    cases h
    exact .inl ⟨tail, hphase, rfl⟩
  · rename_i hphase
    cases h
    exact .inr ⟨hphase, rfl⟩
  · cases h

/-- Opening the writer on a clean directory leaves a writer on the same records,
or an error and the same records. -/
theorem OnDisk.openWriter
    (h : OnDisk crc32c .clean segments dir) (hsegs : Segmented encryption segments)
    (generation : Option ManifestWalFormat) (maxBytes : Nat) :
    Opened crc32c encryption segments dir (openDir generation maxBytes dir) := by
  cases h with
  | empty => exact openDir_nil generation maxBytes
  | mk _ _ _ hbytes =>
    rcases hbytes with rfl | ⟨hnil, rfl⟩
    · obtain ⟨_, _, hopen, hreopened⟩ := openDir_image hsegs generation maxBytes rfl
      rw [hopen]
      exact hreopened
    · exact openDir_torn hnil hsegs generation maxBytes rfl

section
variable (hinv : WalInv crc32c encryption s)
include hinv

theorem step_openWriter (h : s.step crc32c encryption generation (.openWriter maxBytes) = some s') :
    WalInv crc32c encryption s' ∧ s'.logged encryption = s.logged encryption := by
  simp only [step] at h
  split at h
  · rename_i hphase
    have hdisk := hinv.disk
    rw [hphase] at hdisk
    have hopen := hdisk.openWriter hinv.segmented generation maxBytes
    split at h
    · cases h
    · split at h
      · rename_i w dir heq
        rw [heq] at hopen
        cases h
        exact ⟨⟨hopen.disk, hopen.segmented⟩, hopen.yields⟩
      · rename_i e dir heq
        rw [heq] at hopen
        cases h
        exact ⟨⟨hopen.disk, hopen.segmented⟩, hopen.yields⟩
  · cases h

theorem WalInv.append (hok : WalOk crc32c encryption s (.append batch))
    (h : s.step crc32c encryption generation (.append batch) = some s') :
    ∃ w w', s.phase = .running w ∧
      Appended crc32c encryption w w' batch s.segments s'.segments s'.dir ∧
      s'.phase = .running w' := by
  obtain ⟨w, w', _, hphase, hfits, happend, rfl⟩ := step_append h
  have hdisk := hinv.disk
  rw [hphase] at hdisk
  simp only [WalOk, hphase] at hok
  obtain ⟨_, _, happend2, happended⟩ := hdisk.append hinv.segmented hfits hok
  rw [happend] at happend2
  cases happend2
  exact ⟨w, w', hphase, happended, rfl⟩

theorem WalInv.step {a : WalAction}
    (hok : WalOk crc32c encryption s a) (h : s.step crc32c encryption generation a = some s') :
    WalInv crc32c encryption s' := by
  cases a with
  | append =>
    obtain ⟨_, _, -, happended, hphase⟩ := hinv.append hok h
    exact ⟨hphase ▸ happended.disk, happended.segmented⟩
  | crash =>
    cases h
    exact hinv.crash hok
  | recover =>
    obtain ⟨_, _, hphase, hrecover, rfl⟩ := step_recover h
    obtain ⟨_, tail, hout, -, hend, -, hdisk⟩ := hinv.disk.recover hinv.segmented
    rw [hrecover] at hout
    cases hout
    cases tail with
    | none => cases hend.choose_spec
    | some =>
      obtain ⟨_, hr', rfl⟩ := hend
      cases hr'
      exact ⟨hdisk _ rfl, hinv.segmented⟩
  | truncate =>
    have hdisk := hinv.disk
    rcases step_truncate h with ⟨tail, hphase, rfl⟩ | ⟨hphase, rfl⟩ <;> rw [hphase] at hdisk
    · exact ⟨hdisk.truncate hinv.segmented, hinv.segmented⟩
    · exact ⟨hdisk.whole, hinv.segmented⟩
  | openWriter => exact (step_openWriter hinv h).1

end

theorem walInv_init (h : Segmented encryption start) :
    WalInv crc32c encryption (walSystem crc32c encryption generation start).init := by
  refine ⟨?_, h⟩
  show OnDisk crc32c .down start (start.map (·.file crc32c))
  rcases eq_nil_or_concat start with rfl | ⟨segs, last, rfl⟩
  · exact .empty trivial
  · rw [concat_eq_append, map_append]
    exact .mk segs last _ (lastBytes_image last)

theorem walInv_of_reach (hstart : Segmented encryption start)
    (h : System.Reach (walSystem crc32c encryption generation start) (WalOk crc32c encryption) s) :
    WalInv crc32c encryption s :=
  h.invariant (walInv_init hstart) fun _ _ _ hinv hok hs => hinv.step hok hs

def WalRun.loggedBefore (encryption : Option WalEncryption) (s : WalRun) (cut : Nat) :
    List WalRecord :=
  (modifyLast (fun seg : Segment =>
    { seg with records := beforeCut (cut - SegmentHeader.size) seg.records })
      s.segments).flatMap (·.yields encryption)

theorem beforeCut_zero (records : List WalRecord) : beforeCut 0 records = [] := by
  cases records with
  | nil => rfl
  | cons =>
    refine if_neg ?_
    rw [encodedLen, headerSize]
    omega

theorem cutTo_damage {seg : Segment} (h : LastBytes crc32c seg bytes)
    (hvalid : seg.Valid encryption) (cut fill : Nat) :
    ∃ restored, (seg.cutTo crc32c (damage bytes cut fill)).records =
        beforeCut (cut - size) seg.records ++ restored ∧
      restored.length ≤ 1 ∧ (fill = 0 → restored = []) := by
  cases h with
  | header bytes hnil =>
    have hcut : (seg.cutTo crc32c (damage bytes cut fill)).records = [] := by
      have hsub : (seg.cutTo crc32c (damage bytes cut fill)).records.Sublist seg.records :=
        seg.cutTo_sublist _
      rw [hnil] at hsub
      exact sublist_nil.mp hsub
    exact ⟨[], by rw [hcut, hnil]; rfl, by simp, fun _ => rfl⟩
  | tail tail =>
    rcases Nat.lt_or_ge cut seg.header.encode.length with hlt | hle
    · -- the header is cut; zeros may still complete it, but no record after it
      have hbytes : damage (seg.image crc32c ++ tail) cut fill =
          seg.header.encode.take cut ++ replicate fill 0 := by
        rw [image, append_assoc, damage_append_of_lt hlt]
      have hzeros : (damage (seg.image crc32c ++ tail) cut fill).drop size =
          replicate (fill - (size - cut)) 0 := by
        have hlen : (seg.header.encode.take cut).length = cut := by
          rw [length_take, Nat.min_eq_left hlt.le]
        rw [length_encode] at hlt
        rw [hbytes, drop_append, hlen, drop_eq_nil_of_le (by omega), nil_append, drop_replicate]
      have hcut : (seg.cutTo crc32c (damage (seg.image crc32c ++ tail) cut fill)).records = [] := by
        unfold cutTo
        simp only
        rw [hzeros, wholeIn_zeros hvalid.fits, ite_self]
      rw [length_encode] at hlt
      refine ⟨[], ?_, by simp, fun _ => rfl⟩
      rw [hcut, Nat.sub_eq_zero_of_le hlt.le, beforeCut_zero]
      rfl
    · have hbytes : damage (seg.image crc32c ++ tail) cut fill = seg.header.encode ++
          damage (body crc32c seg.records ++ tail) (cut - seg.header.encode.length) fill := by
        rw [image, append_assoc, damage_append_of_le hle]
      rw [hbytes, cutTo_header, ← seg.header.length_encode]
      exact wholeIn_damage hvalid.fits tail _ fill

/-- What a state of a run promises. `reads` is the recovery itself; the other
fields say what the records of the run are after each step. -/
structure RecoversExactly (crc32c : Bytes → UInt32) (encryption : Option WalEncryption)
    (generation : Option ManifestWalFormat) (s : WalRun) : Prop where
  /-- A recovery yields exactly the records of the run, and ends without an error
  exactly when the damage is tolerated. -/
  reads : ∃ out, recover crc32c encryption s.dir = some out ∧ out.records = s.logged encryption ∧
    (out.result.isOk = true ↔ s.Tolerated crc32c)
  /-- An append adds its batch behind all records. -/
  appends : ∀ w batch, s.phase = .running w → (∀ r ∈ batch, r.Fits) →
    WalOk crc32c encryption s (.append batch) →
      ∃ s', s.step crc32c encryption generation (.append batch) = some s' ∧
        s'.logged encryption = s.logged encryption ++
          batch.map (yielded encryption (w.landingSegmentFor (body crc32c batch).length))
  /-- A crash keeps the records that end before the cut, and at most one more that
  the zero fill completes. -/
  crashes : ∀ cut fill, ∃ restored, (crashed crc32c s cut fill).logged encryption =
      s.loggedBefore encryption cut ++ restored ∧ restored.length ≤ 1 ∧
      (fill = 0 → restored = [])
  /-- A plain cut is tolerated, and needs nothing of the checksum. -/
  cuts : s.Tolerated crc32c → ∀ cut, WalOk crc32c encryption s (.crash cut 0) ∧
    (crashed crc32c s cut 0).Tolerated crc32c
  /-- After a tolerated crash the process comes up again on the same records. -/
  restarts : s.phase = .down → s.Tolerated crc32c → ∀ version,
    generationWalFormat generation = .ok version → ∀ maxBytes, 0 < maxBytes →
      ∃ s₁ s₂ s₃ w, s.step crc32c encryption generation .recover = some s₁ ∧
        s₁.step crc32c encryption generation .truncate = some s₂ ∧
        s₂.step crc32c encryption generation (.openWriter maxBytes) = some s₃ ∧
        s₃.phase = .running w ∧ s₃.logged encryption = s.logged encryption

section
variable (h : WalInv crc32c encryption s)
include h

theorem WalInv.reads :
    ∃ out, recover crc32c encryption s.dir = some out ∧ out.records = s.logged encryption ∧
      (out.result.isOk = true ↔ s.Tolerated crc32c) := by
  obtain ⟨out, tail, hout, hrecords, hend, htol, -⟩ := h.disk.recover h.segmented
  refine ⟨out, hout, hrecords, .trans ?_ htol⟩
  cases tail with
  | none =>
    obtain ⟨_, he⟩ := hend
    rw [he]
    exact iff_of_false (by simp [Except.isOk, Except.toBool]) (by simp)
  | some =>
    obtain ⟨_, hr, -⟩ := hend
    rw [hr]
    exact iff_of_true rfl rfl

theorem WalInv.appends {w : SegmentWriter}
    (hphase : s.phase = .running w) (hfits : ∀ r ∈ batch, r.Fits)
    (hok : WalOk crc32c encryption s (.append batch)) :
    ∃ s', s.step crc32c encryption generation (.append batch) = some s' ∧
      s'.logged encryption = s.logged encryption ++
        batch.map (yielded encryption (w.landingSegmentFor (body crc32c batch).length)) := by
  have hdisk := h.disk
  rw [hphase] at hdisk
  simp only [WalOk, hphase] at hok
  obtain ⟨w', dir', happend, happended⟩ := hdisk.append h.segmented hfits hok
  have hrecords : batch.mapM (·.encodeToVec crc32c) = .ok _ := mapM_encodeToVec.mpr ⟨hfits, rfl⟩
  refine ⟨⟨dir', .running w', appended s.segments w w' batch⟩, ?_, happended.yields⟩
  simp only [WalRun.step, hphase, hrecords, flatten_encoded, happend]

theorem WalInv.crashes (cut fill : Nat) :
    ∃ restored, (crashed crc32c s cut fill).logged encryption =
        s.loggedBefore encryption cut ++ restored ∧ restored.length ≤ 1 ∧
        (fill = 0 → restored = []) := by
  obtain ⟨_, _, _⟩ := s
  obtain ⟨hdisk, hsegs⟩ := h
  simp only at hdisk hsegs
  cases hdisk with
  | empty => exact ⟨[], rfl, by simp, fun _ => rfl⟩
  | mk _ last bytes hbytes =>
    obtain ⟨restored, hrecords, hlen, hplain⟩ :=
      cutTo_damage hbytes.lastBytes hsegs.valid_last cut fill
    refine ⟨restored.map (yielded encryption last.number), ?_, by simpa using hlen,
      fun hfill => by rw [hplain hfill, map_nil]⟩
    have hnumber : (last.cutTo crc32c (damage bytes cut fill)).number = last.number := rfl
    simp [crashed, logged, loggedBefore, yields, hrecords, hnumber]

theorem WalInv.cuts (htol : s.Tolerated crc32c) (cut : Nat) :
    WalOk crc32c encryption s (.crash cut 0) ∧ (crashed crc32c s cut 0).Tolerated crc32c := by
  obtain ⟨_, _, _⟩ := s
  obtain ⟨hdisk, hsegs⟩ := h
  simp only at hdisk hsegs
  cases hdisk with
  | empty => exact ⟨trivial, trivial⟩
  | mk _ last bytes hbytes =>
    simp only [WalRun.Tolerated, getLast?_concat] at htol
    have hplain : damage bytes cut 0 = bytes.take cut := by
      rw [damage, replicate_zero, append_nil]
    have hend := ending_of_cut hbytes.lastBytes hsegs.valid_last htol cut
    simp only [WalOk, crashed, WalRun.Tolerated, getLast?_concat, modifyLast_concat, hplain]
    refine ⟨fun hheader => ?_, hend⟩
    obtain ⟨rest, hrest⟩ := hheader
    rw [← hrest] at hend ⊢
    have himage := image_cutTo crc32c last rest
    generalize last.cutTo crc32c (last.header.encode ++ rest) = after at himage hend ⊢
    rw [himage] at hend ⊢
    rw [drop_left]
    rcases ending_isSome_image.mp hend with hnil | htorn
    · rw [hnil]
      exact not_passes_of_torn torn_nil
    · exact not_passes_of_torn htorn

end

theorem OnDisk.openDir_ok
    (h : OnDisk crc32c .clean segments dir) (hsegs : Segmented encryption segments)
    (hgen : generationWalFormat generation = .ok version) (maxBytes : Nat) :
    ∃ w dir', openDir generation maxBytes dir = (.ok w, dir') := by
  cases h with
  | empty => exact ⟨_, _, by rw [openDir, getLast?_nil, hgen]⟩
  | mk segs last _ hbytes =>
    rcases hbytes with rfl | ⟨-, rfl⟩
    · obtain ⟨w, dir', hopen, -⟩ := openDir_image hsegs generation maxBytes rfl
      exact ⟨w, dir', hopen⟩
    · obtain ⟨version', hformat⟩ : ∃ version', tornFormat generation
          (segs.map (·.file crc32c) ++ [⟨last.number, []⟩]) = .ok version' :=
        tornFormat_ok hsegs.init.valid hgen _
      have hshort : ([] : Bytes).length < size := by decide
      rw [openDir, getLast?_concat]
      simp only [hshort, if_true, hformat]
      exact ⟨_, _, rfl⟩

theorem truncates {tail : Option TornTail} (hphase : s.phase = .recovered tail) :
    ∃ s', s.step crc32c encryption generation .truncate = some s' ∧ s'.phase = .clean ∧
      s'.segments = s.segments := by
  simp only [step, hphase]
  cases tail with
  | none => exact ⟨_, rfl, rfl, rfl⟩
  | some => exact ⟨_, rfl, rfl, rfl⟩

theorem WalInv.restarts (h : WalInv crc32c encryption s) (hphase : s.phase = .down)
    (htol : s.Tolerated crc32c)
    (hgen : generationWalFormat generation = .ok version) (hmax : 0 < maxBytes) :
    ∃ s1 s2 s3 w, s.step crc32c encryption generation .recover = some s1 ∧
      s1.step crc32c encryption generation .truncate = some s2 ∧
      s2.step crc32c encryption generation (.openWriter maxBytes) = some s3 ∧
      s3.phase = .running w ∧ s3.logged encryption = s.logged encryption := by
  obtain ⟨⟨_, result⟩, hout, -, hok⟩ := h.reads
  obtain ⟨r, hr⟩ : ∃ r, result = .ok r := by
    cases result with
    | ok r => exact ⟨r, rfl⟩
    | error => exact absurd (hok.mpr htol) (by simp [Except.isOk, Except.toBool])
  rw [hr] at hout
  have hrecover : s.step crc32c encryption generation .recover =
      some { s with phase := .recovered r.tornTail } := by
    rw [WalRun.step, hphase, hout]
  have hinv1 := WalInv.step (a := .recover) h trivial hrecover
  obtain ⟨s2, htruncate, hclean, hsegments⟩ :=
    truncates (s := { s with phase := .recovered r.tornTail }) rfl
  have hinv2 := WalInv.step (a := .truncate) hinv1 trivial htruncate
  have hdisk := hinv2.disk
  rw [hclean] at hdisk
  obtain ⟨w, dir', hopen⟩ := hdisk.openDir_ok hinv2.segmented hgen maxBytes
  have hwriter : s2.step crc32c encryption generation (.openWriter maxBytes) =
      some ⟨dir', .running w, reopened s2.segments s2.dir dir' w.formatVersion⟩ := by
    rw [WalRun.step, hclean]
    simp only [hmax.ne', if_false, hopen]
  refine ⟨_, s2, _, w, hrecover, htruncate, hwriter, rfl, ?_⟩
  have hlogged := (step_openWriter hinv2 hwriter).2
  rw [hlogged, WalRun.logged, hsegments, WalRun.logged]

/-- In every state of every run the recovery gives back the records of the run:
what was appended, in order, without what a crash cut off. -/
theorem recovery_exact {start : List Segment} (hstart : Segmented encryption start)
    (h : System.Reach (walSystem crc32c encryption generation start) (WalOk crc32c encryption) s) :
    RecoversExactly crc32c encryption generation s := by
  have hinv := walInv_of_reach hstart h
  exact
    { reads := hinv.reads
      appends := fun _ _ hphase hfits hok => hinv.appends hphase hfits hok
      crashes := hinv.crashes
      cuts := fun htol cut => hinv.cuts htol cut
      restarts := fun hphase htol _ hgen _ hmax => hinv.restarts hphase htol hgen hmax }

end

/-! ## Runs on small logs -/

instance WalOk.decidable (crc32c : Bytes → UInt32) (encryption : Option WalEncryption) :
    (s : WalRun) → (a : WalAction) → Decidable (WalOk crc32c encryption s a)
  | ⟨_, .running w, _⟩, .append batch =>
    inferInstanceAs (Decidable (∀ r ∈ batch, (decryptRecord encryption
      (w.landingSegmentFor (body crc32c batch).length) r).isOk = true))
  | ⟨_, .down, _⟩, .append _ | ⟨_, .recovered _, _⟩, .append _ | ⟨_, .clean, _⟩, .append _ =>
    .isTrue trivial
  | ⟨dir, phase, segments⟩, .crash cut fill => by
      simp only [WalOk]
      exact match segments.getLast?, dir.getLast? with
      | some seg, some file => inferInstanceAs (Decidable (_ → _))
      | some _, none | none, _ => .isTrue trivial
  | _, .recover | _, .truncate | _, .openWriter _ => .isTrue trivial

def smallRecord (b : UInt8) : WalRecord := ⟨.putBlob, 0, 0, 0, 0, [b]⟩

/-- A second segment is cut inside its only record; after the restart the next
append goes there. -/
theorem recovery_exact_tornSegment :
    let s := (walSystem byteSum none none []).after (WalOk byteSum none)
      [.recover, .truncate, .openWriter 60, .append [smallRecord 1], .append [smallRecord 2],
        .crash 20 0, .recover, .truncate, .openWriter 60, .append [smallRecord 3]]
    RecoversExactly byteSum none none s ∧ s.logged none = [smallRecord 1, smallRecord 3] :=
  ⟨recovery_exact ⟨by simp, .nil⟩ (.after (by decide +kernel)), by decide +kernel⟩

/-- One zero in the place of the last byte: the bytes that are left have the length
of a record and a checksum that does not match, and the recovery ends with an
error. -/
theorem recovery_fails_on_zeroFill :
    let s := (walSystem byteSum none none []).after (WalOk byteSum none)
      [.recover, .truncate, .openWriter 1000, .append [smallRecord 1], .crash 52 1]
    System.Reach (walSystem byteSum none none []) (WalOk byteSum none) s ∧
      ∃ reason, recover byteSum none s.dir = some ⟨[], .error (.corruption 0 reason)⟩ :=
  ⟨.after (by decide +kernel), _, by rfl⟩

end ArcGraph.Wal
