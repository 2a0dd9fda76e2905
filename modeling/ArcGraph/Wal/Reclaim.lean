import ArcGraph.Wal.Replay
import Mathlib.Data.List.TakeWhile

/-!
# Reclaiming segments

`reclaim_segments_below` deletes the segments at the front of the log all of whose
bundles lie at or below the checkpoint frontier. Replay skips such bundles, but it
applies intern records and legacy index pages whatever the frontier is.
`reclaim_keeps_uncovered` says for every directory when no deleted segment holds a
record that the checkpoint does not cover and that replay would apply.
-/

namespace ArcGraph.Wal
open Foundation List SegmentHeader LogRecord

inductive StopReason
  | reachedActiveSegment
  | aboveFrontier
  | undecodableKept
  | nothing
deriving DecidableEq

structure ReclaimReport where
  deletedSegments : List Nat := []
  bytesFreed : Nat := 0
  stoppedAtSegment : Option Nat := none
  stopReason : StopReason := .reachedActiveSegment
deriving DecidableEq

inductive SegmentScan
  | maxCommitLsn (lsn : Nat)
  | undecodable
deriving DecidableEq

section
variable (crc32c : Bytes → UInt32)

/-- The loop over the records of a segment. Every record takes bytes, so that a
fuel of the number of bytes is enough. -/
def scanRecords (formatVersion : Nat) : Nat → Bytes → Nat → SegmentScan
  | 0, _, maxCommit => .maxCommitLsn maxCommit
  | fuel + 1, bytes, maxCommit =>
    if bytes = [] then .maxCommitLsn maxCommit
    else
      match WalRecord.decode crc32c bytes with
      | .error _ => .undecodable
      | .ok (r, consumed) =>
        if r.recordType = .commitBundle then
          match decodeCommitBundleForVersion r.payload formatVersion r.tenantId with
          | .error _ => .undecodable
          | .ok b => scanRecords formatVersion fuel (bytes.drop consumed)
              (if maxCommit < b.commitLsn then b.commitLsn else maxCommit)
        else scanRecords formatVersion fuel (bytes.drop consumed) maxCommit

variable (file : SegmentFile)

def segmentMaxCommitLsn : SegmentScan :=
  if file.bytes.length < SegmentHeader.size then .undecodable
  else
    match SegmentHeader.decode (file.bytes.take SegmentHeader.size) with
    | .error _ => .undecodable
    | .ok header => scanRecords crc32c header.formatVersion file.bytes.length
        (file.bytes.drop SegmentHeader.size) 0

/-- The walk over the segments in ascending order; what is left of the directory
comes with the report. -/
def reclaimLoop (checkpointLsn active : Nat) : WalDir → ReclaimReport × WalDir
  | [] => ({}, [])
  | file :: rest =>
    if file.number = active then
      ({ stoppedAtSegment := some file.number }, file :: rest)
    else
      match segmentMaxCommitLsn crc32c file with
      | .maxCommitLsn lsn =>
        if checkpointLsn < lsn then
          ({ stoppedAtSegment := some file.number, stopReason := .aboveFrontier }, file :: rest)
        else
          let (report, dir) := reclaimLoop checkpointLsn active rest
          ({ report with
            deletedSegments := file.number :: report.deletedSegments
            bytesFreed := file.bytes.length + report.bytesFreed }, dir)
      | .undecodable =>
        ({ stoppedAtSegment := some file.number, stopReason := .undecodableKept }, file :: rest)

def reclaimSegmentsBelow (dir : WalDir) (checkpointLsn : Nat) : ReclaimReport × WalDir :=
  if checkpointLsn = 0 then ({ stopReason := .nothing }, dir)
  else
    match dir.getLast? with
    | none => ({ stopReason := .nothing }, dir)
    | some active =>
      if dir.length ≤ 1 then ({ stopReason := .nothing }, dir)
      else reclaimLoop crc32c checkpointLsn active.number dir

/-! ## What a segment holds and what replay does with it -/

def recordsIn : Nat → Bytes → List WalRecord
  | 0, _ => []
  | fuel + 1, bytes =>
    match WalRecord.decode crc32c bytes with
    | .error _ => []
    | .ok (r, consumed) => r :: recordsIn fuel (bytes.drop consumed)

def fileRecords : List LogRecord :=
  match SegmentHeader.decode (file.bytes.take SegmentHeader.size) with
  | .error _ => []
  | .ok header => (recordsIn crc32c file.bytes.length (file.bytes.drop SegmentHeader.size)).map
      (⟨header.formatVersion, ·⟩)

end

def LogRecord.bundle (r : LogRecord) : Option DecodedCommitBundle :=
  if r.record.recordType = .commitBundle then
    (decodeCommitBundleForVersion r.record.payload r.formatVersion r.record.tenantId).toOption
  else none

section
variable {τ : Type} (t : ReplayTarget τ)

/-- Replay does something with the record whatever the watermark is: it installs a
legacy index page or an intern binding, or seeds allocators from a bundle. -/
def Unconditional (r : LogRecord) : Prop :=
  match r.record.recordType with
  | .indexPage => True
  | .internString => t.internTable.isSome = true
  | _ => r.bundle.any (fun b => !b.allocatorAdvances.isEmpty) = true

def Reapplied (frontier : Nat) (r : LogRecord) : Prop :=
  Unconditional t r ∨ r.bundle.any (fun b => frontier < b.commitLsn) = true

theorem handleRecord_of_not_reapplied {s : ReplayExecutor τ} {r : LogRecord} {frontier : Nat}
    (h : ¬ Reapplied t frontier r) (hmark : frontier ≤ s.appliedHighWater)
    (hdecodes : r.record.recordType = .commitBundle → r.bundle.isSome = true) :
    handleRecord t s r = .ok s := by
  obtain ⟨huncond, hlate⟩ := not_or.mp h
  unfold Unconditional at huncond
  unfold handleRecord
  cases htype : r.record.recordType with
  | commitBundle =>
    obtain ⟨b, hb⟩ := Option.isSome_iff_exists.mp (hdecodes htype)
    have hdecode : decodeCommitBundleForVersion r.record.payload r.formatVersion
        r.record.tenantId = .ok b := by
      rw [bundle, if_pos htype] at hb
      exact toOption_eq_some.mp hb
    have hnil : b.allocatorAdvances = [] := by simpa [htype, hb] using huncond
    simp only [hb, Option.any_some, decide_eq_true_eq, Nat.not_lt] at hlate
    have hskip : b.commitLsn ≤ s.appliedHighWater := hlate.trans hmark
    simp [hdecode, Except.mapError, bind, Except.bind, bufferInsert, hskip, hnil]
  | indexPage =>
    rw [htype] at huncond
    exact absurd trivial huncond
  | internString =>
    rw [htype] at huncond
    simp only [Option.not_isSome_iff_eq_none.mp huncond]
  | _ => rfl

end

/-! ## Which segments are deleted -/

section
variable {crc32c : Bytes → UInt32}

variable (crc32c) in
/-- The bytes are a sequence of whole records. -/
inductive WholeRecords : Bytes → List WalRecord → Prop
  | nil : WholeRecords [] []
  | cons {bytes : Bytes} {r : WalRecord} {n : Nat} {rest : List WalRecord} :
      WalRecord.decode crc32c bytes = .ok (r, n) → WholeRecords (bytes.drop n) rest →
        WholeRecords bytes (r :: rest)

/-- Where the record is a bundle, it decodes and lies at or below the frontier. -/
def BundleBelow (frontier : Nat) (r : LogRecord) : Prop :=
  r.record.recordType = .commitBundle → ∃ b, r.bundle = some b ∧ b.commitLsn ≤ frontier

variable (crc32c) in
/-- The file is a header and whole records, with no bundle above the frontier. -/
def SegmentBelow (frontier : Nat) (file : SegmentFile) : Prop :=
  ∃ header records, SegmentHeader.decode (file.bytes.take SegmentHeader.size) = .ok header ∧
    WholeRecords crc32c (file.bytes.drop SegmentHeader.size) records ∧
    ∀ r ∈ records, BundleBelow frontier ⟨header.formatVersion, r⟩

variable {fuel maxCommit frontier : Nat} {r : LogRecord} {P : WalRecord → Prop} {file : SegmentFile}
  {bytes : Bytes}

theorem WholeRecords.recordsIn {records : List WalRecord}
    (h : WholeRecords crc32c bytes records) (hfuel : bytes.length ≤ fuel) :
    recordsIn crc32c fuel bytes = records := by
  induction h generalizing fuel with
  | nil =>
    cases fuel with
    | zero => rfl
    | succ => rfl
  | cons hdecode _ ih =>
    obtain ⟨-, hpos, _⟩ := WalRecord.decode_spec hdecode
    unfold WalRecord.headerSize at hpos
    obtain ⟨fuel, rfl⟩ : ∃ m, fuel = m + 1 := ⟨fuel - 1, by omega⟩
    rw [Wal.recordsIn, hdecode]
    simp only
    rw [ih (by rw [length_drop]; omega)]

theorem bundle_of_decode {b : DecodedCommitBundle} (htype : r.record.recordType = .commitBundle)
    (h : decodeCommitBundleForVersion r.record.payload r.formatVersion r.record.tenantId = .ok b) :
    r.bundle = some b := by
  rw [bundle, if_pos htype, h]
  rfl

theorem wholeRecords_of_decode {r : WalRecord} {n : Nat}
    (h : WalRecord.decode crc32c bytes = .ok (r, n)) :
    (∃ records, WholeRecords crc32c bytes records ∧ ∀ x ∈ records, P x) ↔
      P r ∧ ∃ rest, WholeRecords crc32c (bytes.drop n) rest ∧ ∀ x ∈ rest, P x := by
  constructor
  · rintro ⟨_, hwhole, hall⟩
    cases hwhole with
    | nil => cases h
    | cons hdecode hrest =>
      rw [h] at hdecode
      cases hdecode
      exact ⟨hall _ mem_cons_self, _, hrest, fun x hx => hall x (mem_cons_of_mem _ hx)⟩
  · rintro ⟨hr, rest, hrest, hall⟩
    exact ⟨r :: rest, .cons h hrest, forall_mem_cons.mpr ⟨hr, hall⟩⟩

theorem scan_end :
    (∃ lsn, SegmentScan.maxCommitLsn maxCommit = .maxCommitLsn lsn ∧ lsn ≤ frontier) ↔
      maxCommit ≤ frontier ∧ ∃ records, WholeRecords crc32c [] records ∧ ∀ r ∈ records, P r := by
  constructor
  · rintro ⟨_, hscan, hle⟩
    cases hscan
    exact ⟨hle, [], .nil, by simp⟩
  · rintro ⟨hle, -⟩
    exact ⟨maxCommit, rfl, hle⟩

/-- The scan ends at or below the frontier exactly on whole records without a
bundle above it. -/
theorem scanRecords_le {version : Nat} (hfuel : bytes.length ≤ fuel) :
    (∃ lsn, scanRecords crc32c version fuel bytes maxCommit = .maxCommitLsn lsn ∧ lsn ≤ frontier) ↔
      maxCommit ≤ frontier ∧ ∃ records, WholeRecords crc32c bytes records ∧
        ∀ r ∈ records, BundleBelow frontier ⟨version, r⟩ := by
  induction fuel generalizing bytes maxCommit with
  | zero =>
    obtain rfl : bytes = [] := length_eq_zero_iff.mp (Nat.le_zero.mp hfuel)
    exact scan_end
  | succ fuel ih =>
    rw [scanRecords]
    by_cases hnil : bytes = []
    · subst hnil
      exact scan_end
    · rw [if_neg hnil]
      cases hdecode : WalRecord.decode crc32c bytes with
      | error =>
        refine iff_of_false (by simp) ?_
        rintro ⟨-, _, hwhole, -⟩
        cases hwhole with
        | nil => exact hnil rfl
        | cons hok =>
          rw [hdecode] at hok
          cases hok
      | ok out =>
        obtain ⟨r, n⟩ := out
        obtain ⟨-, hpos, _⟩ := WalRecord.decode_spec hdecode
        unfold WalRecord.headerSize at hpos
        have hrest : (bytes.drop n).length ≤ fuel := by
          rw [length_drop]
          omega
        rw [wholeRecords_of_decode hdecode]
        simp only
        by_cases htype : r.recordType = .commitBundle
        · rw [if_pos htype]
          cases hbundle : decodeCommitBundleForVersion r.payload version r.tenantId with
          | error =>
            refine iff_of_false (by simp) ?_
            rintro ⟨-, hbelow, -⟩
            obtain ⟨b, hb, -⟩ := hbelow htype
            rw [bundle, if_pos htype, hbundle] at hb
            cases hb
          | ok b =>
            have hb : bundle ⟨version, r⟩ = some b := bundle_of_decode htype hbundle
            have hbelow : BundleBelow frontier ⟨version, r⟩ ↔ b.commitLsn ≤ frontier := by
              simp [BundleBelow, htype, hb]
            have hmax : (if maxCommit < b.commitLsn then b.commitLsn else maxCommit) ≤
                frontier ↔ maxCommit ≤ frontier ∧ b.commitLsn ≤ frontier := by
              split <;> omega
            simp only
            rw [ih hrest, hmax, hbelow, and_assoc]
        · have hbelow : BundleBelow frontier ⟨version, r⟩ := fun h => absurd h htype
          rw [if_neg htype, ih hrest]
          simp only [hbelow, true_and]

theorem segmentMaxCommitLsn_le :
    (∃ lsn, segmentMaxCommitLsn crc32c file = .maxCommitLsn lsn ∧ lsn ≤ frontier) ↔
      SegmentBelow crc32c frontier file := by
  unfold segmentMaxCommitLsn SegmentBelow
  by_cases hshort : file.bytes.length < size
  · rw [if_pos hshort]
    refine iff_of_false (by simp) ?_
    rintro ⟨_, _, hheader, -⟩
    have hlen : (file.bytes.take size).length < size := by
      rw [length_take]
      omega
    rw [decode, if_pos hlen] at hheader
    cases hheader
  · rw [if_neg hshort]
    cases hheader : decode (file.bytes.take size) with
    | error => exact iff_of_false (by simp) (by simp)
    | ok =>
      simp only
      rw [scanRecords_le (by simp)]
      simp

variable (crc32c) in
def deletable (frontier active : Nat) (file : SegmentFile) : Bool :=
  file.number ≠ active && match segmentMaxCommitLsn crc32c file with
    | .maxCommitLsn lsn => lsn ≤ frontier
    | .undecodable => false

theorem deletable_iff {active : Nat} : deletable crc32c frontier active file = true ↔
      file.number ≠ active ∧ SegmentBelow crc32c frontier file := by
  rw [← segmentMaxCommitLsn_le, deletable]
  cases segmentMaxCommitLsn crc32c file with
  | maxCommitLsn => simp
  | undecodable => simp

/-- The walk deletes the deletable segments at the front. -/
theorem reclaimLoop_eq (frontier active : Nat) (dir : WalDir) :
    (reclaimLoop crc32c frontier active dir).2 = dir.dropWhile (deletable crc32c frontier active) ∧
    (reclaimLoop crc32c frontier active dir).1.deletedSegments =
      (dir.takeWhile (deletable crc32c frontier active)).map (·.number) := by
  induction dir with
  | nil => exact ⟨rfl, rfl⟩
  | cons file _ ih =>
    rw [reclaimLoop, dropWhile_cons, takeWhile_cons, deletable]
    by_cases hactive : file.number = active
    · simp [hactive]
    · cases hscan : segmentMaxCommitLsn crc32c file with
      | undecodable => simp [hactive]
      | maxCommitLsn lsn =>
        by_cases hle : lsn ≤ frontier
        · simp [hactive, hle, Nat.not_lt.mpr hle, ih.1, ih.2]
        · simp [hactive, hle, Nat.not_le.mp hle]

theorem reclaimSegmentsBelow_concat (hpos : frontier ≠ 0) (init : WalDir) (last : SegmentFile) :
    (reclaimSegmentsBelow crc32c (init ++ [last]) frontier).2 =
      (init ++ [last]).dropWhile (deletable crc32c frontier last.number) := by
  rw [reclaimSegmentsBelow, if_neg hpos, getLast?_concat]
  by_cases hsingle : (init ++ [last]).length ≤ 1
  · obtain rfl : init = [] := by
      refine length_eq_zero_iff.mp ?_
      rw [length_append, length_singleton] at hsingle
      omega
    simp [deletable]
  · simp only [hsingle, if_false]
    exact (reclaimLoop_eq frontier last.number _).1

theorem SegmentBelow.bundleBelow (h : SegmentBelow crc32c frontier file)
    (hr : r ∈ fileRecords crc32c file) : BundleBelow frontier r := by
  obtain ⟨_, _, hheader, hwhole, hall⟩ := h
  have hrecords := hwhole.recordsIn (show _ ≤ file.bytes.length by simp)
  simp only [fileRecords, hheader, hrecords, mem_map] at hr
  obtain ⟨x, hx, rfl⟩ := hr
  exact hall x hx

end

/-! ## Safety -/

variable (crc32c : Bytes → UInt32) {τ : Type} (t : ReplayTarget τ)

/-- No deleted segment holds a record that is not among the first `captured` ones
of the log and that replay from the frontier applies. -/
def ReclaimKeeps (dir : WalDir) (frontier captured : Nat) : Prop :=
  ∀ deleted, dir = deleted ++ (reclaimSegmentsBelow crc32c dir frontier).2 →
    ∀ r ∈ (deleted.flatMap (fileRecords crc32c)).drop captured, ¬ Reapplied t frontier r

/-- In the segments at the front of the log that end before the active one and have
no bundle above the frontier, nothing that replay applies in any case comes after
the first `captured` records. -/
def NoLateRecord (dir : WalDir) (frontier captured : Nat) : Prop :=
  ∀ front, front <+: dir →
    (∀ file ∈ front, (∀ last ∈ dir.getLast?, file.number ≠ last.number) ∧
      SegmentBelow crc32c frontier file) →
    ∀ r ∈ (front.flatMap (fileRecords crc32c)).drop captured, ¬ Unconditional t r

theorem reclaim_keeps_uncovered (dir : WalDir) (frontier captured : Nat) :
    ReclaimKeeps crc32c t dir frontier captured ↔
      (frontier ≠ 0 → NoLateRecord crc32c t dir frontier captured) := by
  by_cases hpos : frontier = 0
  · -- without a checkpoint nothing is deleted
    refine iff_of_true (fun deleted hdeleted => ?_) (fun h => absurd hpos h)
    rw [reclaimSegmentsBelow, if_pos hpos] at hdeleted
    rw [self_eq_append_left.mp hdeleted]
    simp
  · simp only [hpos, ne_eq, not_false_eq_true, true_imp_iff]
    rcases eq_nil_or_concat dir with rfl | ⟨init, last, rfl⟩
    · refine iff_of_true (fun deleted hdeleted => ?_) (fun front hfront => ?_)
      · rw [(append_eq_nil_iff.mp hdeleted.symm).1]
        simp
      · rw [prefix_nil.mp hfront]
        simp
    · rw [concat_eq_append]
      have hrest := @reclaimSegmentsBelow_concat crc32c frontier hpos init last
      have hfront : ∀ file, ((∀ l ∈ (init ++ [last]).getLast?, file.number ≠ l.number) ∧
          SegmentBelow crc32c frontier file) ↔ deletable crc32c frontier last.number file = true := by
        intro file
        rw [deletable_iff, getLast?_concat]
        simp
      simp only [ReclaimKeeps, NoLateRecord, hrest, hfront]
      have hsplit := takeWhile_append_dropWhile
        (p := deletable crc32c frontier last.number) (l := init ++ [last])
      constructor
      · intro hkeeps front hprefix hall r hr
        have hsub : front <+: (init ++ [last]).takeWhile (deletable crc32c frontier last.number) := by
          obtain ⟨_, hrest⟩ := hprefix
          rw [← hrest, takeWhile_append_of_pos hall]
          exact prefix_append _ _
        exact fun hun => hkeeps _ hsplit.symm r (((hsub.flatMap _).drop _).subset hr) (.inl hun)
      · intro hlate deleted hdeleted r hr
        obtain rfl := append_cancel_right (hdeleted.symm.trans hsplit.symm)
        have hall : ∀ file ∈ (init ++ [last]).takeWhile (deletable crc32c frontier last.number),
            deletable crc32c frontier last.number file = true :=
          fun file hfile => mem_takeWhile_imp hfile
        have hnot := hlate _ ( takeWhile_prefix _) hall r hr
        obtain ⟨file, hfile, hmem⟩ := mem_flatMap.mp (mem_of_mem_drop hr)
        have hbelow := (deletable_iff.mp (hall file hfile)).2.bundleBelow hmem
        rintro (hun | hbundle)
        · exact hnot hun
        · cases hb : r.bundle with
          | none => simp [hb] at hbundle
          | some =>
            have htype : r.record.recordType = .commitBundle := by
              by_contra htype
              rw [bundle, if_neg htype] at hb
              cases hb
            obtain ⟨_, hb', hle⟩ := hbelow htype
            rw [hb] at hb' hbundle
            cases hb'
            exact Nat.not_lt.mpr hle (by simpa using hbundle)

/-! ### A name that is lost -/

/-- Names under their tenant and id. -/
def nameTarget : ReplayTarget (List (TenantId × Nat × String)) :=
  { ReplayTarget.idle _ with
    internTable := some fun st tenant id name => st ++ [(tenant, id, name)] }

/-- Two segments; the first holds the bundle of LSN 1 and then an intern record. -/
def internDir : WalDir :=
  [⟨0, SegmentHeader.encode ⟨1⟩ ++
      WalRecord.encoded byteSum ⟨.commitBundle, 1, 1, 0, 7, plainBundleBytes⟩ ++
      WalRecord.encoded byteSum ⟨.internString, 0, 2, 0, 7, leBytes 4 5 ++ [97]⟩⟩,
    ⟨1, SegmentHeader.encode ⟨1⟩⟩]

/-- The frontier 1 was read when only the bundle was in the log. The segment goes,
and the name with it. -/
theorem reclaim_loses_intern :
    (reclaimSegmentsBelow byteSum internDir 1).1.deletedSegments = [0] ∧
      ¬ ReclaimKeeps byteSum nameTarget internDir 1 1 := by
  refine ⟨by decide +kernel, fun hkeeps => ?_⟩
  have hdeleted : internDir = internDir.take 1 ++ (reclaimSegmentsBelow byteSum internDir 1).2 := by
    decide +kernel
  have hmem : (⟨1, ⟨.internString, 0, 2, 0, 7, leBytes 4 5 ++ [97]⟩⟩ : LogRecord) ∈
      ((internDir.take 1).flatMap (fileRecords byteSum)).drop 1 := by
    decide +kernel
  exact hkeeps _ hdeleted _ hmem (.inl rfl)

end ArcGraph.Wal
