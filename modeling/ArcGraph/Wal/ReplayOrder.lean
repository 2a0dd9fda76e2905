import ArcGraph.Redo.Apply
import ArcGraph.Wal.ReplayEffect

/-!
# Replay and the physical order

With spilling on, nothing is applied before the final drain, and at every moment
the buffer and the spill files together hold the bundles read so far, the spilled
ones re-encoded. The final drain therefore applies variants of the bundles in
ascending order, whatever the physical order and the buffer limits were.

`replay_order_independent` says when that is the same as applying the bundles
themselves: exactly when no replay is refused for want of an operation that a spill
dropped, and no write that only the deltas carry changes the value of its key.
-/

namespace ArcGraph.Wal
open Foundation Mvcc VersionChain List Nat RedoLsnRange

/-! ## Redo ranges -/

variable {c : DecodedCommitBundle} {range : RedoLsnRange}

namespace DecodedCommitBundle

def firstLsn (b : DecodedCommitBundle) : Nat := b.commitLsn - (max b.deltas.length 1 - 1)

variable {b b' : DecodedCommitBundle}

theorem redoRange_some
    (h : b.redoRange = some range) : range.base = b.firstLsn ∧ range.end = b.commitLsn := by
  unfold redoRange endingAt at h
  simp only at h
  split at h
  · cases h
  · unfold new at h
    split at h
    · cases h
    · cases h
      exact ⟨rfl, rfl⟩

/-- A re-encoded bundle has no operations, so its range is its commit LSN. -/
theorem redoRange_reencoded (h : 0 < b.commitLsn) :
    ∃ range, b.reencoded.redoRange = some range := by
  have hlsn : b.reencoded.commitLsn = b.commitLsn := rfl
  have hnil : b.reencoded.deltas = [] := rfl
  refine ⟨⟨b.commitLsn, b.commitLsn, h, le_refl _⟩, ?_⟩
  simp only [redoRange, endingAt, new, hlsn, hnil, length_nil]
  rw [if_neg (by omega), dif_neg (by omega)]
  rfl

theorem firstLsn_le (b : DecodedCommitBundle) : b.firstLsn ≤ b.commitLsn := sub_le _ _

def Apart (b c : DecodedCommitBundle) : Prop :=
  b.commitLsn < c.firstLsn ∨ c.commitLsn < b.firstLsn

theorem Apart.symm (h : Apart b c) : Apart c b := Or.symm h

theorem Variant.firstLsn_le (h : b.Variant b') : b.firstLsn ≤ b'.firstLsn := by
  rcases h with rfl | rfl
  · exact le_refl _
  · have hfirst : b.reencoded.firstLsn = b.commitLsn := by
      show b.commitLsn - (max 0 1 - 1) = b.commitLsn
      omega
    rw [hfirst]
    exact b.firstLsn_le

theorem Apart.variant {c' : DecodedCommitBundle} (h : Apart b c) (hb : b.Variant b')
    (hc : c.Variant c') : Apart b' c' := by
  have hb1 := hb.firstLsn_le
  have hc1 := hc.firstLsn_le
  unfold Apart at h ⊢
  rw [hb.commitLsn, hc.commitLsn]
  omega

end DecodedCommitBundle

open DecodedCommitBundle

/-- A bundle record of the log, with the bundle it decodes to and its redo range. -/
structure CommitRecord where
  log : LogRecord
  bundle : DecodedCommitBundle
  range : RedoLsnRange
  isBundle : log.record.recordType = .commitBundle
  decodes : decodeCommitBundleForVersion log.record.payload log.formatVersion
    log.record.tenantId = .ok bundle
  hasRange : bundle.redoRange = some range

namespace CommitRecord

theorem encodable (r : CommitRecord) : r.bundle.Encodable := encodable_of_decode r.decodes

end CommitRecord

/-! ## The reading loop -/

variable {τ : Type} {t : ReplayTarget τ} {crc32c : Bytes → UInt32} (s : ReplayExecutor τ)

def Keys : Prop :=
  ∀ e ∈ s.buffer.entries, ∃ range n, e.bundle.redoRange = some range ∧ n < s.arrivalSeq ∧
    e.key = toLex (range.base, toLex (range.end, n))

def buffered : List DecodedCommitBundle := s.buffer.entries.map (·.bundle)

variable {s s₀ s' f f' : ReplayExecutor τ} {b : DecodedCommitBundle}
  {fed spilled bs cs bundles : List DecodedCommitBundle} {cfg : ReplayConfig}
  {R : DecodedCommitBundle → DecodedCommitBundle → Prop}

theorem enqueue_entries (h : Keys s) (b : DecodedCommitBundle) (range : RedoLsnRange) :
    (enqueue s b range).buffer.entries.Perm
      ({ key := toLex (range.base, toLex (range.end, s.arrivalSeq))
         bundle := b
         bytesBudget := estimateBundleBytes b } :: s.buffer.entries) := by
  refine Keyed.perm_insertList fun e he hkey => ?_
  obtain ⟨_, _, -, _, hk⟩ := h e he
  rw [hk] at hkey
  have hseq := congrArg (fun x => (ofLex (ofLex x).2).2) hkey
  simp only [ofLex_toLex] at hseq
  omega

theorem Keys.enqueue (h : Keys s) (hrange : b.redoRange = some range) :
    Keys (enqueue s b range) := by
  intro e he
  rcases mem_cons.mp ((enqueue_entries h b range).mem_iff.mp he) with rfl | he
  · exact ⟨range, s.arrivalSeq, hrange, lt_succ_self _, rfl⟩
  · obtain ⟨r, n, hr, hn, hk⟩ := h e he
    exact ⟨r, n, hr, lt_succ_of_lt hn, hk⟩

/-- What holds while the log is read: `fed` are the bundles read above the watermark,
`spilled` those of them that went to a spill file. -/
structure Reading (crc32c : Bytes → UInt32) (s₀ : ReplayExecutor τ)
    (fed spilled : List DecodedCommitBundle) (s : ReplayExecutor τ) : Prop where
  frame : s = { s₀ with
    target := s.target
    buffer := s.buffer
    arrivalSeq := s.arrivalSeq
    bufferMemoryBytes := s.bufferMemoryBytes
    spillDir := s.spillDir }
  bytes : s.bufferMemoryBytes = (s.buffer.entries.map (·.bytesBudget)).sum
  keys : Keys s
  held : (buffered s ++ spilled).Perm fed
  loaded : (loadAllSpillBundles crc32c s.spillDir).Perm (spilled.map reencoded)
  names : ∀ file ∈ s.spillDir, ∃ b ∈ spilled, file.1.minLsn = b.commitLsn

theorem Reading.applied (h : Reading crc32c s₀ fed spilled s) :
    s.appliedHighWater = s₀.appliedHighWater := by
  rw [h.frame]

theorem Reading.handle (h : Reading crc32c s₀ fed spilled s) (r : CommitRecord) :
    ∃ s', handleRecord t s r.log = .ok s' ∧
      Reading crc32c s₀ (if s₀.appliedHighWater < r.bundle.commitLsn then r.bundle :: fed else fed)
        spilled s' := by
  have hstep : handleRecord t s r.log = bufferInsert t s r.bundle := by
    rw [handleRecord, r.isBundle]
    simp only [r.decodes]
    rfl
  rw [hstep, bufferInsert, h.applied]
  by_cases hlive : s₀.appliedHighWater < r.bundle.commitLsn
  · rw [if_neg (by omega), if_pos hlive, r.hasRange]
    have hperm := enqueue_entries h.keys r.bundle r.range
    refine ⟨_, rfl, ?_, ?_, h.keys.enqueue r.hasRange, ?_, h.loaded, h.names⟩
    · rw [h.frame]
      rfl
    · show s.bufferMemoryBytes + _ = _
      rw [(hperm.map BufferedBundle.bytesBudget).sum_nat, h.bytes, map_cons, sum_cons, add_comm]
    · exact ((hperm.map BufferedBundle.bundle).append_right spilled).trans (h.held.cons r.bundle)
  · rw [if_pos (by omega), if_neg hlive]
    refine ⟨_, rfl, ?_, h.bytes, h.keys, h.held, h.loaded, h.names⟩
    rw [h.frame]

/-! ### Spilling -/

theorem popCount_pos {targetCount targetMemory bytes : Nat} {es : List BufferedBundle}
    (hne : es ≠ []) (h : targetCount < es.length ∨ targetMemory < bytes) :
    0 < popCount targetCount targetMemory bytes es 0 := by
  cases es with
  | nil => exact absurd rfl hne
  | cons =>
    rw [popCount, if_pos (by simpa using h)]
    exact succ_pos _

abbrev Overflows (cfg : ReplayConfig) (s : ReplayExecutor τ) : Prop :=
  cfg.maxBufferBundles ≤ s.buffer.entries.length ∨ cfg.maxBufferBytes ≤ s.bufferMemoryBytes

structure Spills (cfg : ReplayConfig) : Prop where
  enabled : cfg.spillEnabled = true
  bundles : 1 ≤ cfg.maxBufferBundles
  bytes : 1 ≤ cfg.maxBufferBytes

theorem take_popCount_ne_nil (hcfg : Spills cfg)
    (hbytes : s.bufferMemoryBytes = (s.buffer.entries.map (·.bytesBudget)).sum)
    (hover : Overflows cfg s) :
    s.buffer.entries.take (popCount (cfg.maxBufferBundles / 2) (cfg.maxBufferBytes / 2)
      s.bufferMemoryBytes s.buffer.entries 0) ≠ [] := by
  have hb := hcfg.bundles
  have hm := hcfg.bytes
  have hne : s.buffer.entries ≠ [] := by
    intro hnil
    rw [Overflows, hbytes, hnil] at hover
    simp only [length_nil, map_nil, sum_nil] at hover
    omega
  have hhalf : cfg.maxBufferBundles / 2 < s.buffer.entries.length ∨
      cfg.maxBufferBytes / 2 < s.bufferMemoryBytes := by
    unfold Overflows at hover
    omega
  have hpos := popCount_pos hne hhalf
  rw [Ne, take_eq_nil_iff]
  rintro (hzero | hnil)
  · omega
  · exact hne hnil

theorem spillName_minLsn_mem (hne : bundles ≠ []) :
    ∃ b ∈ bundles, (spillName (sortBy (·.commitLsn) bundles)).minLsn = b.commitLsn := by
  cases hs : sortBy (·.commitLsn) bundles with
  | nil =>
    have hlen := length_sortBy (·.commitLsn) bundles
    rw [hs] at hlen
    exact absurd (length_eq_zero_iff.mp hlen.symm) hne
  | cons b =>
    refine ⟨b, (mem_sortBy (·.commitLsn)).mp ?_, rfl⟩
    rw [hs]
    exact mem_cons_self

/-- The hypotheses on the bundles of a log that spilling relies on. -/
structure Spillable (bs : List DecodedCommitBundle) : Prop where
  encodable : ∀ b ∈ bs, b.Encodable
  fits : SpillFits bs
  apart : bs.Pairwise Apart

theorem Spillable.perm (h : Spillable bs) (hp : cs.Perm bs) : Spillable cs where
  encodable b hb := h.encodable b (hp.mem_iff.mp hb)
  fits := h.fits.perm hp
  apart := (hp.pairwise_iff fun hab => hab.symm).mpr h.apart

theorem Spillable.sublist (h : Spillable bs) (hs : cs.Sublist bs) : Spillable cs where
  encodable b hb := h.encodable b (hs.subset hb)
  fits := ⟨hs.length_le.trans_lt h.fits.count, fun b hb => h.fits.payloads b (hs.subset hb)⟩
  apart := h.apart.sublist hs

theorem Apart.ne (h : Apart b c) : b.commitLsn ≠ c.commitLsn := by
  have hb := b.firstLsn_le
  have hc := c.firstLsn_le
  unfold DecodedCommitBundle.Apart at h
  omega

/-- The bundles of the first `n` buffer entries. -/
def popped (s : ReplayExecutor τ) (n : Nat) : List DecodedCommitBundle :=
  (s.buffer.entries.take n).map (·.bundle)

theorem held_spillFirst (crc32c : Bytes → UInt32) (h : (buffered s ++ spilled).Perm fed) (n : Nat) :
    (buffered (spillFirst crc32c s n) ++ (spilled ++ popped s n)).Perm fed := by
  have hsplit : buffered s = popped s n ++ buffered (spillFirst crc32c s n) := by
    show s.buffer.entries.map _ = (s.buffer.entries.take n).map _ ++ (s.buffer.entries.drop n).map _
    rw [← map_append, take_append_drop]
  rw [hsplit, append_assoc] at h
  rw [← append_assoc]
  exact perm_append_comm.trans h

theorem bytes_spillFirst (h : s.bufferMemoryBytes = (s.buffer.entries.map (·.bytesBudget)).sum)
    (n : Nat) : (spillFirst crc32c s n).bufferMemoryBytes =
      ((spillFirst crc32c s n).buffer.entries.map (·.bytesBudget)).sum := by
  have hsum := congrArg (fun l => (l.map fun e : BufferedBundle => e.bytesBudget).sum)
    (take_append_drop n s.buffer.entries)
  simp only [map_append, sum_append_nat] at hsum
  show s.bufferMemoryBytes - _ = ((s.buffer.entries.drop n).map (·.bytesBudget)).sum
  rw [h]
  omega

section
variable (h : Reading crc32c s₀ fed spilled s)
include h

theorem Reading.spillFirst (hfed : Spillable fed) {n : Nat} (hne : s.buffer.entries.take n ≠ []) :
    Reading crc32c s₀ fed (spilled ++ popped s n) (spillFirst crc32c s n) := by
  have hpne : popped s n ≠ [] := by simpa [popped] using hne
  have hheld := held_spillFirst crc32c h.held n
  have hall := hfed.perm hheld
  have hpopped : Spillable (popped s n) := hall.sublist
    ((sublist_append_right _ _).trans (sublist_append_right _ _))
  obtain ⟨c, hc, hmin⟩ := spillName_minLsn_mem hpne
  have hnames : ∀ file ∈ s.spillDir,
      file.1 ≠ spillName (sortBy (·.commitLsn) (popped s n)) := by
    intro file hfile heq
    obtain ⟨b, hb, hname⟩ := h.names file hfile
    have happart := (pairwise_append.mp (pairwise_append.mp hall.apart).2.1).2.2 b hb c hc
    rw [heq, hmin] at hname
    exact Apart.ne happart hname.symm
  refine ⟨?_, bytes_spillFirst h.bytes n, ?_, hheld, ?_, ?_⟩
  · rw [Wal.spillFirst, h.frame]
  · exact fun e he => h.keys e (mem_of_mem_drop he)
  · show (loadAllSpillBundles crc32c (writeSpillBatch crc32c s.spillDir (popped s n))).Perm _
    rw [load_write crc32c hnames hpopped.encodable hpopped.fits, map_append]
    exact h.loaded.append ((perm_sortBy _ _).map _)
  · intro file hfile
    have hput : file ∈ writeSpillBatch crc32c s.spillDir (popped s n) := hfile
    rw [writeSpillBatch, if_neg (by simpa using hpne)] at hput
    rcases mem_append.mp hput with hold | hnew
    · obtain ⟨b, hb, hname⟩ := h.names file (mem_of_mem_filter hold)
      exact ⟨b, mem_append_left _ hb, hname⟩
    · refine ⟨c, mem_append_right _ hc, ?_⟩
      rw [mem_singleton.mp hnew, hmin]

theorem Reading.flush (hfed : Spillable fed) (hcfg : Spills cfg) (hover : Overflows cfg s) :
    ∃ spilled' s', overflowFlush t crc32c cfg s = .ok s' ∧ Reading crc32c s₀ fed spilled' s' := by
  have hne := take_popCount_ne_nil hcfg h.bytes hover
  refine ⟨_, _, ?_, h.spillFirst hfed hne⟩
  rw [overflowFlush, if_pos hcfg.enabled, spillEngage, if_neg (by simpa using hne)]

theorem Reading.step (hcfg : Spills cfg) (r : CommitRecord)
    (hfed : Spillable (if s₀.appliedHighWater < r.bundle.commitLsn then r.bundle :: fed else fed)) :
    ∃ spilled' s', readRecord t crc32c cfg s r.log = .ok s' ∧
      Reading crc32c s₀ (if s₀.appliedHighWater < r.bundle.commitLsn then r.bundle :: fed else fed)
        spilled' s' := by
  obtain ⟨s1, hs1, hreading⟩ := h.handle (t := t) r
  have hstep : readRecord t crc32c cfg s r.log =
      if Overflows cfg s1 then overflowFlush t crc32c cfg s1 else .ok s1 := by
    rw [readRecord, hs1]
    rfl
  rw [hstep]
  by_cases hover : Overflows cfg s1
  · rw [if_pos hover]
    exact hreading.flush hfed hcfg hover
  · rw [if_neg hover]
    exact ⟨spilled, s1, rfl, hreading⟩

end

def live (applied : Nat) (bs : List DecodedCommitBundle) : List DecodedCommitBundle :=
  bs.filter (applied < ·.commitLsn)

theorem live_cons (applied : Nat) (b : DecodedCommitBundle) (bs : List DecodedCommitBundle) :
    live applied (b :: bs) = if applied < b.commitLsn then b :: live applied bs
      else live applied bs := by
  by_cases h : applied < b.commitLsn <;> simp [live, h]

/-- The whole loop: every live bundle is in the buffer or in a spill file. -/
theorem Reading.run (hcfg : Spills cfg) (h : Reading crc32c s₀ fed spilled s)
    (records : List CommitRecord)
    (hfed : Spillable (fed ++ live s₀.appliedHighWater (records.map (·.bundle)))) :
    ∃ fed' spilled' s', (records.map (·.log)).foldlM (readRecord t crc32c cfg) s = .ok s' ∧
      Reading crc32c s₀ fed' spilled' s' ∧
      fed'.Perm (fed ++ live s₀.appliedHighWater (records.map (·.bundle))) := by
  induction records generalizing s fed spilled with
  | nil => exact ⟨fed, spilled, s, rfl, h, by simp [live]⟩
  | cons r rest ih =>
    rw [map_cons, live_cons] at hfed
    -- the bundles read after this record, and those still to come
    have hperm : ((if s₀.appliedHighWater < r.bundle.commitLsn then r.bundle :: fed else fed) ++
        live s₀.appliedHighWater (rest.map (·.bundle))).Perm
        (fed ++ if s₀.appliedHighWater < r.bundle.commitLsn then
          r.bundle :: live s₀.appliedHighWater (rest.map (·.bundle))
        else live s₀.appliedHighWater (rest.map (·.bundle))) := by
      split
      · exact perm_middle.symm
      · exact .refl _
    have hnext := hfed.perm hperm
    obtain ⟨_, _, hs1, h1⟩ := h.step (t := t) hcfg r
      (hnext.sublist (sublist_append_left _ _))
    obtain ⟨fed', spilled', s', hs', h', hfed'⟩ := ih h1 hnext
    refine ⟨fed', spilled', s', ?_, h', ?_⟩
    · rw [map_cons, foldlM_cons, hs1]
      exact hs'
    · rw [map_cons, live_cons]
      exact hfed'.trans hperm

/-! ### The final drain -/

/-- The bundles stand in the order of their ranges, which do not overlap. -/
def Ascending (bs : List DecodedCommitBundle) : Prop :=
  bs.Pairwise fun b c => b.commitLsn < c.firstLsn

theorem foldlM_mergeSpilled (hkeys : Keys s) (hbs : ∀ b ∈ bs, s.appliedHighWater < b.commitLsn ∧
      ∃ range, b.redoRange = some range) :
    ∃ s', bs.foldlM mergeSpilled s = .ok s' ∧ Keys s' ∧ (buffered s').Perm (buffered s ++ bs) ∧
      s' = { s with buffer := s'.buffer, arrivalSeq := s'.arrivalSeq } := by
  induction bs generalizing s with
  | nil => exact ⟨s, rfl, hkeys, by simp, rfl⟩
  | cons b rest ih =>
    obtain ⟨_, range, hrange⟩ := hbs b mem_cons_self
    have hstep : mergeSpilled s b = .ok (enqueue s b range) := by
      rw [mergeSpilled, if_neg (by omega), hrange]
    have happlied : (enqueue s b range).appliedHighWater = s.appliedHighWater := rfl
    obtain ⟨s', hs', hkeys', hperm, hframe⟩ := ih (hkeys.enqueue hrange)
      fun c hc => by
        rw [happlied]
        exact hbs c (mem_cons_of_mem _ hc)
    refine ⟨s', ?_, hkeys', ?_, ?_⟩
    · rw [foldlM_cons, hstep]
      exact hs'
    · have hin : (buffered (enqueue s b range)).Perm (b :: buffered s) :=
        (enqueue_entries hkeys b range).map BufferedBundle.bundle
      exact hperm.trans ((hin.append_right rest).trans perm_middle.symm)
    · rw [hframe]
      rfl

theorem ascending_buffered (hkeys : Keys s) (hapart : (buffered s).Pairwise Apart) :
    Ascending (buffered s) := by
  rw [buffered, pairwise_map] at hapart
  rw [Ascending, buffered, pairwise_map]
  refine (s.buffer.sorted.and hapart).imp_of_mem ?_
  intro e e' he he' hpair
  obtain ⟨range, _, hrange, -, hkey⟩ := hkeys e he
  obtain ⟨range', _, hrange', -, hkey'⟩ := hkeys e' he'
  have hlt := hpair.1
  rw [hkey, hkey'] at hlt
  have hbase : range.base ≤ range'.base := Prod.Lex.monotone_fst_ofLex hlt.le
  rw [(redoRange_some hrange).1, (redoRange_some hrange').1] at hbase
  have hfirst := e'.bundle.firstLsn_le
  rcases hpair.2 with h | h
  · exact h
  · omega

theorem drain_eq_applyAll {previous : Option RedoLsnRange}
    (hranges : ∀ b ∈ bs, ∃ range, b.redoRange = some range) (hasc : Ascending bs)
    (hprev : ∀ p, previous = some p → ∀ b ∈ bs, p.end < b.firstLsn) :
    drain t bs previous s = applyAll t s bs := by
  induction bs generalizing s previous with
  | nil => rfl
  | cons b _ ih =>
    obtain ⟨hhead, htail⟩ := pairwise_cons.mp hasc
    obtain ⟨range, hrange⟩ := hranges b mem_cons_self
    obtain ⟨_, hend⟩ := redoRange_some hrange
    have hno : (previous.any fun p => range ≠ p && range.base ≤ p.end) = false := by
      cases hp : previous with
      | none => rfl
      | some p =>
        have hlt := hprev p hp b mem_cons_self
        have hdec : decide (range.base ≤ p.end) = false := decide_eq_false (by omega)
        simp [hdec]
    rw [drain, applyAll_cons]
    simp only [hrange, hno]
    refine bind_congr fun s1 => ih (fun c hc => hranges c (mem_cons_of_mem _ hc)) htail ?_
    intro p hp c hc
    cases hp
    rw [hend]
    exact hhead c hc

section
variable (h : Reading crc32c s₀ fed spilled s)
include h

theorem Reading.buffered_subset : ∀ b ∈ spilled, b ∈ fed :=
  fun _ hb => h.held.mem_iff.mp (mem_append_right _ hb)

theorem Reading.apart_drained (hfed : Spillable fed) :
    (buffered s ++ spilled.map reencoded).Pairwise Apart := by
  obtain ⟨hbuf, hspill, hcross⟩ := pairwise_append.mp (hfed.perm h.held).apart
  refine pairwise_append.mpr ⟨hbuf, ?_, ?_⟩
  · rw [pairwise_map]
    exact hspill.imp fun hbc => hbc.variant (.inr rfl) (.inr rfl)
  · intro b hb c hc
    obtain ⟨c, hmem, rfl⟩ := mem_map.mp hc
    exact (hcross b hb c hmem).variant (.inl rfl) (.inr rfl)

theorem Reading.finalDrain (hfed : Spillable fed)
    (hlive : ∀ b ∈ fed, s₀.appliedHighWater < b.commitLsn) :
    ∃ drained s', finalDrain t crc32c s = applyAll t s' drained ∧ Ascending drained ∧
      drained.Perm (buffered s ++ spilled.map reencoded) ∧
      s' = { s₀ with
        target := s'.target
        buffer := s'.buffer
        arrivalSeq := s'.arrivalSeq
        bufferMemoryBytes := s'.bufferMemoryBytes
        spillDir := s'.spillDir } := by
  have hloaded : ∀ b ∈ loadAllSpillBundles crc32c s.spillDir,
      s.appliedHighWater < b.commitLsn ∧ ∃ range, b.redoRange = some range := by
    intro b hb
    obtain ⟨c, hc, rfl⟩ := mem_map.mp (h.loaded.mem_iff.mp hb)
    have hlt := hlive c (h.buffered_subset c hc)
    exact ⟨h.applied ▸ hlt, redoRange_reencoded (by omega)⟩
  obtain ⟨s1, hs1, hkeys, hperm, hframe⟩ := foldlM_mergeSpilled h.keys hloaded
  have hdrained := hperm.trans (h.loaded.append_left (buffered s))
  have hasc := ascending_buffered hkeys
    ((hdrained.pairwise_iff fun hab => hab.symm).mpr (h.apart_drained hfed))
  refine ⟨buffered s1, { s1 with buffer := .empty }, ?_, hasc, hdrained, ?_⟩
  · rw [Wal.finalDrain, hs1]
    refine drain_eq_applyAll (forall_mem_map.mpr fun e he => ?_) hasc (by simp)
    obtain ⟨range, -, hrange, -⟩ := hkeys e he
    exact ⟨range, hrange⟩
  · rw [hframe, h.frame]

end

/-! ### Unit buffers -/

/-- The least limits: every bundle is spilled as soon as it is read. -/
def unitConfig : ReplayConfig := ⟨1, 1, true⟩

theorem spills_unitConfig : Spills unitConfig := ⟨rfl, le_refl 1, le_refl 1⟩

theorem popCount_zero (targetMemory bytes freed : Nat) (es : List BufferedBundle) :
    popCount 0 targetMemory bytes es freed = es.length := by
  induction es generalizing freed with
  | nil => rfl
  | cons _ _ ih => simp [popCount, ih]

theorem readRecord_unitConfig {r : LogRecord} (h : readRecord t crc32c unitConfig s r = .ok s') :
    s'.buffer.entries = [] := by
  obtain ⟨s1, -, h⟩ := bind_eq_ok.mp h
  have hstep : (if Overflows unitConfig s1 then overflowFlush t crc32c unitConfig s1
      else .ok s1) = .ok s' := h
  have hpop : popCount (unitConfig.maxBufferBundles / 2) (unitConfig.maxBufferBytes / 2)
      s1.bufferMemoryBytes s1.buffer.entries 0 = s1.buffer.entries.length :=
    popCount_zero _ _ _ _
  by_cases hover : Overflows unitConfig s1
  · have hspill : unitConfig.spillEnabled = true := rfl
    rw [if_pos hover, overflowFlush, if_pos hspill, spillEngage, hpop, take_length] at hstep
    cases hes : s1.buffer.entries with rw [hes] at hstep
    | nil =>
      simp only [isEmpty_nil, if_true, streamApplyMin, hes] at hstep
      cases hstep
      exact hes
    | cons e rest =>
      simp only [isEmpty_cons] at hstep
      cases hstep
      show s1.buffer.entries.drop (e :: rest).length = []
      rw [hes, drop_length]
  · rw [if_neg hover] at hstep
    cases hstep
    exact length_eq_zero_iff.mp (lt_one_iff.mp (not_le.mp (not_or.mp hover).1))

theorem foldlM_unitConfig {logs : List LogRecord} (hs : s.buffer.entries = [])
    (h : logs.foldlM (readRecord t crc32c unitConfig) s = .ok s') : s'.buffer.entries = [] := by
  induction logs generalizing s with
  | nil =>
    cases h
    exact hs
  | cons _ _ ih =>
    rw [foldlM_cons] at h
    obtain ⟨_, hs1, h⟩ := bind_eq_ok.mp h
    exact ih (readRecord_unitConfig hs1) h

/-! ## Whole replays -/

/-- An executor before its run: nothing buffered or spilled, and chains in the form
the transaction manager keeps them in. -/
structure Fresh (s : ReplayExecutor τ) : Prop where
  buffer : s.buffer.entries = []
  bytes : s.bufferMemoryBytes = 0
  spillDir : s.spillDir = []
  orphanPages : s.orphanPages = []
  wellFormed : ∀ k, WellFormed (s.versions k)

theorem Fresh.reading (crc32c : Bytes → UInt32) (h : Fresh s) :
    Reading crc32c (baseline s) [] [] (baseline s) where
  frame := rfl
  bytes := by
    show s.bufferMemoryBytes = (s.buffer.entries.map (·.bytesBudget)).sum
    rw [h.bytes, h.buffer]
    rfl
  keys e he := by
    have hmem : e ∈ s.buffer.entries := he
    rw [h.buffer] at hmem
    cases hmem
  held := by
    have hnil : buffered (baseline s) = [] := by
      show s.buffer.entries.map (·.bundle) = []
      rw [h.buffer]
      rfl
    rw [hnil]
    exact .refl _
  loaded := by
    show (loadAllSpillBundles crc32c s.spillDir).Perm []
    rw [h.spillDir]
    exact .refl _
  names file hfile := by
    have hmem : file ∈ s.spillDir := hfile
    rw [h.spillDir] at hmem
    cases hmem

section
variable (hR : ∀ b b', R b b' → b.Variant b')
include hR

theorem map_commitLsn_eq (h : Forall₂ R bs cs) : cs.map (·.commitLsn) = bs.map (·.commitLsn) := by
  induction h with
  | nil => rfl
  | cons hb _ ih => rw [map_cons, map_cons, ih, (hR _ _ hb).commitLsn]

theorem ascending_of_variants (h : Forall₂ R bs cs)
    (hapart : bs.Pairwise Apart) (hasc : Ascending cs) : Ascending bs := by
  have hcs : cs.Pairwise fun b c => b.commitLsn < c.commitLsn :=
    hasc.imp fun {b c} hbc => hbc.trans_le c.firstLsn_le
  have hbs : bs.Pairwise fun b c => b.commitLsn < c.commitLsn := by
    rw [← pairwise_map (f := fun b : DecodedCommitBundle => b.commitLsn),
      ← map_commitLsn_eq hR h, pairwise_map]
    exact hcs
  refine (hbs.and hapart).imp fun {b c} hbc => ?_
  rcases hbc.2 with hlt | hlt
  · exact hlt
  · have hfirst := b.firstLsn_le
    have hle := hbc.1
    omega

theorem forall₂_sorted
    {held variants drained : List DecodedCommitBundle} (hapart : fed.Pairwise Apart)
    (hheld : held.Perm fed) (hvar : Forall₂ R held variants) (hperm : drained.Perm variants)
    (hasc : Ascending drained) : Forall₂ R (sortBy firstLsn fed) drained := by
  obtain ⟨bs, hbs, hbs'⟩ := perm_comp_forall₂ hperm hvar.flip
  have hfed := hbs'.trans hheld
  have hascending := ascending_of_variants hR hbs.flip
    ((hfed.pairwise_iff fun hab => hab.symm).mpr hapart) hasc
  have hsorted : bs.Pairwise fun b c => b.firstLsn < c.firstLsn :=
    hascending.imp fun {b c} hbc => b.firstLsn_le.trans_lt hbc
  rw [← eq_sortBy_of_perm firstLsn hsorted hfed]
  exact hbs.flip

end

theorem applied_applyBundle (h : applyBundle t s b = .ok s') :
    s.appliedHighWater ≤ s'.appliedHighWater := by
  rcases applyBundle_cases h with ⟨-, rfl⟩ | ⟨hskip, _, _, -, -, rfl⟩
  · exact le_refl _
  · exact (lt_of_not_skipsBundle hskip).le

theorem skipsBundle_of_le (h : b.commitLsn ≤ s.appliedHighWater) : skipsBundle s b = true := by
  simp [skipsBundle, h]

theorem applyAll_live {applied : Nat} (hle : applied ≤ s.appliedHighWater) :
    applyAll t s (live applied bs) = applyAll t s bs := by
  induction bs generalizing s with
  | nil => rfl
  | cons b _ ih =>
    rw [live_cons]
    by_cases hb : applied < b.commitLsn
    · rw [if_pos hb, applyAll_cons, applyAll_cons]
      cases hs1 : applyBundle t s b with
      | error => rfl
      | ok => exact ih (hle.trans (applied_applyBundle hs1))
    · rw [if_neg hb, applyAll_cons_of_ok (applyBundle_of_skips (skipsBundle_of_le (by omega))),
        ih hle]

theorem redundantAll_live {applied : Nat} (hle : applied ≤ s.appliedHighWater) :
    RedundantAll t s (live applied bs) ↔ RedundantAll t s bs := by
  induction bs generalizing s with
  | nil => rfl
  | cons b _ ih =>
    rw [live_cons]
    by_cases hb : applied < b.commitLsn
    · rw [if_pos hb]
      refine and_congr_right fun _ => forall_congr' fun s1 => forall_congr' fun hs1 => ?_
      exact ih (hle.trans (applied_applyBundle hs1))
    · have hskip : skipsBundle s b = true := skipsBundle_of_le (by omega)
      rw [if_neg hb, ih hle]
      refine ⟨fun hrest => ⟨fun hno => ?_, fun s1 hs1 => ?_⟩, fun hall => ?_⟩
      · rw [hskip] at hno
        cases hno
      · rw [applyBundle_of_skips hskip] at hs1
        cases hs1
        exact hrest
      · exact hall.2 s (applyBundle_of_skips hskip)

theorem orphanPages_applyAll (h : applyAll t s bs = .ok f) : f.orphanPages = s.orphanPages := by
  induction bs generalizing s with
  | nil =>
    cases h
    rfl
  | cons _ _ ih =>
    obtain ⟨_, hs1, h⟩ := applyAll_cons_ok h
    rw [ih h]
    rcases applyBundle_cases hs1 with ⟨-, rfl⟩ | ⟨-, _, _, -, -, rfl⟩ <;> rfl

theorem orphanPages_seedAfterReplay (s : ReplayExecutor τ) :
    (seedAfterReplay s).orphanPages = s.orphanPages := by
  unfold seedAfterReplay
  simp only
  split <;> split <;> rfl

/-- What the final state of a replay that spills is, given the state its drain ends in. -/
def finished (s : ReplayExecutor τ) : ReplayExecutor τ := { seedAfterReplay s with spillDir := [] }

/-- A replay applies variants of the live bundles in ascending order; with unit
buffers all of them are re-encoded. -/
theorem run_drained (t : ReplayTarget τ) (crc32c : Bytes → UInt32) (hfresh : Fresh s₀)
    (hcfg : Spills cfg) {order : List CommitRecord} (hsp : Spillable (order.map (·.bundle))) :
    ∃ drained s', Aligned (baseline s₀) s' ∧ SameReads (baseline s₀) s' ∧
      run t crc32c cfg s₀ (order.map (·.log)) = (applyAll t s' drained).map finished ∧
      Forall₂ Variant
        (sortBy firstLsn (live (baseline s₀).appliedHighWater (order.map (·.bundle)))) drained ∧
      (cfg = unitConfig → drained =
        (sortBy firstLsn (live (baseline s₀).appliedHighWater (order.map (·.bundle)))).map
          reencoded) := by
  have hlive : Spillable (live (baseline s₀).appliedHighWater (order.map (·.bundle))) :=
    hsp.sublist filter_sublist
  obtain ⟨_, spilled, s, hs, hreading, hfed⟩ := Reading.run (t := t) hcfg
    (hfresh.reading crc32c) order (by simpa using hlive)
  rw [nil_append] at hfed
  have hspfed := hlive.perm hfed
  obtain ⟨drained, s', hdrain, hasc, hperm, hframe⟩ := hreading.finalDrain (t := t) hspfed
    fun b hb => by simpa using (mem_filter.mp (hfed.mem_iff.mp hb)).2
  have hversions : s'.versions = (baseline s₀).versions := by rw [hframe]
  have horphans : s'.orphanPages = [] := by
    rw [hframe]
    exact hfresh.orphanPages
  refine ⟨drained, s', ?_, ?_, ?_, ?_, ?_⟩
  · rw [hframe]
    exact ⟨rfl, rfl, rfl, rfl, rfl, rfl, hfresh.wellFormed, hfresh.wellFormed, fun _ _ _ => .rfl⟩
  · intro k snapshot
    rw [hversions]
  · simp only [Wal.run, hs, hdrain, bind, Except.bind]
    cases hf : applyAll t s' drained with
    | error => rfl
    | ok f =>
      have hnil : (seedAfterReplay f).orphanPages = [] := by
        rw [orphanPages_seedAfterReplay, orphanPages_applyAll hf, horphans]
      have hboot : bootstrapOrphans t (seedAfterReplay f) = .ok (seedAfterReplay f) := by
        rw [bootstrapOrphans, hnil]
      simp only [hboot, hcfg.enabled, if_true]
      rfl
  · have hvar : Forall₂ Variant (buffered s ++ spilled) (buffered s ++ spilled.map reencoded) := by
      refine rel_append (forall₂_same.mpr fun _ _ => .inl rfl) ?_
      rw [forall₂_map_right_iff]
      exact forall₂_same.mpr fun _ _ => .inr rfl
    exact forall₂_sorted (fun _ _ h => h) hlive.apart (hreading.held.trans hfed) hvar hperm hasc
  · intro hunit
    rw [hunit] at hs
    have hempty : buffered s = [] := by
      have hbase : (baseline s₀).buffer.entries = [] := hfresh.buffer
      rw [buffered, foldlM_unitConfig hbase hs]
      rfl
    rw [hempty, nil_append] at hperm
    have hheld := hreading.held
    rw [hempty, nil_append] at hheld
    have hvar : Forall₂ (fun b b' => b' = b.reencoded) spilled (spilled.map reencoded) := by
      rw [forall₂_map_right_iff]
      exact forall₂_same.mpr fun _ _ => rfl
    have hall := forall₂_sorted (fun _ _ h => .inr h) hlive.apart (hheld.trans hfed) hvar hperm hasc
    have hmap := forall₂_map_left_iff.mpr (hall.imp fun _ _ h => Eq.symm h)
    rw [forall₂_eq_eq_eq] at hmap
    exact hmap.symm

theorem applyAll_variants_ok (hv : Forall₂ Variant bs cs)
    (h : ∀ b ∈ bs, ∀ b', b.Variant b' → ∀ s, ∃ s', applyBundle t s b' = .ok s') :
    ∃ f, applyAll t s cs = .ok f := by
  induction hv generalizing s with
  | nil => exact ⟨s, rfl⟩
  | cons hb _ ih =>
    obtain ⟨_, hs1⟩ := h _ mem_cons_self _ hb s
    rw [applyAll_cons_of_ok hs1]
    exact ih fun b hb => h b (mem_cons_of_mem _ hb)

/-- No replay fails if the stores take every bundle with and without its deltas. -/
theorem run_ok (hfresh : Fresh s₀) (hcfg : Spills cfg) {order : List CommitRecord}
    (hsp : Spillable (order.map (·.bundle)))
    (h : ∀ b ∈ order.map (·.bundle), ∀ b', b.Variant b' → ∀ s, ∃ s', applyBundle t s b' = .ok s') :
    ∃ f, run t crc32c cfg s₀ (order.map (·.log)) = .ok f := by
  obtain ⟨_, s', -, -, hrun, hvar, -⟩ := run_drained t crc32c hfresh hcfg hsp
  obtain ⟨f, hf⟩ := applyAll_variants_ok (s := s') hvar fun b hb =>
    h b (mem_of_mem_filter ((mem_sortBy _).mp hb))
  exact ⟨finished f, by rw [hrun, hf]; rfl⟩

/-! ### Outcomes -/

/-- What a replay leaves behind: the value of every key at every snapshot, the
greatest commit LSN, the seeded `visible` and the next LSN to allocate. -/
structure ReplayOutcome where
  read : VersionKey → Nat → Option Bytes
  maxCommitLsn : Nat
  visible : Nat
  nextLsn : Nat

def ReplayExecutor.outcome (s : ReplayExecutor τ) : ReplayOutcome where
  read k snapshot := readAt (s.versions k) snapshot
  maxCommitLsn := s.appliedHighWater
  visible := s.visible
  nextLsn := s.counter + 1

/-- The bundles applied once each in ascending redo-range order, without a buffer. -/
def replayOnce (t : ReplayTarget τ) (s : ReplayExecutor τ) (bundles : List DecodedCommitBundle) :
    Except ReplayError (ReplayExecutor τ) :=
  (applyAll t (baseline s) (sortBy firstLsn bundles)).map finished

theorem versions_finished (s : ReplayExecutor τ) : (finished s).versions = s.versions := by
  unfold finished seedAfterReplay
  simp only
  split <;> split <;> rfl

theorem Aligned.outcome_finished (h : Aligned f f')
    (hreads : SameReads f f') : (finished f').outcome = (finished f).outcome := by
  have hread : (fun k snapshot => readAt (f'.versions k) snapshot) =
      fun k snapshot => readAt (f.versions k) snapshot := by
    funext k snapshot
    exact (hreads k snapshot).symm
  simp only [ReplayExecutor.outcome, versions_finished, hread]
  simp only [finished, seedAfterReplay, h.applied, h.redoFloor, h.checkpoint, h.counter, h.visible]
  split <;> split <;> rfl

theorem sameReads_of_outcome
    (h : (finished f').outcome = (finished f).outcome) : SameReads f f' := by
  intro k snapshot
  have hread := congrFun (congrFun (congrArg ReplayOutcome.read h) k) snapshot
  simp only [ReplayExecutor.outcome, versions_finished] at hread
  exact hread.symm

theorem map_finished_ok {x : Except ReplayError (ReplayExecutor τ)} (h : x.map finished = .ok f) :
    ∃ g, x = .ok g ∧ f = finished g := by
  cases x with
  | error => cases h
  | ok g =>
    cases h
    exact ⟨g, rfl, rfl⟩

theorem ascending_sortBy (h : bs.Pairwise Apart) : Ascending (sortBy firstLsn bs) := by
  have hperm := perm_sortBy firstLsn bs
  refine ((pairwise_sortBy firstLsn bs).and
    ((hperm.pairwise_iff fun hab => hab.symm).mpr h)).imp fun {b c} hbc => ?_
  rcases hbc.2 with hlt | hlt
  · exact hlt
  · have hle := hbc.1
    have hc := c.firstLsn_le
    omega

theorem sortBy_live_perm (h : bs.Pairwise Apart) (hperm : cs.Perm bs) (applied : Nat) :
    sortBy firstLsn (live applied cs) = live applied (sortBy firstLsn bs) := by
  have hasc := ascending_sortBy (h.sublist (filter_sublist (p := (applied < ·.commitLsn))))
  have hsorted : (sortBy firstLsn (live applied bs)).Pairwise fun b c => b.firstLsn < c.firstLsn :=
    hasc.imp fun {b c} hbc => b.firstLsn_le.trans_lt hbc
  rw [live, live, filter_sortBy]
  exact (eq_sortBy_of_perm firstLsn hsorted
    ((perm_sortBy firstLsn _).trans (hperm.symm.filter _))).symm

/-- Page stores as the redo of physiological operations writes them. -/
def pageTarget : ReplayTarget Redo.RedoStores :=
  { ReplayTarget.idle _ with
    applyPhysicalDelta := fun st op commitLsn =>
      (Redo.applyRecoveryDelta (fun _ => 0) st op commitLsn).map Prod.snd }

def emptyExecutor : ReplayExecutor Redo.RedoStores where
  versions _ := []
  counter := 0
  visible := 0
  installOrder := 0
  target := ⟨fun _ => none, fun _ => none, .new⟩
  checkpointFloor := 0
  incrementalRedoFloor := none
  appliedHighWater := 0
  buffer := .empty
  arrivalSeq := 0
  bufferMemoryBytes := 0
  spillDir := []
  orphanPages := []

theorem emptyExecutor_fresh : Fresh emptyExecutor :=
  ⟨rfl, rfl, rfl, rfl, fun _ => wellFormed_nil⟩

def bundleLog (formatVersion : Nat) (payload : Bytes) : LogRecord where
  formatVersion
  record :=
    { recordType := .commitBundle
      txnId := 1
      lsn := 1
      timestampMs := 0
      tenantId := 7
      payload }

def plainRecord : CommitRecord where
  log := bundleLog 1 plainBundleBytes
  bundle := plainBundle
  range := ⟨1, 1, by decide, by decide⟩
  isBundle := rfl
  decodes := by decide +kernel
  hasRange := by decide +kernel

def laterRecord : CommitRecord where
  log := bundleLog 1
    (leBytes 8 2 ++ leBytes 4 1 ++ (leBytes 8 3 ++ [1] ++ leBytes 4 1 ++ [8]) ++ leBytes 4 0)
  bundle := { plainBundle with commitLsn := 2, mvccWrites := .ofList [(3, some [8])] }
  range := ⟨2, 2, by decide, by decide⟩
  isBundle := rfl
  decodes := by decide +kernel
  hasRange := by decide +kernel

/-- A format-9 record with no section but the operations. -/
def deltaRecord (b : DecodedCommitBundle) (range : RedoLsnRange)
    (h : decodeCommitBundleForVersion (deltaBytes b.commitLsn b.deltas) 9 7 = .ok b)
    (hrange : b.redoRange = some range) : CommitRecord where
  log := bundleLog 9 (deltaBytes b.commitLsn b.deltas)
  bundle := b
  range
  isBundle := rfl
  decodes := h
  hasRange := hrange

def putRecord : CommitRecord :=
  deltaRecord putBundle ⟨1, 2, by decide, by decide⟩ (by decide +kernel) (by decide +kernel)

/-- A property page is formatted by one commit and filled by the next. -/
def allocRecord : CommitRecord :=
  deltaRecord { putBundle with
    commitLsn := 1, deltas := [pageOp .pageAlloc storeProps 1 (9 :: leBytes 8 0)] }
    ⟨1, 1, by decide, by decide⟩ (by decide +kernel) (by decide +kernel)

def fillRecord : CommitRecord :=
  deltaRecord { putBundle with deltas := [pageOp .putPropBlock storeProps 2 [4]] }
    ⟨2, 2, by decide, by decide⟩ (by decide +kernel) (by decide +kernel)

theorem redundant_of_deltaWrites_nil (h : b.deltaWrites = .ok []) : Redundant s b := by
  intro _ ds k v hds _ hfirst _
  cases h.symm.trans hds
  cases hfirst

theorem redundantAll_pair {t : ReplayTarget τ} (hb : b.deltaWrites = .ok [])
    (hc : c.deltaWrites = .ok []) : RedundantAll t s [b, c] :=
  ⟨redundant_of_deltaWrites_nil hb, fun _ _ =>
    ⟨redundant_of_deltaWrites_nil hc, fun _ _ => trivial⟩⟩

theorem applyBundle_ok_of_bare (t : ReplayTarget τ) (hvectors : t.vectorStore = none)
    (hdeltas : b.deltas = []) (hpages : b.stagedPages = []) (s : ReplayExecutor τ) :
    ∃ s', applyBundle t s b = .ok s' := by
  unfold applyBundle
  split
  · exact ⟨s, rfl⟩
  · simp only [replayedWrites, deltaWrites, hdeltas, projectDeltas, applyToTarget, applySections,
      hasPhysicalOwnerDelta, hpages, hvectors]
    split
    · split <;> exact ⟨_, rfl⟩
    · exact ⟨_, rfl⟩

end ArcGraph.Wal
