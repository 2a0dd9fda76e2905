import ArcGraph.Wal.BundleCodec

/-!
# Spill files

A replay whose buffer is full writes bundles to a spill file and reads them back at
its end. The file holds every bundle re-encoded in the current format, framed with
its primary tenant, under a checksum.

`load_write` says what comes back from a directory that was empty: the bundles
`reencoded`, or nothing at all when a length does not fit its field, since the
loader skips a file it cannot parse. The checksum is a parameter; the results
hold for any.
-/

namespace ArcGraph.Wal
open Foundation List

/-- Why a spill file is skipped. Each constructor is one message of the source. -/
inductive SpillError
  | tooShort (total : Nat)
  | crcMismatch (stored computed : Nat)
  | badMagic
  | unsupportedVersion (version : Nat)
  | truncatedEntryHeader
  | entryOverrunsTrailer (payloadLen : Nat)
  | unparsedBytes (n : Nat)
  | bundle (error : WalError)
deriving DecidableEq

/-- `ARCGSPIL` -/
def spillMagic : Bytes := [65, 82, 67, 71, 83, 80, 73, 76]

def spillFormatVersion : Nat := 1

def spillHeaderSize : Nat := 36

def spillTrailingCrcSize : Nat := 4

/-- A file's name holds the least and the greatest commit LSN in it. -/
structure SpillName where
  minLsn : Nat
  maxLsn : Nat
deriving DecidableEq

/-- The `.spill` files of a directory, in the order it lists them. -/
abbrev SpillDir := List (SpillName × Bytes)

def SpillDir.put (dir : SpillDir) (name : SpillName) (bytes : Bytes) : SpillDir :=
  dir.filter (·.1 ≠ name) ++ [(name, bytes)]

/-! ## Writing -/

def spillName (sorted : List DecodedCommitBundle) : SpillName where
  minLsn := (sorted.head?.map (·.commitLsn)).getD 0
  maxLsn := (sorted.getLast?.map (·.commitLsn)).getD 0

def spillHeader (sorted : List DecodedCommitBundle) : Bytes :=
  spillMagic ++ (leBytes 2 spillFormatVersion ++ (leBytes 2 0 ++ (u32Field sorted.length ++
    (lsnField (spillName sorted).minLsn ++ (lsnField (spillName sorted).maxLsn ++ leBytes 4 0)))))

variable (b : DecodedCommitBundle)

def spillEntry : Bytes :=
  [UInt8.ofNat currentWalFormatVersion] ++ (u64Field b.primaryTenant ++
    (u32Field (encodeCommitBundleCurrent b).length ++ encodeCommitBundleCurrent b))

def spillBody (sorted : List DecodedCommitBundle) : Bytes :=
  spillHeader sorted ++ sorted.flatMap spillEntry

section
variable (crc32c : Bytes → UInt32)

def spillFile (sorted : List DecodedCommitBundle) : Bytes :=
  spillBody sorted ++ leBytes spillTrailingCrcSize (crc32c (spillBody sorted)).toNat

def writeSpillBatch (dir : SpillDir) (bundles : List DecodedCommitBundle) : SpillDir :=
  if bundles.isEmpty then dir
  else
    let sorted := sortBy (·.commitLsn) bundles
    dir.put (spillName sorted) (spillFile crc32c sorted)

/-! ## Loading -/

/-- The number of bundles. The length check has made sure that the header is
there; the fields after the count are not looked at. -/
def readSpillHeader : Parser SpillError Nat := do
  let magic ← Parser.take 8 .badMagic
  Parser.require (magic.val = spillMagic) .badMagic
  let version ← Parser.uint 2 .badMagic
  Parser.require (version = spillFormatVersion) (.unsupportedVersion version)
  let _reserved ← Parser.take 2 .badMagic
  let n ← Parser.uint 4 .badMagic
  let _lsns ← Parser.take 20 .badMagic
  return n

def readSpillEntry : Parser SpillError DecodedCommitBundle := do
  let version ← Parser.byte .truncatedEntryHeader
  let tenant ← Parser.uint 8 .truncatedEntryHeader
  let payloadLen ← Parser.uint 4 .truncatedEntryHeader
  let payload ← Parser.take payloadLen (.entryOverrunsTrailer payloadLen)
  Parser.lift ((decodeCommitBundleForVersion payload.val version.toNat
    (UInt64.ofNat tenant)).mapError .bundle)

def readSpillBody : Parser SpillError (List DecodedCommitBundle) := do
  let n ← readSpillHeader
  Parser.times readSpillEntry n

def loadOneSpillFile (bytes : Bytes) : Except SpillError (List DecodedCommitBundle) :=
  let crcOffset := bytes.length - spillTrailingCrcSize
  let body := bytes.take crcOffset
  let stored := leValue (bytes.drop crcOffset)
  if bytes.length < spillHeaderSize + spillTrailingCrcSize then .error (.tooShort bytes.length)
  else if stored ≠ (crc32c body).toNat then .error (.crcMismatch stored (crc32c body).toNat)
  else readSpillBody.runAll (fun _ n => .unparsedBytes n) body

/-- What one file contributes to a load: one that does not parse is skipped. -/
def loadedFrom (bytes : Bytes) : List DecodedCommitBundle :=
  match loadOneSpillFile crc32c bytes with
  | .ok bundles => bundles
  | .error _ => []

def loadAllSpillBundles (dir : SpillDir) : List DecodedCommitBundle :=
  dir.flatMap fun file => loadedFrom crc32c file.2

end

/-! ## The round trip of a file -/

section
open Parser DecodedCommitBundle

def DecodedCommitBundle.PayloadFits : Prop :=
  (encodeCommitBundleCurrent b).length < 2 ^ 32

theorem run_readSpillEntry (rest : Bytes) :
    readSpillEntry.run (spillEntry b ++ rest) =
      (let len := min (encodeCommitBundleCurrent b).length (2 ^ 32 - 1)
      (Parser.take len (.entryOverrunsTrailer len) >>= fun payload => Parser.lift
        ((decodeCommitBundleForVersion payload.val currentWalFormatVersion
          b.primaryTenant).mapError .bundle)).run
          (encodeCommitBundleCurrent b ++ rest)) := by
  have htenant : b.primaryTenant.toNat < 256 ^ 8 := by
    have := b.primaryTenant.toNat_lt
    omega
  simp only [spillEntry, append_assoc, readSpillEntry]
  rw [(Reads.byte _ _).run_bind, u64Field, (Reads.uint htenant _).run_bind, u32Field,
    (Reads.uint (by omega) _).run_bind, UInt64.ofNat_toNat]
  rfl

variable {b : DecodedCommitBundle} {bs bundles out : List DecodedCommitBundle} {dir : SpillDir}

theorem reads_spillEntry (h : b.Encodable) (hfits : b.PayloadFits) :
    Reads readSpillEntry (spillEntry b) b.reencoded := by
  intro rest
  have hlen : min (encodeCommitBundleCurrent b).length (2 ^ 32 - 1) =
      (encodeCommitBundleCurrent b).length := by
    unfold PayloadFits at hfits
    omega
  have hdecode : decodeCommitBundleForVersion (encodeCommitBundleCurrent b)
      currentWalFormatVersion b.primaryTenant = .ok b.reencoded := by
    rw [decode_current]
    exact (reads_sectionsV8 h).runAll _
  rw [run_readSpillEntry, hlen]
  refine Reads.last (Reads.take ⟨encodeCommitBundleCurrent b, rfl⟩ _) (Reads.lift ?_) rest
  rw [hdecode]
  rfl

theorem run_spillEntry_of_not_fits (h : b.Encodable)
    (hfits : ¬ b.PayloadFits) (rest : Bytes) (out : DecodedCommitBundle × Bytes) :
    readSpillEntry.run (spillEntry b ++ rest) ≠ .ok out := by
  have hlen : min (encodeCommitBundleCurrent b).length (2 ^ 32 - 1) = 2 ^ 32 - 1 := by
    unfold PayloadFits at hfits
    omega
  rw [run_readSpillEntry, hlen]
  obtain ⟨cut, left, hsplit, hcut⟩ : ∃ cut left,
      encodeCommitBundleCurrent b = cut ++ left ∧ cut.length = 2 ^ 32 - 1 :=
    ⟨_, _, (take_append_drop (2 ^ 32 - 1) _).symm, by rw [length_take, Nat.min_comm, hlen]⟩
  have hleft : left ≠ [] := by
    rintro rfl
    unfold PayloadFits at hfits
    rw [hsplit, append_nil, hcut] at hfits
    omega
  rw [hsplit, append_assoc, (Reads.take ⟨cut, hcut⟩ _).run_bind]
  cases hdecode : decodeCommitBundleForVersion cut currentWalFormatVersion b.primaryTenant with
  | ok =>
    rw [decode_current] at hdecode
    exact absurd hdecode (Reads.not_runAll (hsplit ▸ reads_sectionsV8 h) hleft _)
  | error => exact fun hrun => by cases hrun

/-- The entry loop succeeds only on the right count and on payloads that fit. -/
theorem of_run_spillEntries (h : ∀ b ∈ bs, b.Encodable) {i n : Nat}
    (hrun : (Parser.timesFrom (fun _ => readSpillEntry) i n).run (bs.flatMap spillEntry) =
      .ok (out, [])) : n = bs.length ∧ (∀ b ∈ bs, b.PayloadFits) ∧ out = bs.map reencoded := by
  induction bs generalizing i n out with
  | nil =>
    cases n with
    | zero =>
      cases hrun
      exact ⟨rfl, by simp, rfl⟩
    | succ => cases hrun
  | cons b rest ih =>
    cases n with
    | zero => cases hrun -- the first entry is left unread
    | succ n =>
      have hb := h b mem_cons_self
      have hstep : (readSpillEntry >>= fun a => .timesFrom (fun _ => readSpillEntry) (i + 1) n
          >>= fun as => pure (a :: as)).run (spillEntry b ++ rest.flatMap spillEntry) =
            .ok (out, []) := hrun
      by_cases hfits : b.PayloadFits
      · rw [(reads_spillEntry hb hfits).run_bind, Parser.run_bind] at hstep
        split at hstep
        · cases hstep
        · rename_i tail left htail
          cases hstep
          obtain ⟨hn, hrest, rfl⟩ := ih (fun x hx => h x (mem_cons_of_mem _ hx)) htail
          exact ⟨by rw [hn, length_cons], forall_mem_cons.mpr ⟨hfits, hrest⟩, rfl⟩
      · rw [Parser.run_bind] at hstep
        split at hstep
        · cases hstep
        · rename_i hok
          exact absurd hok (run_spillEntry_of_not_fits hb hfits _ _)

theorem length_spillHeader (bs : List DecodedCommitBundle) :
    (spillHeader bs).length = spillHeaderSize := by
  simp [spillHeader, spillMagic, u32Field, lsnField, spillHeaderSize]

theorem reads_spillHeader (bs : List DecodedCommitBundle) :
    Reads readSpillHeader (spillHeader bs) (min bs.length (2 ^ 32 - 1)) := by
  refine .bind (.take ⟨spillMagic, rfl⟩ _) (.skip (.require (by rfl) _) ?_)
  refine .bind (.uint (by decide) _) (.skip (.require (by rfl) _) ?_)
  refine .bind (.take ⟨leBytes 2 0, rfl⟩ _) (.bind (.uint (by omega) _) ?_)
  exact .map (f := fun _ => min bs.length (2 ^ 32 - 1)) (.take (n := 20)
    ⟨lsnField (spillName bs).minLsn ++ (lsnField (spillName bs).maxLsn ++ leBytes 4 0),
      by simp [lsnField]⟩ _)

/-- Every count and length of the file fits its field. -/
structure SpillFits (bs : List DecodedCommitBundle) : Prop where
  count : bs.length < 2 ^ 32
  payloads : ∀ b ∈ bs, b.PayloadFits

theorem runAll_spillBody_iff (h : ∀ b ∈ bs, b.Encodable)
    (e : List DecodedCommitBundle → Nat → SpillError) :
    readSpillBody.runAll e (spillBody bs) = .ok out ↔ SpillFits bs ∧ out = bs.map reencoded := by
  constructor
  · intro hrun
    have hentries := run_of_runAll hrun
    rw [readSpillBody, spillBody, (reads_spillHeader bs).run_bind] at hentries
    obtain ⟨_, hfits, hout⟩ := of_run_spillEntries h hentries
    exact ⟨⟨by omega, hfits⟩, hout⟩
  · rintro ⟨hfits, rfl⟩
    have hcount : min bs.length (2 ^ 32 - 1) = bs.length := by
      have := hfits.count
      omega
    refine Reads.runAll (Reads.bind (reads_spillHeader bs) ?_) e
    rw [hcount]
    exact Reads.timesMap fun b hb => reads_spillEntry (h b hb) (hfits.payloads b hb)

theorem loadOne_spillFile (crc32c : Bytes → UInt32) (bs : List DecodedCommitBundle) :
    loadOneSpillFile crc32c (spillFile crc32c bs) =
      readSpillBody.runAll (fun _ n => .unparsedBytes n) (spillBody bs) := by
  have hlen : (spillFile crc32c bs).length = (spillBody bs).length + 4 := by
    simp [spillFile, spillTrailingCrcSize]
  have hoffset : (spillFile crc32c bs).length - spillTrailingCrcSize = (spillBody bs).length := by
    rw [hlen, spillTrailingCrcSize]
    omega
  have hbody : (spillFile crc32c bs).take (spillBody bs).length = spillBody bs := by
    simp [spillFile]
  have hstored : leValue ((spillFile crc32c bs).drop (spillBody bs).length) =
      (crc32c (spillBody bs)).toNat := by
    have hcrc : (crc32c (spillBody bs)).toNat < 256 ^ 4 := by
      have := (crc32c (spillBody bs)).toNat_lt
      omega
    simp only [spillFile, drop_left, spillTrailingCrcSize, leValue_leBytes 4 _ hcrc]
  have hlong : ¬ (spillFile crc32c bs).length < spillHeaderSize + spillTrailingCrcSize := by
    rw [hlen, spillBody, length_append, length_spillHeader, spillTrailingCrcSize]
    omega
  rw [loadOneSpillFile, hoffset, hbody, hstored, if_neg hlong, if_neg (by simp)]

theorem SpillFits.perm {cs : List DecodedCommitBundle} (h : SpillFits bs) (hp : cs.Perm bs) :
    SpillFits cs where
  count := hp.length_eq ▸ h.count
  payloads b hb := h.payloads b (hp.mem_iff.mp hb)

variable (crc32c : Bytes → UInt32)

theorem loadAll_put {name : SpillName} (bytes : Bytes) (hname : ∀ file ∈ dir, file.1 ≠ name) :
    loadAllSpillBundles crc32c (dir.put name bytes) =
      loadAllSpillBundles crc32c dir ++ loadedFrom crc32c bytes := by
  have hkept : dir.filter (·.1 ≠ name) = dir :=
    filter_eq_self.mpr fun file hfile => by simpa using hname file hfile
  rw [SpillDir.put, hkept, loadAllSpillBundles, flatMap_append, flatMap_singleton,
    loadAllSpillBundles]

theorem load_write (hname : ∀ file ∈ dir, file.1 ≠ spillName (sortBy (·.commitLsn) bundles))
    (h : ∀ b ∈ bundles, b.Encodable) (hfits : SpillFits bundles) :
    loadAllSpillBundles crc32c (writeSpillBatch crc32c dir bundles) =
      loadAllSpillBundles crc32c dir ++ (sortBy (·.commitLsn) bundles).map reencoded := by
  have hperm := perm_sortBy (·.commitLsn) bundles
  have hload := (runAll_spillBody_iff (fun b hb => h b (hperm.mem_iff.mp hb))
    fun _ n => .unparsedBytes n).mpr ⟨hfits.perm hperm, rfl⟩
  cases bundles with
  | nil => exact (append_nil _).symm
  | cons =>
    show loadAllSpillBundles crc32c (.put _ _ _) = _
    rw [loadAll_put crc32c _ hname, loadedFrom, loadOne_spillFile, hload]

theorem load_write_of_not_fits (h : ∀ b ∈ bundles, b.Encodable) (hfits : ¬ SpillFits bundles) :
    loadAllSpillBundles crc32c (writeSpillBatch crc32c [] bundles) = [] := by
  have hperm := perm_sortBy (·.commitLsn) bundles
  cases bundles with
  | nil => rfl
  | cons b rest =>
    show loadAllSpillBundles crc32c (.put _ _ _) = _
    rw [loadAll_put crc32c _ (by simp), loadedFrom, loadOne_spillFile]
    cases hload : readSpillBody.runAll (fun _ n => .unparsedBytes n)
        (spillBody (sortBy (·.commitLsn) (b :: rest))) with
    | error => rfl
    | ok =>
      have hsorted := ((runAll_spillBody_iff (fun x hx => h x (hperm.mem_iff.mp hx)) _).mp hload).1
      exact absurd (hsorted.perm hperm.symm) hfits

end

/-! ## Losslessness -/

namespace DecodedCommitBundle

/-- A bundle some decoder of a supported format produces. -/
def Producible : Prop :=
  ∃ bytes formatVersion primaryTenant,
    decodeCommitBundleForVersion bytes formatVersion primaryTenant = .ok b

variable {b : DecodedCommitBundle}

theorem Producible.encodable (h : b.Producible) : b.Encodable := by
  obtain ⟨_, _, _, hdecode⟩ := h
  exact encodable_of_decode hdecode

@[simp] theorem reencoded_reencoded (b : DecodedCommitBundle) :
    b.reencoded.reencoded = b.reencoded := by
  simp [reencoded, sortSections]

theorem sortSections_reencoded (b : DecodedCommitBundle) :
    b.reencoded.sortSections = b.reencoded := by
  simp [reencoded, sortSections]

theorem reencoded_of_deltas_nil (h : b.deltas = []) : b.reencoded = b.sortSections := by
  simp [reencoded, sortSections, h]

theorem reencoded_eq_self_iff : b.reencoded = b ↔ b.deltas = [] ∧ b.sortSections = b := by
  constructor
  · intro h
    have hdeltas : b.deltas = [] := h ▸ rfl
    exact ⟨hdeltas, reencoded_of_deltas_nil hdeltas ▸ h⟩
  · rintro ⟨hdeltas, hsorted⟩
    rw [reencoded_of_deltas_nil hdeltas, hsorted]

end DecodedCommitBundle

section
open DecodedCommitBundle
variable (crc32c : Bytes → UInt32) {bundles : List DecodedCommitBundle}

/-- What a load gives back, up to order. -/
theorem load_perm (h : ∀ b ∈ bundles, b.Encodable) (hfits : SpillFits bundles) :
    (loadAllSpillBundles crc32c (writeSpillBatch crc32c [] bundles)).Perm
      (bundles.map reencoded) := by
  rw [load_write crc32c (by simp) h hfits]
  exact (perm_sortBy _ bundles).map reencoded

theorem fits_of_length_eq (h : ∀ b ∈ bundles, b.Encodable)
    (hlen : (loadAllSpillBundles crc32c (writeSpillBatch crc32c [] bundles)).length =
      bundles.length) : SpillFits bundles := by
  by_contra hfits
  rw [load_write_of_not_fits crc32c h hfits] at hlen
  have hempty : bundles = [] := length_eq_zero_iff.mp hlen.symm
  subst hempty
  exact hfits ⟨by decide, by simp⟩

theorem map_reencoded_perm_iff :
    (bundles.map reencoded).Perm bundles ↔ ∀ b ∈ bundles, b.deltas = [] ∧ b.sortSections = b := by
  constructor
  · intro hperm b hb
    obtain ⟨c, _, rfl⟩ := mem_map.mp (hperm.mem_iff.mpr hb)
    exact reencoded_eq_self_iff.mp (reencoded_reencoded c)
  · intro hkept
    have hid : bundles.map reencoded = bundles := by
      refine (map_congr_left fun b hb => ?_).trans (map_id bundles)
      exact reencoded_eq_self_iff.mpr (hkept b hb)
    exact .of_eq hid

theorem map_sortSections_perm_iff :
    ((bundles.map reencoded).map sortSections).Perm (bundles.map sortSections) ↔
      ∀ b ∈ bundles, b.deltas = [] := by
  rw [map_map]
  constructor
  · intro hperm b hb
    have hmem := hperm.mem_iff.mpr (mem_map_of_mem hb)
    obtain ⟨c, _, hc⟩ := mem_map.mp hmem
    -- sorting sections keeps the deltas, and `c` has none once it is re-encoded
    calc b.deltas = b.sortSections.deltas := rfl
      _ = c.reencoded.sortSections.deltas := by rw [← hc]; rfl
      _ = [] := rfl
  · intro hkept
    refine .of_eq (map_congr_left fun b hb => ?_)
    show b.reencoded.sortSections = b.sortSections
    rw [sortSections_reencoded, reencoded_of_deltas_nil (hkept b hb)]

end

open DecodedCommitBundle in
/-- A spill of bundles that decoders produce gives them back exactly when they have
no deltas, their sections stand in the encoder's order and the lengths fit; and it
gives them back up to the order within sections exactly when they have no deltas
and the lengths fit. -/
theorem spill_lossless (crc32c : Bytes → UInt32) (bundles : List DecodedCommitBundle)
    (h : ∀ b ∈ bundles, b.Producible) :
    ((loadAllSpillBundles crc32c (writeSpillBatch crc32c [] bundles)).Perm bundles ↔
      SpillFits bundles ∧ ∀ b ∈ bundles, b.deltas = [] ∧ b.sortSections = b) ∧
    (((loadAllSpillBundles crc32c (writeSpillBatch crc32c [] bundles)).map sortSections).Perm
        (bundles.map sortSections) ↔ SpillFits bundles ∧ ∀ b ∈ bundles, b.deltas = []) := by
  have henc : ∀ b ∈ bundles, b.Encodable := fun b hb => (h b hb).encodable
  constructor
  · constructor
    · intro hperm
      have hfits := fits_of_length_eq crc32c henc hperm.length_eq
      exact ⟨hfits, map_reencoded_perm_iff.mp ((load_perm crc32c henc hfits).symm.trans hperm)⟩
    · rintro ⟨hfits, hkept⟩
      exact (load_perm crc32c henc hfits).trans (map_reencoded_perm_iff.mpr hkept)
  · constructor
    · intro hperm
      have hfits := fits_of_length_eq crc32c henc (by simpa using hperm.length_eq)
      have hload := (load_perm crc32c henc hfits).map sortSections
      exact ⟨hfits, map_sortSections_perm_iff.mp (hload.symm.trans hperm)⟩
    · rintro ⟨hfits, hkept⟩
      exact ((load_perm crc32c henc hfits).map sortSections).trans (map_sortSections_perm_iff.mpr hkept)

def plainBundle : DecodedCommitBundle where
  commitLsn := 1
  primaryTenant := 7
  mvccWrites := .ofList [(3, some [9])]

def plainBundleBytes : Bytes :=
  leBytes 8 1 ++ leBytes 4 1 ++ (leBytes 8 3 ++ [1] ++ leBytes 4 1 ++ [9]) ++ leBytes 4 0

theorem plainBundle_producible : plainBundle.Producible :=
  ⟨plainBundleBytes, 1, 7, by decide +kernel⟩

theorem spill_lossless_plainBundle :
    plainBundle.Producible ∧
      (loadAllSpillBundles (fun _ => 0) (writeSpillBatch (fun _ => 0) [] [plainBundle])).Perm
        [plainBundle] := by
  have hprod : ∀ b ∈ [plainBundle], b.Producible := by
    simpa using plainBundle_producible
  refine ⟨plainBundle_producible, ((spill_lossless (fun _ => 0) [plainBundle] hprod).1).mpr ?_⟩
  refine ⟨⟨by decide, ?_⟩, ?_⟩
  · simp only [mem_singleton, forall_eq, DecodedCommitBundle.PayloadFits]
    decide +kernel
  · simp only [mem_singleton, forall_eq]
    decide +kernel

def pageOp (kind : DeltaOpKind) (storeId : UInt16) (opLsn : Nat) (payload : Bytes) : DeltaOp where
  kind
  storeId
  tenantId := 7
  pageNo := 0
  slot := 0
  opLsn
  payload

/-- The node record 1, created at LSN 2. -/
def nodeRow : Bytes := leBytes 8 1 ++ leBytes 4 0 ++ leBytes 4 1 ++ replicate 40 0 ++ leBytes 8 2

def allocOp : DeltaOp := pageOp .pageAlloc storeRecord 1 (1 :: leBytes 8 0)

def putOp : DeltaOp := pageOp .putRecord storeRecord 2 nodeRow

/-- A delta bundle that formats a node page and puts a record on it. -/
def putBundle : DecodedCommitBundle where
  commitLsn := 2
  primaryTenant := 7
  mvccWrites := .empty
  deltas := [allocOp, putOp]

def opBytes (op : DeltaOp) : Bytes :=
  [op.kind.asByte] ++ leBytes 2 op.storeId.toNat ++ [0] ++ u64Field op.tenantId ++
    u64Field op.pageNo ++ leBytes 2 op.slot.toNat ++ lsnField op.opLsn ++
    u32Field op.payload.length ++ op.payload

/-- A format-9 payload with no section but the operations. -/
def deltaBytes (commitLsn : Nat) (ops : List DeltaOp) : Bytes :=
  lsnField commitLsn ++ leBytes 4 0 ++ leBytes 4 ops.length ++ ops.flatMap opBytes ++ replicate 20 0

theorem putBundle_producible : putBundle.Producible :=
  ⟨deltaBytes 2 putBundle.deltas, 9, 7, by decide +kernel⟩

/-- The format-9 bundle comes back without its operations and with a shorter range. -/
theorem spill_drops_deltas :
    putBundle.Producible ∧ ∀ crc32c : Bytes → UInt32,
      ¬ (loadAllSpillBundles crc32c (writeSpillBatch crc32c [] [putBundle])).Perm [putBundle] ∧
      ∃ b, loadAllSpillBundles crc32c (writeSpillBatch crc32c [] [putBundle]) = [b] ∧
        b.deltas = [] ∧ putBundle.deltas = [allocOp, putOp] ∧
        b.redoRange ≠ putBundle.redoRange := by
  refine ⟨putBundle_producible, fun crc32c => ?_⟩
  have henc : ∀ b ∈ [putBundle], b.Encodable := by
    simpa using putBundle_producible.encodable
  have hfits : SpillFits [putBundle] := by
    refine ⟨by decide, ?_⟩
    simp only [mem_singleton, forall_eq, DecodedCommitBundle.PayloadFits]
    decide +kernel
  have hload : loadAllSpillBundles crc32c (writeSpillBatch crc32c [] [putBundle]) =
      [putBundle.reencoded] := load_write crc32c (by simp) henc hfits
  rw [hload]
  refine ⟨fun hperm => ?_, putBundle.reencoded, rfl, rfl, rfl, by decide +kernel⟩
  have heq : putBundle.reencoded = putBundle := by simpa using hperm
  exact absurd (congrArg DecodedCommitBundle.deltas heq) (by decide +kernel)

end ArcGraph.Wal
