import ArcGraph.Wal.BundleRoundTrip
import ArcGraph.Wal.ReplayEffect

/-!
# The delta bundle encoder and its round trip

Formats 9 and 10 write a record once: an MVCC write whose bytes a `PutRecord` of
the same commit carries is left out, and a replay takes it from the delta. The
encoder checks that the two copies agree before it drops one; a tombstone is kept,
and wins over the delta, because a replay applies the listed writes first.

The main result says what a replay obtains from the encoding of a bundle: for each
key the listed write, and where there is none the version of the last `PutRecord`.
-/

namespace ArcGraph.Wal
open Foundation Parser List Reads WalRecord RedoLsnRange

/-! ## Encoding -/

namespace DeltaOpKind

theorem ofByte_asByte (kind : DeltaOpKind) : ofByte kind.asByte = some kind := by
  cases kind <;> rfl

end DeltaOpKind

variable (op : DeltaOp) (format : DeltaFormat)

namespace DeltaOp

def header : Bytes :=
  [op.kind.asByte] ++ (leBytes 2 op.storeId.toNat ++ ([0] ++ (u64Field op.tenantId ++
    (u64Field op.pageNo ++ (leBytes 2 op.slot.toNat ++ (lsnField op.opLsn ++
      leBytes 4 op.payload.length))))))

def encoded : Bytes := op.header ++ op.payload

/-- `encode_into_for_format` -/
def encodeForFormat : Except WalError Bytes := do
  (op.validateForFormat format).mapError .delta
  if 2 ^ 32 ≤ op.payload.length then
    throw (.corruption op.opLsn "DeltaOp payload length does not fit in u32")
  return op.encoded

end DeltaOp

def encodeDeltas (format : DeltaFormat) : List DeltaOp → Except WalError Bytes
  | [] => .ok []
  | op :: rest => do
      let bytes ← op.encodeForFormat format
      let more ← encodeDeltas format rest
      return bytes ++ more

/-- The loop of `validate_delta_order`: each operation is valid and has the LSN the
range gives its position. -/
def checkDeltas (format : DeltaFormat) (commitLsn : Nat) (range : RedoLsnRange) :
    Nat → List DeltaOp → Except WalError Unit
  | _, [] => .ok ()
  | index, op :: rest => do
      (op.validateForFormat format).mapError .delta
      let found := op.opLsn
      let expected := (range.opLsn index).getD 0
      if found ≠ expected then
        throw (.corruption commitLsn
          s!"CommitBundle v9 delta {index} op_lsn Lsn({found}), expected Lsn({expected})")
      checkDeltas format commitLsn range (index + 1) rest

def validateDeltaOrder (commitLsn : Nat) (deltas : List DeltaOp) (format : DeltaFormat) :
    Except WalError Unit :=
  match RedoLsnRange.endingAt commitLsn deltas.length with
  | none =>
    .error (.corruption commitLsn "CommitBundle v9 delta count underflows commit LSN range")
  | some range => do
      checkDeltas format commitLsn range 0 deltas
      validateDeltaPageAllocOrder commitLsn deltas
      validateDeltaExtentAllocOrder commitLsn deltas

variable (versions : DeltaVersions)

def DeltaVersions.get (k : VersionKey) : Option Bytes :=
  (versions.entries.find? (·.1 = k)).map (·.2)

/-- The entries a delta bundle still lists. One whose bytes the deltas carry is
dropped, one that disagrees with them is an error, a tombstone stays. -/
def elideEntries (commitLsn : Nat) (versions : DeltaVersions) :
    List SideChannelWrite → Except WalError (List SideChannelWrite)
  | [] => .ok []
  | e :: rest =>
    match versions.get e.versionKey, e.value with
    | some version, some value =>
      if value = version then elideEntries commitLsn versions rest
      else
        .error (.corruption commitLsn "PutRecord payload diverges from its MVCC version bytes")
    | _, _ => do
        let kept ← elideEntries commitLsn versions rest
        return e :: kept

def checkRetained (commitLsn : Nat) (pages : List DecodedStagedPage) : Except WalError Unit :=
  match pages.find? fun p => !p.kind.isRetained with
  | none => .ok ()
  | some p =>
    let name := p.kind.debug
    .error (.corruption commitLsn s!"CommitBundle v9 retained forbidden page image kind {name}")

variable (b : DecodedCommitBundle)

def deltaBundleBytes (entries : List SideChannelWrite)
    (deltas : Bytes) : Bytes :=
  (lsnField b.commitLsn ++ countedField encodeEntry (sortBy entryKey entries)) ++
    ((u32Field b.deltas.length ++ deltas) ++ (countedField encodeStagedPage b.stagedPages ++
      (countedField encodeVectorPage (sortBy vectorKey b.vectorPages) ++
        (countedField encodeAllocatorAdvance (sortBy advanceKey b.allocatorAdvances) ++
          (countedField encodeBinding (sortBy bindingKey b.idempotencyBindings) ++
            countedField encodeAclGrant b.aclGrants)))))

/-- `encode_commit_bundle_delta_for_format`, with the sections of `b` as arguments. -/
def encodeCommitBundleDelta :
    Except WalError Bytes := do
  if format = .v10 ∧ (b.idempotencyBindings ≠ [] ∨ b.aclGrants ≠ []) then
    throw (.corruption b.commitLsn
      "CommitBundle v10 forbids retired logical idempotency/ACL owner tails")
  validateDeltaOrder b.commitLsn b.deltas format
  let versions ← projectDeltas b.deltas
  let entries ← elideEntries b.commitLsn (.ofList versions) b.entries
  let deltas ← encodeDeltas format b.deltas
  checkRetained b.commitLsn b.stagedPages
  return deltaBundleBytes b entries deltas

/-! ## What an accepted bundle satisfies -/

variable (e : SideChannelWrite)

def keepsEntry : Bool :=
  (versions.get e.versionKey).isNone || e.value.isNone

def Agrees : Prop :=
  ∀ version value, versions.get e.versionKey = some version → e.value = some value →
    value = version

variable {commitLsn : Nat} {entries : List SideChannelWrite} {format : DeltaFormat}
  {range : RedoLsnRange} {deltas : List DeltaOp} {bytes : Bytes}

theorem elideEntries_ok {versions : DeltaVersions} {kept : List SideChannelWrite}
    (h : elideEntries commitLsn versions entries = .ok kept) :
    kept = entries.filter (keepsEntry versions) ∧ ∀ e ∈ entries, Agrees versions e := by
  induction entries generalizing kept with
  | nil =>
    cases h
    exact ⟨rfl, by simp⟩
  | cons e _ ih =>
    unfold elideEntries at h
    split at h
    · rename_i version value hversion hvalue
      split at h
      · rename_i heq
        obtain ⟨hkept, hrest⟩ := ih h
        have hdrop : keepsEntry versions e = false := by simp [keepsEntry, hversion, hvalue]
        refine ⟨by rw [hkept, filter_cons_of_neg (by simp [hdrop])], ?_⟩
        refine forall_mem_cons.mpr ⟨?_, hrest⟩
        intro version' value' hversion' hvalue'
        rw [hversion] at hversion'
        rw [hvalue] at hvalue'
        cases hversion'
        cases hvalue'
        exact heq
      · cases h
    · rename_i hone
      obtain ⟨_, hkept', h⟩ := bind_eq_ok.mp h
      cases h
      obtain ⟨rfl, hrest⟩ := ih hkept'
      have hkeep : keepsEntry versions e = true := by
        unfold keepsEntry
        cases hversion : versions.get e.versionKey with
        | none => rfl
        | some version =>
          cases hvalue : e.value with
          | none => rfl
          | some value => exact (hone version value hversion hvalue).elim
      refine ⟨by rw [filter_cons_of_pos hkeep], forall_mem_cons.mpr ⟨?_, hrest⟩⟩
      exact fun version value hversion hvalue => (hone version value hversion hvalue).elim

theorem checkDeltas_ok {index : Nat}
    (h : checkDeltas format commitLsn range index deltas = .ok ()) :
    ∀ k (hk : k < deltas.length), deltas[k].validateForFormat format = .ok () ∧
      deltas[k].opLsn = (range.opLsn (index + k)).getD 0 := by
  induction deltas generalizing index with
  | nil => exact fun k hk => absurd hk (Nat.not_lt_zero k)
  | cons _ _ ih =>
    obtain ⟨_, hvalid, h⟩ := bind_eq_ok.mp h
    obtain ⟨hlsn, h⟩ := ite_throw_eq_ok.mp h
    intro k hk
    cases k with
    | zero => exact ⟨mapError_eq_ok.mp hvalid, not_not.mp hlsn⟩
    | succ k =>
      have hnext := ih h k (by simpa using hk)
      rwa [Nat.add_right_comm] at hnext

theorem encodeDeltas_ok (h : encodeDeltas format deltas = .ok bytes) :
    bytes = deltas.flatMap DeltaOp.encoded ∧ ∀ op ∈ deltas, op.payload.length < 2 ^ 32 := by
  induction deltas generalizing bytes with
  | nil =>
    cases h
    exact ⟨rfl, by simp⟩
  | cons _ _ ih =>
    obtain ⟨_, hfirst, h⟩ := bind_eq_ok.mp h
    obtain ⟨_, hmore, h⟩ := bind_eq_ok.mp h
    cases h
    obtain ⟨_, _, hfirst⟩ := bind_eq_ok.mp hfirst
    obtain ⟨_, hfirst⟩ := ite_throw_eq_ok.mp hfirst
    cases hfirst
    obtain ⟨rfl, hrest⟩ := ih hmore
    exact ⟨rfl, forall_mem_cons.mpr ⟨by omega, hrest⟩⟩

theorem checkRetained_ok {pages : List DecodedStagedPage}
    (h : checkRetained commitLsn pages = .ok ()) : ∀ p ∈ pages, p.kind.isRetained = true := by
  unfold checkRetained at h
  split at h
  · rename_i hnone
    simpa using find?_eq_none.mp hnone
  · cases h

/-- Everything an accepted bundle has passed, and its bytes. -/
structure Accepted (format : DeltaFormat) (b : DecodedCommitBundle) (bytes : Bytes)
    (range : RedoLsnRange) (versions : List (VersionKey × Bytes)) : Prop where
  tails : format = .v10 → b.idempotencyBindings = [] ∧ b.aclGrants = []
  range_eq : RedoLsnRange.endingAt b.commitLsn b.deltas.length = some range
  valid : ∀ k (hk : k < b.deltas.length), b.deltas[k].validateForFormat format = .ok () ∧
    b.deltas[k].opLsn = (range.opLsn k).getD 0
  pageOrder : validateDeltaPageAllocOrder b.commitLsn b.deltas = .ok ()
  extentOrder : validateDeltaExtentAllocOrder b.commitLsn b.deltas = .ok ()
  projected : projectDeltas b.deltas = .ok versions
  agrees : ∀ e ∈ b.entries, Agrees (.ofList versions) e
  payloads : ∀ op ∈ b.deltas, op.payload.length < 2 ^ 32
  retained : ∀ p ∈ b.stagedPages, p.kind.isRetained = true
  bytes_eq : bytes = deltaBundleBytes b (b.entries.filter (keepsEntry (.ofList versions)))
    (b.deltas.flatMap DeltaOp.encoded)

theorem accepted_of_encode {b : DecodedCommitBundle}
    (h : encodeCommitBundleDelta format b = .ok bytes) :
    ∃ range versions, Accepted format b bytes range versions := by
  obtain ⟨htails, h⟩ := ite_throw_eq_ok.mp h
  obtain ⟨_, horder, h⟩ := bind_eq_ok.mp h
  obtain ⟨versions, hversions, h⟩ := bind_eq_ok.mp h
  obtain ⟨_, hentries, h⟩ := bind_eq_ok.mp h
  obtain ⟨_, hdeltas, h⟩ := bind_eq_ok.mp h
  obtain ⟨_, hretained, h⟩ := bind_eq_ok.mp h
  cases h
  unfold validateDeltaOrder at horder
  split at horder
  · cases horder
  · rename_i range hrange
    obtain ⟨_, hcheck, horder⟩ := bind_eq_ok.mp horder
    obtain ⟨_, hpage, hextent⟩ := bind_eq_ok.mp horder
    obtain ⟨rfl, hagrees⟩ := elideEntries_ok hentries
    obtain ⟨rfl, hpayloads⟩ := encodeDeltas_ok hdeltas
    refine ⟨range, versions, ?_, hrange, ?_, hpage, hextent, hversions, hagrees, hpayloads,
      checkRetained_ok hretained, rfl⟩
    · intro hv10
      simpa [hv10] using htails
    · intro k hk
      simpa using checkDeltas_ok hcheck k hk

/-! ## Deltas read back -/

section
theorem DeltaOp.length_header : op.header.length = 34 := by
  simp [header, u64Field, lsnField, length_leBytes]

theorem DeltaOp.field_header (hlsn : op.opLsn < 2 ^ 64) (hlen : op.payload.length < 2 ^ 32) :
    field op.header 0 1 = op.kind.asByte.toNat ∧
      field op.header 1 2 = op.storeId.toNat ∧ field op.header 3 1 = 0 ∧
      field op.header 4 8 = op.tenantId.toNat ∧ field op.header 12 8 = op.pageNo.toNat ∧
      field op.header 20 2 = op.slot.toNat ∧ field op.header 22 8 = op.opLsn ∧
      field op.header 30 4 = op.payload.length := by
  have hstore := op.storeId.toNat_lt
  have hslot := op.slot.toNat_lt
  have htenant := op.tenantId.toNat_lt
  have hpage := op.pageNo.toNat_lt
  have hlast : field (leBytes 4 op.payload.length ++ []) 0 4 = op.payload.length :=
    field_leBytes (by omega) []
  rw [append_nil] at hlast
  refine ⟨?_, ?_, ?_, ?_, ?_, ?_, ?_, ?_⟩ <;>
    simp (disch := simp) only [header, u64Field, lsnField, field_append, length_leBytes,
      length_singleton]
  · simp [field, leValue]
  · exact field_leBytes (by omega) _
  · simp [field, leValue]
  · exact field_leBytes (by omega) _
  · exact field_leBytes (by omega) _
  · exact field_leBytes (by omega) _
  · exact field_leBytes (by omega) _
  · exact hlast

variable {op : DeltaOp} {k : Nat}

theorem reads_deltaOp (hvalid : op.validateForFormat format = .ok ()) (hlsn : op.opLsn < 2 ^ 64)
    (hlen : op.payload.length < 2 ^ 32) : Reads (readDeltaOp format) op.encoded op := by
  obtain ⟨hkind, hstore, hreserved, htenant, hpage, hslot, hop, hpayload⟩ :=
    op.field_header hlsn hlen
  unfold field at hkind hstore hreserved htenant hpage hslot hop hpayload
  refine bind (take ⟨op.header, op.length_header⟩ _) ?_
  simp only [hkind, hstore, hreserved, htenant, hpage, hslot, hop]
  generalize leValue ((op.header.drop 30).take 4) = n at hpayload ⊢
  subst hpayload
  refine skip (require rfl _) (last (take ⟨op.payload, rfl⟩ _) ?_)
  simp only [UInt8.ofNat_toNat, UInt16.ofNat_toNat, UInt64.ofNat_toNat, DeltaOpKind.ofByte_asByte]
  exact skip (lift (mapError_eq_ok.mpr hvalid)) (pure op)

theorem opLsn_le_of_endingAt {n : Nat} (h : endingAt commitLsn n = some range) (hk : k < n) :
    (range.opLsn k).getD 0 ≤ commitLsn := by
  simp only [endingAt, new] at h
  split at h
  · cases h
  · split at h
    · cases h
    · cases h
      have hmax : max n 1 = n := by omega
      simp only [opLsn, len, hmax]
      split
      · exact Nat.zero_le _
      · simp only [Option.getD_some]
        omega

theorem reads_delta (commitLsn : Nat) (hvalid : op.validateForFormat format = .ok ())
    (hlsn : op.opLsn < 2 ^ 64) (hlen : op.payload.length < 2 ^ 32)
    (hop : op.opLsn = (range.opLsn k).getD 0) :
    Reads (readDelta format commitLsn range k) op.encoded op := by
  refine last (reads_deltaOp hvalid hlsn hlen) ?_
  exact skip (require (decide_eq_true hop) _) (pure op)

theorem reads_retainedPage {p : DecodedStagedPage} (h : p.kind.isRetained = true)
    (commitLsn : Nat) : Reads (readRetainedPage commitLsn) (encodeStagedPage p) p := by
  obtain ⟨kind, pageId, tenantId, _, hlen⟩ := p
  refine bind (reads_u8 _ _) (skip (lift (a := kind) ?_) ?_)
  · cases kind <;> rfl
  refine skip (require h _) ?_
  refine bind (reads_u64 pageId _) (bind (reads_u64 tenantId _) ?_)
  exact reads_pageBytes hlen (pure _)

theorem reads_vectorPageV9 {v : VectorPageEntry} (h : v.commitLsn < 2 ^ 64) (commitLsn : Nat) :
    Reads (readVectorPageV9 commitLsn) (encodeVectorPage v) v := by
  obtain ⟨tenant, part, indexId, pageId, _, _, hlen⟩ := v
  have hpart : part.toNat < 2 ^ 32 := part.toNat_lt
  refine bind (reads_u64 tenant _) (bind (reads_lsn (n := part.toNat) (by omega) _) ?_)
  refine skip (require (decide_eq_true hpart) _) ?_
  refine bind (reads_u64 indexId _) (bind (reads_u64 pageId _) ?_)
  refine bind (reads_lsn h _) (reads_pageBytes hlen ?_)
  rw [UInt32.ofNat_toNat]
  exact pure _

end

/-! ## Bundles read back -/

namespace DecodedCommitBundle

def listed (versions : DeltaVersions) : DecodedCommitBundle :=
  { b with
    mvccWrites :=
      ⟨b.mvccWrites.entries.filter fun e => keepsEntry versions ⟨b.primaryTenant, e.1, e.2⟩,
        b.mvccWrites.sorted.filter _⟩
    sidechannelWrites := b.sidechannelWrites.filter (keepsEntry versions) }

theorem entries_listed (versions : DeltaVersions) :
    (b.listed versions).entries = b.entries.filter (keepsEntry versions) := by
  simp only [entries, listed, filter_append, filter_map]
  rfl

variable {b : DecodedCommitBundle} {format : DeltaFormat} {bytes : Bytes} {range : RedoLsnRange}
  {versions : List (VersionKey × Bytes)}

theorem encodable_listed (h : Accepted format b bytes range versions) (ht : b.Typed)
    (hforeign : ∀ w ∈ b.sidechannelWrites, w.tenantId ≠ b.primaryTenant)
    (hlen : bytes.length < 2 ^ 32) :
    (b.listed (.ofList versions)).Encodable ∧ b.deltas.length < 2 ^ 32 := by
  have hbytes := h.bytes_eq
  rw [← entries_listed] at hbytes
  rw [hbytes] at hlen
  simp only [deltaBundleBytes, length_append] at hlen
  have hcount : b.deltas.length ≤ (countedField DeltaOp.encoded b.deltas).length :=
    count_le_countedField DeltaOp.encoded (fun op => by
      simp only [DeltaOp.encoded, length_append, DeltaOp.length_header]
      omega) b.deltas
  simp only [countedField, length_append] at hcount
  constructor
  · refine encodable_of_sections ⟨ht.commitLsn, ht.vectorLsns⟩ ?_ ?_ ?_ ?_ ?_ ?_ ?_
    · exact fun w hw => hforeign w (mem_of_mem_filter hw)
    all_goals
      simp only [listed] at hlen ⊢
      omega
  · omega

theorem reads_deltas (h : Accepted format b bytes range versions) (hlsn : b.commitLsn < 2 ^ 64)
    (hcount : b.deltas.length < 2 ^ 32) : Reads (readDeltas format b.commitLsn)
      (u32Field b.deltas.length ++ b.deltas.flatMap DeltaOp.encoded) b.deltas := by
  refine bind (reads_u32 hcount _) ?_
  rw [h.range_eq]
  have hall : Reads (Parser.timesFrom (readDelta format b.commitLsn range) 0 b.deltas.length)
      (b.deltas.flatMap DeltaOp.encoded) (b.deltas.map id) := by
    refine timesFrom fun k hk => ?_
    obtain ⟨hvalid, hop⟩ := h.valid k hk
    have hle := opLsn_le_of_endingAt h.range_eq hk
    rw [Nat.zero_add]
    exact reads_delta _ hvalid (by omega) (h.payloads _ (getElem_mem hk)) hop
  rw [map_id] at hall
  refine last hall ?_
  exact skip (lift h.pageOrder) (skip (lift h.extentOrder) (pure _))

def redecoded (b : DecodedCommitBundle) (versions : DeltaVersions) : DecodedCommitBundle :=
  { (b.listed versions).sortSections with deltas := b.deltas }

theorem reads_sectionsDelta (h : Accepted format b bytes range versions)
    (henc : (b.listed (.ofList versions)).Encodable) (hcount : b.deltas.length < 2 ^ 32) :
    Reads (sectionsDelta b.primaryTenant format) bytes (b.redecoded (.ofList versions)) := by
  have hbytes := h.bytes_eq
  rw [← entries_listed] at hbytes
  rw [hbytes]
  have hlsn : b.commitLsn < 2 ^ 64 := henc.commitLsn
  have hdeltas := reads_deltas h hlsn hcount
  refine bind (reads_section henc _) ?_
  refine bind hdeltas ?_
  refine bind
    (reads_counted henc.pages (fun p hp => reads_retainedPage (h.retained p hp) _) _) ?_
  refine bind (reads_counted ((length_sortBy vectorKey _).trans_lt henc.vectors)
    (fun v hv => reads_vectorPageV9 (henc.vectorLsns v ((mem_sortBy _).mp hv)) _) _) ?_
  refine bind (reads_counted ((length_sortBy advanceKey _).trans_lt henc.advances)
    (fun a _ => reads_advance a _) _) ?_
  refine bind (reads_counted ((length_sortBy bindingKey _).trans_lt henc.bindings)
    (fun e he => reads_binding (henc.externalIds e ((mem_sortBy _).mp he)) _) _) ?_
  refine last
    (reads_counted henc.grants (fun e he => reads_aclGrant (henc.grantSets e he) _) _) ?_
  have htails : (format = .v9 || ((sortBy bindingKey b.idempotencyBindings).isEmpty &&
      b.aclGrants.isEmpty)) = true := by
    cases format with
    | v9 => rfl
    | v10 =>
      obtain ⟨hbindings, hgrants⟩ := h.tails rfl
      rw [hbindings, hgrants]
      rfl
  exact skip (require htails _) (pure _)

theorem decode_delta (bytes : Bytes) (format : DeltaFormat) (primaryTenant : TenantId) :
    decodeCommitBundleForVersion bytes format.version primaryTenant =
      decodeAll "CommitBundle v9" (sectionsDelta primaryTenant format) bytes := by
  cases format <;> rfl

/-! ## What a replay obtains -/

/-- At most one side-channel write for each key, none of the primary tenant: the
contract of the encoder, which `coalesce_sidechannel_writes` establishes. -/
structure Coalesced (b : DecodedCommitBundle) : Prop where
  foreign : ∀ w ∈ b.sidechannelWrites, w.tenantId ≠ b.primaryTenant
  distinct : b.sidechannelWrites.Pairwise fun x y => x.versionKey ≠ y.versionKey

theorem explicitWrites_eq_map_entries (b : DecodedCommitBundle) :
    b.explicitWrites = b.entries.map fun e => (e.versionKey, e.value) := by
  simp only [explicitWrites, entries, map_append, map_map]
  rfl

theorem Coalesced.pairwise_entries (h : b.Coalesced) :
    b.entries.Pairwise fun x y => x.versionKey ≠ y.versionKey := by
  refine pairwise_append.mpr ⟨?_, h.distinct, ?_⟩
  · refine pairwise_map.mpr (b.mvccWrites.sorted.imp fun {x y} hlt heq => ?_)
    have hkey : x.1 = y.1 := congrArg Prod.snd heq
    exact absurd hlt (by simp [writeKey, hkey])
  · intro x hx y hy heq
    obtain ⟨e, _, rfl⟩ := mem_map.mp hx
    exact h.foreign y hy (congrArg Prod.fst heq).symm

theorem firstWrite_of_mem
    (h : entries.Pairwise fun x y => x.versionKey ≠ y.versionKey) {e : SideChannelWrite}
    (he : e ∈ entries) :
    firstWrite (entries.map fun e => (e.versionKey, e.value)) e.versionKey = some e.value := by
  induction entries with
  | nil => cases he
  | cons x _ ih =>
    obtain ⟨hx, hrest⟩ := pairwise_cons.mp h
    rcases mem_cons.mp he with rfl | he
    · simp [firstWrite]
    · have hne : x.versionKey ≠ e.versionKey := hx e he
      have hnext := ih hrest he
      simp only [firstWrite, map_cons] at hnext ⊢
      rw [find?_cons_of_neg (by simpa using hne)]
      exact hnext

theorem firstWrite_eq_none {k : VersionKey} (h : ∀ e ∈ entries, e.versionKey ≠ k) :
    firstWrite (entries.map fun e => (e.versionKey, e.value)) k = none := by
  rw [firstWrite, Option.map_eq_none_iff, find?_eq_none]
  refine forall_mem_map.mpr fun e he => ?_
  simpa using h e he

/-- Each key gets its listed write, or else what the deltas carry for it. -/
theorem firstWrite_listed (h : b.Coalesced) {versions : DeltaVersions}
    (hagrees : ∀ e ∈ b.entries, Agrees versions e) (k : VersionKey) :
    ((b.listed versions).explicitWrite k).or ((versions.get k).map some) =
      (b.explicitWrite k).or ((versions.get k).map some) := by
  have hdistinct := h.pairwise_entries
  simp only [explicitWrite, explicitWrites_eq_map_entries, entries_listed]
  by_cases hmem : ∃ e ∈ b.entries, e.versionKey = k
  · obtain ⟨e, he, rfl⟩ := hmem
    rw [firstWrite_of_mem hdistinct he]
    by_cases hkeep : keepsEntry versions e = true
    · rw [firstWrite_of_mem (hdistinct.filter _) (mem_filter.mpr ⟨he, hkeep⟩)]
    · -- the entry was dropped, and the delta carries its bytes
      have hnone : ∀ x ∈ b.entries.filter (keepsEntry versions), x.versionKey ≠ e.versionKey := by
        intro x hx heq
        obtain ⟨hx, hkeepx⟩ := mem_filter.mp hx
        have hfirst := firstWrite_of_mem hdistinct hx
        rw [heq, firstWrite_of_mem hdistinct he] at hfirst
        simp only [keepsEntry, heq, ← Option.some.inj hfirst] at hkeep hkeepx
        exact hkeep hkeepx
      rw [firstWrite_eq_none hnone]
      simp only [keepsEntry, Bool.or_eq_true, not_or, Option.isNone_iff_eq_none] at hkeep
      obtain ⟨version, hversion⟩ := Option.ne_none_iff_exists'.mp hkeep.1
      obtain ⟨value, hvalue⟩ := Option.ne_none_iff_exists'.mp hkeep.2
      rw [hversion, hvalue, hagrees e he version value hversion hvalue]
      rfl
  · have hne : ∀ e ∈ b.entries, e.versionKey ≠ k := fun e he heq => hmem ⟨e, he, heq⟩
    rw [firstWrite_eq_none hne, firstWrite_eq_none fun e he => hne e (mem_of_mem_filter he)]

theorem deltaWrites_eq (h : projectDeltas b.deltas = .ok versions) :
    b.deltaWrites = .ok ((.ofList versions : DeltaVersions).entries.map fun e => (e.1, some e.2)) := by
  rw [deltaWrites, h]
  rfl

theorem firstWrite_deltaVersions (versions : DeltaVersions) (k : VersionKey) :
    firstWrite (versions.entries.map fun e => (e.1, some e.2)) k = (versions.get k).map some := by
  simp only [firstWrite, DeltaVersions.get, find?_map, Option.map_map]
  rfl

/-- The semantic round trip of the delta formats. An accepted bundle decodes, with
its deltas as they were, and a replay obtains for every key the write the bundle
listed, or else the version its deltas carry. A listed value that disagrees with
the deltas is refused. -/
theorem delta_round_trip (format : DeltaFormat) (b : DecodedCommitBundle) :
    (∀ bytes, encodeCommitBundleDelta format b = .ok bytes → b.Typed → b.Coalesced →
      bytes.length ≤ WalRecord.maxPayloadLen → ∃ d projected writes,
        decodeCommitBundleForVersion bytes format.version b.primaryTenant = .ok d ∧
        d.deltas = b.deltas ∧ b.deltaWrites = .ok projected ∧ d.replayedWrites = .ok writes ∧
        ∀ k, firstWrite writes k = (b.explicitWrite k).or (firstWrite projected k)) ∧
    (∀ projected w value version, b.deltaWrites = .ok projected → w ∈ b.explicitWrites →
      w.2 = some value → firstWrite projected w.1 = some (some version) → value ≠ version →
      ∃ e, encodeCommitBundleDelta format b = .error e) := by
  constructor
  · intro bytes hencode ht hcoalesced hlen
    obtain ⟨range, versions, h⟩ := accepted_of_encode hencode
    unfold maxPayloadLen headerSize at hlen
    obtain ⟨henc, hcount⟩ := encodable_listed h ht hcoalesced.foreign (by omega)
    have hdecode := (reads_sectionsDelta h henc hcount).runAll
      fun b n => .corruption b.commitLsn s!"CommitBundle v9: {n} trailing bytes after decode"
    refine ⟨b.redecoded (.ofList versions), _, _, ?_, rfl, deltaWrites_eq h.projected,
      replayedWrites_of_deltaWrites (deltaWrites_eq h.projected), fun k => ?_⟩
    · rw [decode_delta]
      exact hdecode
    · rw [firstWrite_append, firstWrite_deltaVersions]
      -- the sorted sections list the same writes
      have hsorted := explicitWrite_reencoded (b.listed (.ofList versions)) k
      rw [← firstWrite_listed hcoalesced h.agrees k, ← hsorted]
      rfl
  · intro projected w value version hprojected hw hvalue hversion hne
    cases hencode : encodeCommitBundleDelta format b with
    | error e => exact ⟨e, rfl⟩
    | ok =>
      obtain ⟨range, versions, h⟩ := accepted_of_encode hencode
      rw [deltaWrites_eq h.projected] at hprojected
      cases hprojected
      rw [firstWrite_deltaVersions] at hversion
      rw [explicitWrites_eq_map_entries] at hw
      obtain ⟨e, he, rfl⟩ := mem_map.mp hw
      obtain ⟨_, hget, hsome⟩ := Option.map_eq_some_iff.mp hversion
      cases hsome
      exact absurd (h.agrees e he version value hget hvalue) hne

def nodeRecord : Bytes := 77 :: replicate 63 0

/-- One `PutRecord` that no listed write repeats. -/
def putOnly : DecodedCommitBundle where
  commitLsn := 1
  primaryTenant := 7
  mvccWrites := .empty
  deltas := [⟨.putRecord, storeRecord, 7, 1, 0, 1, nodeRecord⟩]

/-- A `PutRecord`, its copy among the listed writes, and a tombstone. -/
def putAndDelete : DecodedCommitBundle :=
  { putOnly with mvccWrites := .ofList [(77, some nodeRecord), (5, none)] }

theorem delta_round_trip_putAndDelete :
    ∃ bytes d projected writes, encodeCommitBundleDelta .v9 putAndDelete = .ok bytes ∧
      decodeCommitBundleForVersion bytes 9 7 = .ok d ∧ d.deltas = putAndDelete.deltas ∧
      putAndDelete.deltaWrites = .ok projected ∧ d.replayedWrites = .ok writes ∧
      ∀ k, firstWrite writes k = (putAndDelete.explicitWrite k).or (firstWrite projected k) := by
  have hlen : (encodeCommitBundleDelta .v9 putAndDelete).map length = .ok 155 := by
    decide +kernel
  cases hencode : encodeCommitBundleDelta .v9 putAndDelete with rw [hencode] at hlen
  | error =>
    cases hlen
  | ok bytes =>
    have hbytes : bytes.length = 155 := Except.ok.inj hlen
    obtain ⟨d, projected, writes, h⟩ := (delta_round_trip .v9 putAndDelete).1 bytes hencode
      ⟨by decide, by decide⟩ ⟨by decide, by decide⟩ (by rw [hbytes]; decide)
    exact ⟨bytes, d, projected, writes, rfl, h⟩

/-- The writes of a commit and those a replay obtains differ where only a delta
carries a record. -/
theorem delta_adds_putRecord :
    ((encodeCommitBundleDelta .v9 putOnly).bind fun bytes =>
        (decodeCommitBundleForVersion bytes 9 7).bind replayedWrites) =
      .ok [((7, 77), some nodeRecord)] ∧ putOnly.explicitWrites = [] := by
  decide +kernel

end DecodedCommitBundle
end ArcGraph.Wal
