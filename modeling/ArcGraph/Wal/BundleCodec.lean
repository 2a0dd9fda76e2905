import ArcGraph.Wal.Bundle
import ArcGraph.Wal.Segment

/-!
# The bundle encoder and its round trip

`encode_commit_bundle_current` writes format 8. It sorts four sections and has no
section for deltas, so a decoder gets back `reencoded`: the bundle with those
sections sorted and without its deltas. The round trip needs every count and
length to fit its 32-bit field; `Encodable` collects these facts, and every
decoder establishes them.
-/

namespace ArcGraph.Wal
open Foundation List Keyed

/-! ## Encoding -/

/-- `u32::try_from(n).unwrap_or(u32::MAX)`, little-endian. -/
def u32Field (n : Nat) : Bytes := leBytes 4 (min n (2 ^ 32 - 1))

def u64Field (x : UInt64) : Bytes := leBytes 8 x.toNat

def lsnField (lsn : Nat) : Bytes := leBytes 8 lsn

def countedField {α : Type} (encode : α → Bytes) (as : List α) : Bytes :=
  u32Field as.length ++ as.flatMap encode

def stringField (s : String) : Bytes := u32Field (utf8 s).length ++ utf8 s

def encodeValue : Option Bytes → Bytes
  | none => [0] ++ leBytes 4 0
  | some value => [1] ++ (u32Field value.length ++ value)

def encodeEntry (e : SideChannelWrite) : Bytes :=
  u64Field e.tenantId ++ (u64Field e.key ++ encodeValue e.value)

def encodeStagedPage (p : DecodedStagedPage) : Bytes :=
  [p.kind.asByte] ++ (u64Field p.pageId ++ (u64Field p.tenantId ++
    (u32Field p.bytes.val.length ++ p.bytes.val)))

variable (a : AllocatorAdvance)

def encodeAllocatorAdvance : Bytes :=
  u64Field a.tenant ++ ([a.kind.asByte] ++ u64Field a.newHighWater)

variable (v : VectorPageEntry)

def encodeVectorPage : Bytes :=
  u64Field v.tenant ++ (leBytes 8 v.partition.toNat ++ (u64Field v.indexId ++ (u64Field v.pageId ++
    (lsnField v.commitLsn ++ (u32Field v.bytes.val.length ++ v.bytes.val)))))

variable (e : IdempotencyBindingEntry)

def encodeBinding : Bytes :=
  [e.op.asByte] ++ (u64Field e.tenant ++ ([e.kind] ++ (u64Field e.internalId ++
    stringField e.externalId)))

def encodeAclGrant (e : AclGrantEntry) : Bytes :=
  [e.op.asByte] ++ (u64Field e.tenant ++ (u64Field e.doc ++
    countedField stringField e.grants.entries))

/-! ### Sort keys -/

def entryKey (e : SideChannelWrite) : Nat ×ₗ Nat := toLex (e.tenantId.toNat, e.key.toNat)

def advanceKey : Nat ×ₗ Nat := toLex (a.tenant.toNat, a.kind.asByte.toNat)

def vectorKey : List Nat :=
  [v.tenant.toNat, v.partition.toNat, v.indexId.toNat, v.pageId.toNat, v.commitLsn]

def bindingKey : Nat ×ₗ Nat ×ₗ List Nat ×ₗ Nat :=
  toLex (e.tenant.toNat,
    toLex (e.kind.toNat, toLex (utf8Key e.externalId, e.op.asByte.toNat)))

namespace DecodedCommitBundle
variable (b : DecodedCommitBundle)

def entries : List SideChannelWrite :=
  b.mvccWrites.entries.map (fun e => ⟨b.primaryTenant, e.1, e.2⟩) ++ b.sidechannelWrites

def encodeV3 : Bytes :=
  lsnField b.commitLsn ++ (countedField encodeEntry (sortBy entryKey b.entries) ++
    countedField encodeStagedPage b.stagedPages)

def encodeV4 : Bytes :=
  b.encodeV3 ++ countedField encodeAllocatorAdvance (sortBy advanceKey b.allocatorAdvances)

def encodeV5 : Bytes :=
  b.encodeV4 ++ countedField encodeVectorPage (sortBy vectorKey b.vectorPages)

def encodeV7 : Bytes :=
  b.encodeV5 ++ countedField encodeBinding (sortBy bindingKey b.idempotencyBindings)

def encodeV8 : Bytes := b.encodeV7 ++ countedField encodeAclGrant b.aclGrants

/-- The bundle with the sections the encoder sorts in their sorted order. -/
def sortSections : DecodedCommitBundle :=
  { b with
    sidechannelWrites := sortBy entryKey b.sidechannelWrites
    allocatorAdvances := sortBy advanceKey b.allocatorAdvances
    vectorPages := sortBy vectorKey b.vectorPages
    idempotencyBindings := sortBy bindingKey b.idempotencyBindings }

/-- What a decoder gets back from the encoding. -/
def reencoded : DecodedCommitBundle := { b.sortSections with deltas := [] }

end DecodedCommitBundle

/-- `encode_commit_bundle_current` -/
def encodeCommitBundleCurrent (b : DecodedCommitBundle) : Bytes := b.encodeV8

/-! ## What fits the wire -/

def ValueFits (value : Option Bytes) : Prop := ∀ v, value = some v → v.length < 2 ^ 32

def StringFits (s : String) : Prop := (utf8 s).length < 2 ^ 32

structure AclGrantEntry.Fits (e : AclGrantEntry) : Prop where
  count : e.grants.entries.length < 2 ^ 32
  principals : ∀ s ∈ e.grants.entries, StringFits s

/-- The facts about a bundle that its encoding depends on. -/
structure DecodedCommitBundle.Encodable (b : DecodedCommitBundle) : Prop where
  commitLsn : b.commitLsn < 2 ^ 64
  foreign : ∀ w ∈ b.sidechannelWrites, w.tenantId ≠ b.primaryTenant
  writes : b.mvccWrites.entries.length + b.sidechannelWrites.length < 2 ^ 32
  ownValues : ∀ e ∈ b.mvccWrites.entries, ValueFits e.2
  foreignValues : ∀ w ∈ b.sidechannelWrites, ValueFits w.value
  pages : b.stagedPages.length < 2 ^ 32
  advances : b.allocatorAdvances.length < 2 ^ 32
  vectors : b.vectorPages.length < 2 ^ 32
  vectorLsns : ∀ v ∈ b.vectorPages, v.commitLsn < 2 ^ 64
  bindings : b.idempotencyBindings.length < 2 ^ 32
  externalIds : ∀ e ∈ b.idempotencyBindings, StringFits e.externalId
  grants : b.aclGrants.length < 2 ^ 32
  grantSets : ∀ e ∈ b.aclGrants, e.Fits

/-! ## Fields read back -/

variable {bytes : Bytes} {α : Type} {n : Nat} {s : String} (t : MvccTexts) (commitLsn : Nat)
  (what : String)

theorem u32Field_eq (h : n < 2 ^ 32) : u32Field n = leBytes 4 n := by
  have hmin : min n (2 ^ 32 - 1) = n := by omega
  rw [u32Field, hmin]

theorem fromUtf8_utf8 (s : String) : fromUtf8 (utf8 s) = some s := by
  have hbytes : (⟨(utf8 s).toArray⟩ : ByteArray) = s.toByteArray := by simp [utf8]
  rw [fromUtf8, hbytes, String.fromUTF8?, dif_pos s.isValidUTF8]
  rfl

theorem utf8_of_fromUtf8 (h : fromUtf8 bytes = some s) : utf8 s = bytes := by
  unfold fromUtf8 String.fromUTF8? at h
  split at h
  · cases h
    simp [utf8, String.fromUTF8]
  · cases h

section
open Parser

theorem reads_u64 (x : UInt64) (what : String) : Reads (readU64Le what) (u64Field x) x := by
  have hread : Reads (readU64Le what) (u64Field x) (UInt64.ofNat x.toNat) :=
    .map (.uint (by have := x.toNat_lt; omega) _)
  rwa [UInt64.ofNat_toNat] at hread

theorem reads_lsn (h : n < 2 ^ 64) (what : String) :
    Reads (readLsn what) (lsnField n) n := .uint (by omega) _

theorem reads_u32 (h : n < 2 ^ 32) (what : String) : Reads (readU32Le what) (u32Field n) n := by
  rw [u32Field_eq h]
  exact .uint (by omega) _

theorem reads_u8 (b : UInt8) (what : String) : Reads (readU8 what) [b] b := .byte b _

theorem reads_counted {p : Reader α} {encode : α → Bytes} {as : List α}
    (hn : as.length < 2 ^ 32) (h : ∀ a ∈ as, Reads p (encode a) a) (what : String) :
    Reads (readU32Le what >>= fun n => Parser.times p n) (countedField encode as) as :=
  .bind (reads_u32 hn what) (.times h)

theorem reads_string (h : StringFits s) (what : String) (overrun invalid : WalError) :
    Reads (readString what overrun invalid) (stringField s) s := by
  refine .bind (reads_u32 h what) (.last (.take ⟨utf8 s, rfl⟩ overrun) ?_)
  simp only [fromUtf8_utf8]
  exact .pure s

theorem reads_value {value : Option Bytes} (h : ValueFits value) :
    Reads (t.readValue commitLsn) (encodeValue value) value := by
  cases value with
  | none =>
    refine .bind (reads_u8 0 _) (.last (reads_u32 (n := 0) (by omega) _) ?_)
    exact .map (.require rfl _)
  | some v =>
    refine .bind (reads_u8 1 _) (.bind (reads_u32 (h v rfl) _) ?_)
    exact .map (f := fun x => some x.val) (.take ⟨v, rfl⟩ _)

variable {e : SideChannelWrite}

theorem reads_entry (h : ValueFits e.value) : Reads (t.readEntry commitLsn) (encodeEntry e) e := by
  refine .bind (reads_u64 e.tenantId _) ?_
  refine .map (a := (e.key, e.value)) ?_
  exact .bind (reads_u64 e.key _) (.map (reads_value t commitLsn h))

/-- A page after its length, which is checked before the bytes are taken. -/
theorem reads_pageBytes {β : Type} {k : { bs : Bytes // bs.length = pageSize } → Reader β} {b : β}
    {e : Nat → WalError} {f : WalError} {what : String}
    (hlen : bytes.length = pageSize) (hk : Reads (k ⟨bytes, hlen⟩) [] b) :
    Reads (do
      let n ← readU32Le what
      Parser.require (n = pageSize) (e n)
      k (← Parser.take pageSize f)) (u32Field bytes.length ++ bytes) b := by
  refine .bind (reads_u32 (n := bytes.length) (by rw [hlen, pageSize]; omega) _) ?_
  refine .skip (.require (decide_eq_true hlen) _) ?_
  exact .last (.take ⟨bytes, hlen⟩ _) hk

theorem reads_page {p : DecodedStagedPage} (label : String) (commitLsn : Nat) :
    Reads (readStagedPage label commitLsn) (encodeStagedPage p) p := by
  obtain ⟨kind, pageId, tenantId, _, hlen⟩ := p
  refine .bind (reads_u8 _ _) (.skip (.lift (a := kind) ?_) ?_)
  · cases kind <;> rfl
  refine .bind (reads_u64 pageId _) (.bind (reads_u64 tenantId _) ?_)
  exact reads_pageBytes hlen (.pure _)

theorem reads_advance (label : String) :
    Reads (readAllocatorAdvance label) (encodeAllocatorAdvance a) a := by
  obtain ⟨tenant, kind, newHighWater⟩ := a
  refine .bind (reads_u64 tenant _) (.bind (reads_u8 _ _) ?_)
  refine .skip (.lift (a := kind) ?_) (.map (reads_u64 newHighWater _))
  cases kind <;> rfl

theorem reads_vectorPage {v : VectorPageEntry} (h : v.commitLsn < 2 ^ 64) (commitLsn : Nat) :
    Reads (readVectorPageV5 commitLsn) (encodeVectorPage v) v := by
  obtain ⟨tenant, part, indexId, pageId, _, _, hlen⟩ := v
  have hpart : part.toNat < 2 ^ 32 := part.toNat_lt
  refine .bind (reads_u64 tenant _) (.bind (reads_lsn (n := part.toNat) (by omega) _) ?_)
  refine .bind (reads_u64 indexId _) (.bind (reads_u64 pageId _) ?_)
  refine .bind (reads_lsn h _) (reads_pageBytes hlen ?_)
  refine .skip (.require (decide_eq_true hpart) _) ?_
  rw [UInt32.ofNat_toNat]
  exact .pure _

theorem reads_binding {e : IdempotencyBindingEntry} (h : StringFits e.externalId)
    (commitLsn : Nat) : Reads (readIdempotencyBindingV7 commitLsn) (encodeBinding e) e := by
  obtain ⟨op, tenant, kind, internalId, _⟩ := e
  refine .bind (reads_u8 _ _) (.skip (.lift (a := op) ?_) ?_)
  · cases op <;> rfl
  refine .bind (reads_u64 tenant _) (.bind (reads_u8 kind _) ?_)
  exact .bind (reads_u64 internalId _) (.map (reads_string h _ _ _))

theorem reads_aclGrant {e : AclGrantEntry} (h : e.Fits) (commitLsn : Nat) :
    Reads (readAclGrant commitLsn) (encodeAclGrant e) e := by
  obtain ⟨op, tenant, doc, grants⟩ := e
  refine Reads.bind (reads_u8 _ _) (Reads.skip (Reads.lift (a := op) ?_) ?_)
  · cases op <;> rfl
  refine Reads.bind (reads_u64 tenant _) (Reads.bind (reads_u64 doc _) ?_)
  refine Reads.bind (reads_u32 h.count _) ?_
  have hset : (ofList grants.entries : GrantSet) = grants := ofList_entries grants
  have hread := Reads.map (f := fun l => AclGrantEntry.mk op tenant doc (ofList l))
    (Reads.times fun s hs => reads_string (h.principals s hs) "CommitBundle v8: acl_grant grant_len"
      (.corruption commitLsn "CommitBundle v8: acl_grant principal overruns payload")
      (.corruption commitLsn "CommitBundle v8: acl_grant principal not UTF-8"))
  rwa [hset] at hread

/-! ## Bundles read back -/

namespace DecodedCommitBundle
variable {b : DecodedCommitBundle}

variable (h : b.Encodable)
include h

theorem filter_entries : b.entries.filter (·.tenantId = b.primaryTenant) =
      (b.mvccWrites.entries.map fun e => ⟨b.primaryTenant, e.1, e.2⟩) ∧
    b.entries.filter (·.tenantId ≠ b.primaryTenant) = b.sidechannelWrites := by
  have hforeign : ∀ w ∈ b.sidechannelWrites, w.tenantId ≠ b.primaryTenant := h.foreign
  constructor <;> simpa [entries, filter_map, Function.comp_def] using hforeign

theorem own_of_entries :
    ((sortBy entryKey b.entries).filter (·.tenantId = b.primaryTenant)).map
      (fun e => (e.key, e.value)) = b.mvccWrites.entries := by
  have hsorted : (b.mvccWrites.entries.map fun e =>
      (⟨b.primaryTenant, e.1, e.2⟩ : SideChannelWrite)).Pairwise
        fun x y => entryKey x ≤ entryKey y := by
    refine pairwise_map.mpr (b.mvccWrites.sorted.imp fun {x y} hxy => ?_)
    exact Prod.Lex.toLex_le_toLex.mpr (.inr ⟨rfl, hxy.le⟩)
  rw [filter_sortBy, (filter_entries h).1, sortBy_eq_self _ hsorted, map_map]
  exact map_id _

theorem foreign_of_entries : (sortBy entryKey b.entries).filter (·.tenantId ≠ b.primaryTenant) =
      sortBy entryKey b.sidechannelWrites := by
  rw [filter_sortBy, (filter_entries h).2]

theorem Encodable.entry_fits (he : e ∈ sortBy entryKey b.entries) : ValueFits e.value := by
  rcases mem_append.mp ((mem_sortBy _).mp he) with he | he
  · obtain ⟨w, hw, rfl⟩ := mem_map.mp he
    exact h.ownValues w hw
  · exact h.foreignValues e he

theorem reads_section (t : MvccTexts) :
    Reads (t.readSection b.primaryTenant)
      (lsnField b.commitLsn ++ countedField encodeEntry (sortBy entryKey b.entries))
      { commitLsn := b.commitLsn
        primaryTenant := b.primaryTenant
        mvccWrites := b.mvccWrites
        sidechannelWrites := sortBy entryKey b.sidechannelWrites } := by
  have hcount : (sortBy entryKey b.entries).length < 2 ^ 32 := by
    simpa [entries] using h.writes
  refine .bind (reads_lsn h.commitLsn _) (.bind (reads_u32 hcount _) ?_)
  refine .last (.times fun e he => reads_entry t _ (h.entry_fits he)) ?_
  rw [own_of_entries h, ofList_entries, foreign_of_entries h]
  exact .pure _

theorem reads_sectionsV3 (label : String) :
    Reads (sectionsV3 b.primaryTenant label) b.encodeV3
      { commitLsn := b.commitLsn
        primaryTenant := b.primaryTenant
        mvccWrites := b.mvccWrites
        sidechannelWrites := sortBy entryKey b.sidechannelWrites
        stagedPages := b.stagedPages } := by
  rw [encodeV3, ← append_assoc]
  refine .bind (reads_section h _) (.map ?_)
  exact reads_counted h.pages (fun p _ => reads_page _ _) _

theorem reads_sectionsV5 : Reads (sectionsV5 b.primaryTenant) b.encodeV5
      { b.reencoded with idempotencyBindings := [], aclGrants := [] } := by
  rw [encodeV5, encodeV4, append_assoc]
  refine .bind (reads_sectionsV3 h _) (.bind (a := sortBy advanceKey b.allocatorAdvances) ?_
    (.map (a := sortBy vectorKey b.vectorPages) ?_))
  · exact reads_counted (by simpa using h.advances) (fun a _ => reads_advance a _) _
  · refine reads_counted (by simpa using h.vectors) (fun v hv => ?_) _
    exact reads_vectorPage (h.vectorLsns v ((mem_sortBy _).mp hv)) _

theorem reads_sectionsV8 :
    Reads (sectionsV8 b.primaryTenant) (encodeCommitBundleCurrent b) b.reencoded := by
  refine .bind (a := { b.reencoded with aclGrants := [] }) ?_ (.map ?_)
  · refine .bind (reads_sectionsV5 h) (.map ?_)
    refine reads_counted (by simpa using h.bindings) (fun e he => ?_) _
    exact reads_binding (h.externalIds e ((mem_sortBy _).mp he)) _
  · exact reads_counted h.grants (fun e he => reads_aclGrant (h.grantSets e he) _) _

end DecodedCommitBundle
end

theorem decode_current (bytes : Bytes) (primaryTenant : TenantId) :
    decodeCommitBundleForVersion bytes currentWalFormatVersion primaryTenant =
      decodeAll "CommitBundle v8" (sectionsV8 primaryTenant) bytes := rfl

/-! ## What decoders produce -/

open Parser

theorem ensures_u32 : Ensures (readU32Le what) (· < 2 ^ 32) :=
  (Ensures.uint 4 _).mono fun _ h => by omega

theorem ensures_lsn : Ensures (readLsn what) (· < 2 ^ 64) :=
  (Ensures.uint 8 _).mono fun _ h => by omega

theorem ensures_counted {p : Reader α} {P : α → Prop} (h : Ensures p P) (what : String) :
    Ensures (readU32Le what >>= fun n => Parser.times p n)
      fun as => as.length < 2 ^ 32 ∧ ∀ a ∈ as, P a :=
  .bind (ensures_u32 what) fun n hn =>
    (Ensures.times h n).mono fun _ has => ⟨has.1 ▸ hn, has.2⟩

theorem ensures_count (p : Reader α) (what : String) :
    Ensures (readU32Le what >>= fun n => Parser.times p n) fun as => as.length < 2 ^ 32 :=
  (ensures_counted (P := fun _ => True) (fun _ _ _ _ => trivial) what).mono fun _ h => h.1

theorem ensures_string (overrun invalid : WalError) :
    Ensures (readString what overrun invalid) StringFits := by
  refine .bind (ensures_u32 what) fun n hn => .skip fun bytes => ?_
  cases hs : fromUtf8 bytes.val with
  | none => exact .fail invalid
  | some s =>
    refine .pure ?_
    show (utf8 s).length < 2 ^ 32
    rw [utf8_of_fromUtf8 hs, bytes.property]
    exact hn

theorem ensures_value : Ensures (t.readValue commitLsn) ValueFits := by
  refine .skip fun kind => .bind (ensures_u32 _) fun n hn => ?_
  split
  · refine .skip fun _ => .pure ?_
    intro v hv
    cases hv
  · refine .skip fun bytes => .pure ?_
    intro v hv
    cases hv
    rw [bytes.property]
    exact hn
  · exact .fail _

theorem ensures_ownEntry : Ensures (t.readOwnEntry commitLsn) fun e => ValueFits e.2 :=
  .skip fun _ => .bind (ensures_value t commitLsn) fun _ hv => .pure hv

theorem ensures_entry : Ensures (t.readEntry commitLsn) fun e => ValueFits e.value :=
  .skip fun _ => .bind (ensures_ownEntry t commitLsn) fun _ hv => .pure hv

theorem ensures_binding (label : String) (commitLsn : Nat) (op : IdempotencyBindingOp) :
    Ensures (readBinding label commitLsn op) fun e => StringFits e.externalId :=
  .skip fun _ => .skip fun _ => .skip fun _ =>
    .bind (ensures_string _ _ _) fun _ hs => .pure hs

theorem ensures_bindingV7 :
    Ensures (readIdempotencyBindingV7 commitLsn) fun e => StringFits e.externalId :=
  .skip fun _ => .skip fun op => ensures_binding _ commitLsn op

theorem ensures_aclGrant : Ensures (readAclGrant commitLsn) AclGrantEntry.Fits := by
  refine .skip fun _ => .skip fun _ => .skip fun _ => .skip fun _ => ?_
  refine .bind (ensures_u32 _) fun n hn => ?_
  refine .bind (.times (ensures_string _ _ _) n) fun grants hgrants => .pure ?_
  constructor
  · exact (length_ofList_le grants).trans_lt (hgrants.1 ▸ hn)
  · exact fun s hs => hgrants.2 s (mem_of_mem_ofList hs)

theorem ensures_vectorPageV5 :
    Ensures (readVectorPageV5 commitLsn) fun v => v.commitLsn < 2 ^ 64 := by
  refine .skip fun _ => .skip fun _ => .skip fun _ => .skip fun _ => ?_
  refine .bind (ensures_lsn _) fun lsn hlsn => ?_
  exact .skip fun _ => .skip fun _ => .skip fun _ => .skip fun _ =>
    .pure hlsn

theorem ensures_vectorPageV9 :
    Ensures (readVectorPageV9 commitLsn) fun v => v.commitLsn < 2 ^ 64 := by
  refine .skip fun _ => .skip fun _ => .skip fun _ => .skip fun _ => ?_
  refine .skip fun _ => .bind (ensures_lsn _) fun lsn hlsn => ?_
  exact .skip fun _ => .skip fun _ => .skip fun _ => .pure hlsn

namespace DecodedCommitBundle

theorem encodable_of_writes {commitLsn : Nat} {primaryTenant : TenantId} {mvccWrites : MvccWrites}
    {sidechannelWrites : List SideChannelWrite} (hlsn : commitLsn < 2 ^ 64)
    (hforeign : ∀ w ∈ sidechannelWrites, w.tenantId ≠ primaryTenant)
    (hcount : mvccWrites.entries.length + sidechannelWrites.length < 2 ^ 32)
    (hown : ∀ e ∈ mvccWrites.entries, ValueFits e.2)
    (hvalues : ∀ w ∈ sidechannelWrites, ValueFits w.value) :
    Encodable { commitLsn, primaryTenant, mvccWrites, sidechannelWrites } where
  commitLsn := hlsn
  foreign := hforeign
  writes := hcount
  ownValues := hown
  foreignValues := hvalues
  pages := by simp
  advances := by simp
  vectors := by simp
  vectorLsns := by simp
  bindings := by simp
  externalIds := by simp
  grants := by simp
  grantSets := by simp

theorem ensures_ownSection (t : MvccTexts) (primaryTenant : TenantId) :
    Ensures (t.readOwnSection primaryTenant) Encodable := by
  refine .bind (ensures_lsn _) fun lsn hlsn => .bind (ensures_u32 _) fun n hn => ?_
  refine .bind (.times (ensures_ownEntry t lsn) n) fun entries hentries => ?_
  refine .pure (encodable_of_writes hlsn (by simp) ?_ ?_ (by simp))
  · exact (length_ofList_le entries).trans_lt (hentries.1 ▸ hn)
  · exact fun e he => hentries.2 e (mem_of_mem_ofList he)

theorem ensures_section (t : MvccTexts) (primaryTenant : TenantId) :
    Ensures (t.readSection primaryTenant) Encodable := by
  refine .bind (ensures_lsn _) fun lsn hlsn => .bind (ensures_u32 _) fun n hn => ?_
  refine .bind (.times (ensures_entry t lsn) n) fun entries hentries => ?_
  refine .pure (encodable_of_writes hlsn ?_ ?_ ?_ ?_)
  · intro w hw
    simpa using (mem_filter.mp hw).2
  · -- the two filters split the entries, and the map can only merge own ones
    have hsplit := length_eq_length_filter_add
      (l := entries) (fun e : SideChannelWrite => decide (e.tenantId = primaryTenant))
    have hown : (.ofList ((entries.filter (·.tenantId = primaryTenant)).map
        fun e => (e.key, e.value)) : MvccWrites).entries.length ≤ _ := length_ofList_le _
    rw [length_map] at hown
    simp only [decide_not] at hsplit ⊢
    omega
  · intro e he
    obtain ⟨w, hw, rfl⟩ := mem_map.mp (mem_of_mem_ofList he)
    exact hentries.2 w (mem_of_mem_filter hw)
  · exact fun w hw => hentries.2 w (mem_of_mem_filter hw)

section
variable (primaryTenant : TenantId)
include primaryTenant

theorem ensures_sectionsV1 : Ensures (sectionsV1 primaryTenant) Encodable :=
  .bind (ensures_ownSection _ primaryTenant) fun _ hb =>
    .bind (ensures_count _ _) fun _ hpages => .pure { hb with pages := hpages }

theorem ensures_sectionsV2 : Ensures (sectionsV2 primaryTenant) Encodable :=
  .bind (ensures_section _ primaryTenant) fun _ hb =>
    .bind (ensures_count _ _) fun _ hpages => .pure { hb with pages := hpages }

theorem ensures_sectionsV3 (label : String) : Ensures (sectionsV3 primaryTenant label) Encodable :=
  .bind (ensures_section _ primaryTenant) fun _ hb =>
    .bind (ensures_count _ _) fun _ hpages => .pure { hb with pages := hpages }

theorem ensures_sectionsV4 : Ensures (sectionsV4 primaryTenant) Encodable :=
  .bind (ensures_sectionsV3 primaryTenant _) fun _ hb =>
    .bind (ensures_count _ _) fun _ hadvances =>
      .pure { hb with advances := hadvances }

theorem ensures_sectionsV5 : Ensures (sectionsV5 primaryTenant) Encodable :=
  .bind (ensures_sectionsV3 primaryTenant _) fun b hb =>
    .bind (ensures_count _ _) fun _ hadvances =>
      .bind (ensures_counted (ensures_vectorPageV5 b.commitLsn) _) fun _ hvectors =>
        .pure
          { hb with advances := hadvances, vectors := hvectors.1, vectorLsns := hvectors.2 }

theorem ensures_sectionsV6 : Ensures (sectionsV6 primaryTenant) Encodable :=
  .bind (ensures_sectionsV5 primaryTenant) fun b hb =>
    .bind (ensures_counted (ensures_binding _ b.commitLsn _) _) fun _ hbindings =>
      .pure { hb with bindings := hbindings.1, externalIds := hbindings.2 }

theorem ensures_sectionsV7 : Ensures (sectionsV7 primaryTenant) Encodable :=
  .bind (ensures_sectionsV5 primaryTenant) fun b hb =>
    .bind (ensures_counted (ensures_bindingV7 b.commitLsn) _) fun _ hbindings =>
      .pure { hb with bindings := hbindings.1, externalIds := hbindings.2 }

theorem ensures_sectionsV8 : Ensures (sectionsV8 primaryTenant) Encodable :=
  .bind (ensures_sectionsV7 primaryTenant) fun b hb =>
    .bind (ensures_counted (ensures_aclGrant b.commitLsn) _) fun _ hgrants =>
      .pure { hb with grants := hgrants.1, grantSets := hgrants.2 }

theorem ensures_sectionsDelta (format : DeltaFormat) :
    Ensures (sectionsDelta primaryTenant format) Encodable := by
  refine .bind (ensures_section _ primaryTenant) fun b hb => .skip fun _ => ?_
  refine .bind (ensures_count _ _) fun _ hpages => ?_
  refine .bind (ensures_counted (ensures_vectorPageV9 b.commitLsn) _) fun _ hvectors => ?_
  refine .bind (ensures_count _ _) fun _ hadvances => ?_
  refine .bind (ensures_counted (ensures_bindingV7 b.commitLsn) _) fun _ hbindings => ?_
  refine .bind (ensures_counted (ensures_aclGrant b.commitLsn) _) fun _ hgrants => ?_
  refine .skip fun _ => .pure ?_
  exact
    { hb with
      pages := hpages
      vectors := hvectors.1
      vectorLsns := hvectors.2
      advances := hadvances
      bindings := hbindings.1
      externalIds := hbindings.2
      grants := hgrants.1
      grantSets := hgrants.2 }

end

theorem encodable_of_decode {formatVersion : Nat} {primaryTenant : TenantId}
    {b : DecodedCommitBundle}
    (h : decodeCommitBundleForVersion bytes formatVersion primaryTenant = .ok b) : b.Encodable := by
  unfold decodeCommitBundleForVersion at h
  split at h
  · exact (ensures_sectionsV1 primaryTenant).runAll h
  · exact (ensures_sectionsV2 primaryTenant).runAll h
  · exact (ensures_sectionsV3 primaryTenant _).runAll h
  · exact (ensures_sectionsV4 primaryTenant).runAll h
  · exact (ensures_sectionsV5 primaryTenant).runAll h
  · exact (ensures_sectionsV6 primaryTenant).runAll h
  · exact (ensures_sectionsV7 primaryTenant).runAll h
  · exact (ensures_sectionsV8 primaryTenant).runAll h
  · exact (ensures_sectionsDelta primaryTenant .v9).runAll h
  · exact (ensures_sectionsDelta primaryTenant .v10).runAll h
  · cases h

end DecodedCommitBundle
end ArcGraph.Wal
