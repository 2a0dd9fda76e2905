import ArcGraph.Wal.BundleCodec

/-!
# The format 8 round trip

`encode_commit_bundle_v8` takes any sections: its counts and lengths are clamped,
not checked. A bundle comes back from its bytes exactly when it is `Encodable`,
and then no other prefix or extension of these bytes decodes. What fits a WAL
record is `Encodable` as far as sizes go, so the clamp never acts on a bundle that
reaches the log.

Four sections come back sorted. For side-channel writes this is the documented
wire order, `(tenant, key)`.
-/

namespace ArcGraph.Wal
open Foundation Parser List

/-! ## Sizes -/

variable {α : Type} (encode : α → Bytes) (s : String)

theorem length_le_countedField {as : List α} {a : α}
    (ha : a ∈ as) : (encode a).length ≤ (countedField encode as).length := by
  obtain ⟨_, _, rfl⟩ := append_of_mem ha
  simp only [countedField, flatMap_append, flatMap_cons, length_append]
  omega

theorem count_le_countedField (h : ∀ a, 1 ≤ (encode a).length)
    (as : List α) : as.length ≤ (countedField encode as).length := by
  have hsum : as.length ≤ (as.flatMap encode).length := by
    induction as with
    | nil => exact Nat.le_refl 0
    | cons a =>
      have ha := h a
      rw [flatMap_cons, length_append, length_cons]
      omega
  rw [countedField, length_append]
  omega

@[simp] theorem length_u32Field (n : Nat) : (u32Field n).length = 4 := length_leBytes 4 _

@[simp] theorem length_u64Field (x : UInt64) : (u64Field x).length = 8 := length_leBytes 8 _

theorem length_le_encodeEntry {e : SideChannelWrite} {v : Bytes} (h : e.value = some v) :
    v.length ≤ (encodeEntry e).length := by
  simp only [encodeEntry, h, encodeValue, length_append]
  omega

theorem length_le_encodeBinding (e : IdempotencyBindingEntry) :
    (utf8 e.externalId).length ≤ (encodeBinding e).length := by
  simp only [encodeBinding, stringField, length_append]
  omega

theorem grants_le_encodeAclGrant (e : AclGrantEntry) :
    (countedField stringField e.grants.entries).length ≤ (encodeAclGrant e).length := by
  simp only [encodeAclGrant, length_append]
  omega

theorem length_le_stringField : (utf8 s).length ≤ (stringField s).length := by
  simp only [stringField, length_append]
  omega

theorem one_le_stringField : 1 ≤ (stringField s).length := by
  simp only [stringField, length_append, length_u32Field]
  omega

namespace DecodedCommitBundle
variable {b : DecodedCommitBundle}

/-- The LSNs of the bundle are 64-bit numbers. -/
structure Typed (b : DecodedCommitBundle) : Prop where
  commitLsn : b.commitLsn < 2 ^ 64
  vectorLsns : ∀ v ∈ b.vectorPages, v.commitLsn < 2 ^ 64

theorem encodable_of_sections (ht : b.Typed)
    (hforeign : ∀ w ∈ b.sidechannelWrites, w.tenantId ≠ b.primaryTenant)
    (hwrites : (countedField encodeEntry (sortBy entryKey b.entries)).length < 2 ^ 32)
    (hpages : (countedField encodeStagedPage b.stagedPages).length < 2 ^ 32)
    (hadvances : (countedField encodeAllocatorAdvance
      (sortBy advanceKey b.allocatorAdvances)).length < 2 ^ 32)
    (hvectors : (countedField encodeVectorPage (sortBy vectorKey b.vectorPages)).length < 2 ^ 32)
    (hbindings : (countedField encodeBinding
      (sortBy bindingKey b.idempotencyBindings)).length < 2 ^ 32)
    (hgrants : (countedField encodeAclGrant b.aclGrants).length < 2 ^ 32) : b.Encodable := by
  have hcount : b.entries.length =
      b.mvccWrites.entries.length + b.sidechannelWrites.length := by simp [entries]
  have hvalue : ∀ e ∈ b.entries, ValueFits e.value := by
    intro e he v hv
    have hpart := length_le_countedField encodeEntry ((mem_sortBy entryKey).mpr he)
    have hself := length_le_encodeEntry hv
    omega
  constructor
  · exact ht.commitLsn
  · exact hforeign
  · have h := count_le_countedField encodeEntry
      (fun e => by simp only [encodeEntry, length_append, length_u64Field]; omega)
      (sortBy entryKey b.entries)
    rw [length_sortBy, hcount] at h
    omega
  · exact fun e he => hvalue ⟨b.primaryTenant, e.1, e.2⟩
      (mem_append_left _ (mem_map.mpr ⟨e, he, rfl⟩))
  · exact fun w hw => hvalue w (mem_append_right _ hw)
  · have h := count_le_countedField encodeStagedPage
      (fun p => by simp only [encodeStagedPage, length_append, length_singleton]; omega)
      b.stagedPages
    omega
  · have h := count_le_countedField encodeAllocatorAdvance
      (fun a => by simp only [encodeAllocatorAdvance, length_append, length_u64Field]; omega)
      (sortBy advanceKey b.allocatorAdvances)
    rw [length_sortBy] at h
    omega
  · have h := count_le_countedField encodeVectorPage
      (fun v => by simp only [encodeVectorPage, length_append, length_u64Field]; omega)
      (sortBy vectorKey b.vectorPages)
    rw [length_sortBy] at h
    omega
  · exact ht.vectorLsns
  · have h := count_le_countedField encodeBinding
      (fun e => by simp only [encodeBinding, length_append, length_singleton]; omega)
      (sortBy bindingKey b.idempotencyBindings)
    rw [length_sortBy] at h
    omega
  · intro e he
    have hpart := length_le_countedField encodeBinding ((mem_sortBy bindingKey).mpr he)
    have hself := length_le_encodeBinding e
    show (utf8 e.externalId).length < 2 ^ 32
    omega
  · have h := count_le_countedField encodeAclGrant
      (fun e => by simp only [encodeAclGrant, length_append, length_singleton]; omega)
      b.aclGrants
    omega
  · intro e he
    have hpart := length_le_countedField encodeAclGrant he
    have hset := grants_le_encodeAclGrant e
    constructor
    · have hsize := count_le_countedField stringField one_le_stringField e.grants.entries
      omega
    · intro s hs
      have hstring := length_le_countedField stringField hs
      have hself := length_le_stringField s
      show (utf8 s).length < 2 ^ 32
      omega

theorem length_encodeV8 (b : DecodedCommitBundle) : (encodeCommitBundleCurrent b).length = 8 +
      (countedField encodeEntry (sortBy entryKey b.entries)).length +
      (countedField encodeStagedPage b.stagedPages).length +
      (countedField encodeAllocatorAdvance (sortBy advanceKey b.allocatorAdvances)).length +
      (countedField encodeVectorPage (sortBy vectorKey b.vectorPages)).length +
      (countedField encodeBinding (sortBy bindingKey b.idempotencyBindings)).length +
      (countedField encodeAclGrant b.aclGrants).length := by
  have hlsn : (lsnField b.commitLsn).length = 8 := length_leBytes 8 _
  simp only [encodeCommitBundleCurrent, encodeV8, encodeV7, encodeV5, encodeV4, encodeV3,
    length_append, hlsn]
  omega

theorem encodable_of_length (ht : b.Typed)
    (hforeign : ∀ w ∈ b.sidechannelWrites, w.tenantId ≠ b.primaryTenant)
    (hlen : (encodeCommitBundleCurrent b).length < 2 ^ 32) : b.Encodable := by
  rw [length_encodeV8] at hlen
  apply encodable_of_sections ht hforeign <;> omega

/-! ## Round trip -/

theorem encodable_of_reencoded (h : b.reencoded.Encodable) : b.Encodable where
  commitLsn := h.commitLsn
  foreign w hw := h.foreign w ((mem_sortBy entryKey).mpr hw)
  writes := by simpa [reencoded, sortSections] using h.writes
  ownValues := h.ownValues
  foreignValues w hw := h.foreignValues w ((mem_sortBy entryKey).mpr hw)
  pages := h.pages
  advances := by simpa [reencoded, sortSections] using h.advances
  vectors := by simpa [reencoded, sortSections] using h.vectors
  vectorLsns v hv := h.vectorLsns v ((mem_sortBy vectorKey).mpr hv)
  bindings := by simpa [reencoded, sortSections] using h.bindings
  externalIds e he := h.externalIds e ((mem_sortBy bindingKey).mpr he)
  grants := h.grants
  grantSets := h.grantSets

theorem decode_encode_iff (b : DecodedCommitBundle) :
    decodeCommitBundleForVersion (encodeCommitBundleCurrent b) currentWalFormatVersion
      b.primaryTenant = .ok b.reencoded ↔ b.Encodable := by
  constructor
  · intro h
    exact encodable_of_reencoded (encodable_of_decode h)
  · intro h
    rw [decode_current]
    exact (reads_sectionsV8 h).runAll _

/-- Among the prefixes and the extensions of an encoding only itself decodes. -/
theorem eq_encoding_of_decode (h : b.Encodable) {bytes : Bytes} {other : DecodedCommitBundle}
    (hcut : bytes <+: encodeCommitBundleCurrent b ∨ encodeCommitBundleCurrent b <+: bytes)
    (hdecode : decodeCommitBundleForVersion bytes currentWalFormatVersion b.primaryTenant =
      .ok other) : bytes = encodeCommitBundleCurrent b := by
  have hread := reads_sectionsV8 h
  rw [decode_current] at hdecode
  rcases hcut with ⟨rest, hrest⟩ | ⟨rest, rfl⟩ <;> by_contra hne
  · have hleft : rest ≠ [] := by
      rintro rfl
      exact hne (by rw [← hrest, append_nil])
    exact Reads.not_runAll (hrest ▸ hread) hleft _ hdecode
  · have hleft : rest ≠ [] := by
      rintro rfl
      exact hne (append_nil _)
    rw [decodeAll, hread.runAll_append hleft] at hdecode
    cases hdecode

/-- The round trip of format 8. A bundle comes back, with the sections sorted that
the encoder sorts, exactly when it is encodable; then no proper prefix and no
extension of its bytes decodes. A bundle that respects the encoder's contract on
tenants and whose bytes a WAL record takes is encodable. -/
theorem v8_round_trip (b : DecodedCommitBundle) :
    (decodeCommitBundleForVersion (encodeCommitBundleCurrent b) currentWalFormatVersion
      b.primaryTenant = .ok b.reencoded ↔ b.Encodable) ∧ (b.Encodable → ∀ bytes other,
      (bytes <+: encodeCommitBundleCurrent b ∨ encodeCommitBundleCurrent b <+: bytes) →
      decodeCommitBundleForVersion bytes currentWalFormatVersion b.primaryTenant = .ok other →
      bytes = encodeCommitBundleCurrent b) ∧
    (b.Typed → (∀ w ∈ b.sidechannelWrites, w.tenantId ≠ b.primaryTenant) →
      (encodeCommitBundleCurrent b).length ≤ WalRecord.maxPayloadLen → b.Encodable) := by
  refine ⟨decode_encode_iff b, fun h bytes other => eq_encoding_of_decode h, ?_⟩
  intro ht hforeign hlen
  refine encodable_of_length ht hforeign ?_
  unfold WalRecord.maxPayloadLen WalRecord.headerSize at hlen
  omega

/-- Two side-channel writes staged against the order of their tenants. -/
def foreignBundle : DecodedCommitBundle where
  commitLsn := 1
  primaryTenant := 7
  mvccWrites := .empty
  sidechannelWrites := [⟨2, 1, none⟩, ⟨1, 1, none⟩]

/-- Side-channel writes do not keep their order. -/
theorem v8_reorders_sidechannel :
    (decodeCommitBundleForVersion (encodeCommitBundleCurrent foreignBundle) 8 7).map
        (·.sidechannelWrites) = .ok [⟨1, 1, none⟩, ⟨2, 1, none⟩] ∧
      foreignBundle.sidechannelWrites = [⟨2, 1, none⟩, ⟨1, 1, none⟩] := by
  decide +kernel

end DecodedCommitBundle
end ArcGraph.Wal
