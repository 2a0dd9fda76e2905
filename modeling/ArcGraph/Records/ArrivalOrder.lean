import ArcGraph.Records.Isolation

/-!
# Direct-addressed pages and the order of arrival

On a fresh page each slot owns its directory entry and its cell, and all other bytes stay
zero. So the last record of each slot determines the page.
-/

namespace ArcGraph.Records
open Foundation Function Nat

namespace SlottedPage
variable {α : Type} (crc32c : Bytes → UInt32) (f : RecordFormat α) (header : PageHeader)

/-- Direct-addressed writes in order. -/
def writeAtSlots (p : SlottedPage) (ws : List (Nat × α)) : Except PageError SlottedPage :=
  ws.foldlM (fun p w => p.writeRecordAtSlot crc32c f w.1 w.2) p

def lastRecords (ws : List (Nat × α)) : Nat → Option α :=
  ws.foldl (fun m w => update m w.1 (some w.2)) fun _ => none

/-- The byte is in the directory entry or in the cell of the slot. -/
def Owns (len slot i : Nat) : Prop :=
  (slotOffset slot ≤ i ∧ i < slotOffset slot + slotSize) ∨
    (cellStart slot len ≤ i ∧ i < cellStart slot len + len)

def put (b : Buffer) (slot : Nat) (record : Bytes) : Buffer :=
  writeEntry (b.write (cellStart slot record.length) record) slot
    (cellStart slot record.length) record.length

/-- The page has the records `m` at their slots and nothing else. -/
structure Exactly (m : Nat → Option α) (p : SlottedPage) : Prop where
  header_eq : p.header = { header with
    slotCount := p.header.slotCount
    freeSpace := p.header.freeSpace
    checksum := crc32c (p.bytes.read slotAreaStart pageBodyBytes) }
  canonical : Canonical p f.size
  count : ∀ s, s < p.header.slotCount ↔ ∃ t, s ≤ t ∧ m t ≠ none
  owned : ∀ s r i, m s = some r → Owns f.size s i → p.bytes i = put .zero s (f.toBytes r) i
  others : ∀ i, (∀ s r, m s = some r → ¬ Owns f.size s i) → p.bytes i = 0

variable {crc32c f header} {b b' : Buffer} {slot t len n i : Nat} {record : Bytes}
  {m : Nat → Option α} {p p' : SlottedPage} {r : α}

theorem put_apart (h : ¬ Owns record.length slot i) : put b slot record i = b i := by
  simp only [Owns, slotSize] at h
  simp only [put, writeEntry, Buffer.write, length_leBytes]
  rw [if_neg (by omega), if_neg (by omega), if_neg (by omega)]

theorem put_owned (h : Owns record.length slot i) : put b slot record i = put b' slot record i := by
  simp only [Owns, slotSize] at h
  simp only [put, writeEntry, Buffer.write, length_leBytes]
  split
  · rfl
  · split
    · rfl
    · rw [if_pos (by omega), if_pos (by omega)]

/-- Where the bytes of a slot below `n` lie. -/
theorem Owns.bounds (h : Owns len slot i) (hslot : slot < n)
    (hfits : n * (len + slotSize) ≤ pageBodyBytes) :
    (slotOffset slot ≤ i ∧ i < slotOffset (slot + 1) ∧ i < slotOffset n) ∨
      (pageSize ≤ i + (slot + 1) * len ∧ i + slot * len < pageSize ∧ slotOffset n ≤ i) := by
  have hcells := cells_le hfits
  have hstart := cellStart_add hslot hfits
  have hmul : (slot + 1) * len ≤ n * len := mul_le_mul_right len hslot
  have hone : (slot + 1) * len = slot * len + len := by rw [add_mul, one_mul]
  rcases h with h | h
  · simp only [slotOffset, slotSize] at *
    omega
  · omega

theorem Owns.unique (h : Owns len slot i) (h' : Owns len t i) (hslot : slot < n) (ht : t < n)
    (hfits : n * (len + slotSize) ≤ pageBodyBytes) : slot = t := by
  have hb := h.bounds hslot hfits
  have hb' := h'.bounds ht hfits
  simp only [slotOffset, slotSize] at hb hb'
  have hmul : ∀ {s t}, s < t → (s + 1) * len ≤ t * len := fun h => mul_le_mul_right len h
  rcases lt_trichotomy slot t with hlt | heq | hlt
  · have := hmul hlt
    omega
  · exact heq
  · have := hmul hlt
    omega

theorem exactly_init (h : init crc32c header = .ok p) :
    Exactly crc32c f header (fun _ => none) p := by
  unfold init at h
  split at h <;> cases h <;>
    exact ⟨rfl, by simp [Canonical, recomputeChecksum], by simp [recomputeChecksum], by simp,
      fun _ _ => rfl⟩

section
variable (h : Exactly crc32c f header m p)
include h

theorem Exactly.unique (h' : Exactly crc32c f header m p') : p = p' := by
  have hcount : p.header.slotCount = p'.header.slotCount :=
    eq_of_forall_lt_iff fun s => (h.count s).trans (h'.count s).symm
  have hfree : p.header.freeSpace = p'.header.freeSpace := by
    have hc := h'.canonical
    rw [Canonical, ← hcount] at hc
    exact add_left_cancel (h.canonical.trans hc.symm)
  have hbytes : p.bytes = p'.bytes := by
    funext i
    by_cases hi : ∃ s r, m s = some r ∧ Owns f.size s i
    · obtain ⟨s, r, hr, hi⟩ := hi
      rw [h.owned s r i hr hi, h'.owned s r i hr hi]
    · simp only [not_exists, not_and] at hi
      rw [h.others i hi, h'.others i hi]
  refine SlottedPage.ext ?_ hbytes
  rw [h.header_eq, h'.header_eq, hcount, hfree, hbytes]

theorem Exactly.lt_count (hr : m slot = some r) : slot < p.header.slotCount :=
  (h.count slot).mpr ⟨slot, le_rfl, by simp [hr]⟩

/-- The space that a write adds to the page is zero already. -/
theorem Exactly.growFixed_eq (hle : p.header.slotCount ≤ n)
    (hfits : n * (f.size + slotSize) ≤ pageBodyBytes) : p.growFixed n f.size = p := by
  have hcells := cells_le hfits
  have hmul : p.header.slotCount * f.size ≤ n * f.size := mul_le_mul_right _ hle
  have hzero : ∀ i, (slotOffset p.header.slotCount ≤ i ∧ i < slotOffset n) ∨
      (pageSize ≤ i + n * f.size ∧ i + p.header.slotCount * f.size < pageSize) →
        p.bytes i = 0 := by
    intro i hi
    refine h.others i fun s r hr ho => ?_
    have hs := h.lt_count hr
    have hb := ho.bounds (hs.trans_le hle) hfits
    have hmul' : (s + 1) * f.size ≤ p.header.slotCount * f.size := mul_le_mul_right _ hs
    have : slotOffset (s + 1) ≤ slotOffset p.header.slotCount := slotOffset_mono hs
    omega
  unfold growFixed
  dsimp only
  split
  · refine SlottedPage.ext rfl (funext fun i => ?_)
    simp only [Buffer.clear]
    split
    · exact (hzero i (.inr (by omega))).symm
    · split
      · exact (hzero i (.inl ‹_›)).symm
      · rfl
  · rfl

theorem Exactly.write (hw : p.writeRecordAtSlot crc32c f slot r = .ok p') :
    Exactly crc32c f header (update m slot (some r)) p' := by
  obtain ⟨-, -, hw⟩ := bind_eq_ok.mp hw
  obtain ⟨-, -, hw⟩ := bind_eq_ok.mp hw
  have hlen := f.length_toBytes r
  have hcanonical := (places_writeFixedAtSlot (hlen ▸ hw)).2.2.1
  obtain ⟨-, -, -, -, hfits, -, hp'⟩ := writeFixedAtSlot_ok hw
  rw [h.growFixed_eq (le_max_right _ _) hfits] at hp'
  have hbytes : p'.bytes = put p.bytes slot (f.toBytes r) := by
    simp only [hp', put, place, recomputeChecksum, hlen]
  refine ⟨?_, hlen ▸ hcanonical, fun s => ?_, fun s r' i hr ho => ?_, fun i hi => ?_⟩
  · rw [hp', place, recomputeChecksum, h.header_eq]
  · have hcount : p'.header.slotCount = max (slot + 1) p.header.slotCount := by rw [hp']; rfl
    rw [hcount, lt_max_iff, h.count]
    constructor
    · rintro (hs | ⟨t, hst, ht⟩)
      · exact ⟨slot, by omega, by simp⟩
      · refine ⟨t, hst, ?_⟩
        rw [update_apply]
        split <;> simp [ht]
    · rintro ⟨t, hst, ht⟩
      by_cases heq : t = slot
      · exact .inl (by omega)
      · exact .inr ⟨t, hst, by rwa [update_of_ne heq] at ht⟩
  · rw [hbytes]
    rcases of_update_eq hr with ⟨rfl, ⟨⟩⟩ | ⟨heq, hr⟩
    · exact put_owned (hlen.symm ▸ ho)
    · have hs := (h.lt_count hr).trans_le (le_max_right (slot + 1) _)
      rw [put_apart fun ho' => heq (ho.unique (hlen ▸ ho') hs (by omega) hfits)]
      exact h.owned s r' i hr ho
  · have hslot := hi slot r (update_self ..)
    rw [hbytes, put_apart (hlen.symm ▸ hslot)]
    refine h.others i fun s r' hr ho => ?_
    by_cases heq : s = slot
    · exact hslot (heq ▸ ho)
    · exact hi s r' (by rwa [update_of_ne heq]) ho

end

theorem Exactly.writes (ws : List (Nat × α)) (h : Exactly crc32c f header m p)
    (hw : p.writeAtSlots crc32c f ws = .ok p') :
    Exactly crc32c f header (ws.foldl (fun m w => update m w.1 (some w.2)) m) p' := by
  induction ws generalizing m p with
  | nil =>
    cases hw
    exact h
  | cons w ws ih =>
    obtain ⟨q, hq, hw⟩ := bind_eq_ok.mp hw
    exact ih (h.write hq) hw

/-- Two sequences of direct-addressed writes to a fresh page that end with the same last
record of each slot leave the same page. -/
theorem writeAtSlots_arrival_order {ws ws' : List (Nat × α)} {q q' : SlottedPage}
    (hinit : init crc32c header = .ok p) (hw : p.writeAtSlots crc32c f ws = .ok q)
    (hw' : p.writeAtSlots crc32c f ws' = .ok q') (hsame : lastRecords ws = lastRecords ws') :
    q = q' := by
  have h := (exactly_init hinit).writes ws hw
  have h' := (exactly_init hinit).writes ws' hw'
  rw [← lastRecords] at h h'
  exact h.unique (hsame ▸ h')

def writeNodes (ws : List (Nat × NodeRecord)) : Except PageError SlottedPage :=
  freshNodePage.writeAtSlots (fun _ => 0) nodeFormat ws

theorem writeAtSlots_arrival_order_nodes :
    ∃ q, writeNodes [(1, nodeOf 11), (0, nodeOf 10)] = .ok q ∧
      writeNodes [(0, nodeOf 10), (1, nodeOf 11)] = .ok q := by
  have hinit : init (fun _ => 0) freshNodePage.header = .ok freshNodePage := rfl
  obtain ⟨q, hq⟩ : ∃ q, writeNodes [(1, nodeOf 11), (0, nodeOf 10)] = .ok q := ⟨_, rfl⟩
  obtain ⟨q', hq'⟩ : ∃ q, writeNodes [(0, nodeOf 10), (1, nodeOf 11)] = .ok q := ⟨_, rfl⟩
  have heq := writeAtSlots_arrival_order hinit hq hq' (by simp [lastRecords, update_comm])
  exact ⟨q, hq, heq ▸ hq'⟩

end SlottedPage
end ArcGraph.Records
