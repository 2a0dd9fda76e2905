import ArcGraph.Records.SlottedPage

/-!
# What a page operation changes

Every operation that succeeds changes the directory entry of one slot and at most one
range of the record area, and may add holes to the directory. `Edit` says so, and each
operation below has one theorem that says which edit it is.
-/

namespace ArcGraph.Records
open Foundation Buffer Nat

def entryAt (b : Buffer) (slot : Nat) : Nat × Nat :=
  (b.uintAt (slotOffset slot) 2, b.uintAt (slotOffset slot + 2) 2)

variable {count slot : Nat}

theorem slotOffset_le (h : slot < count) : slotOffset slot + slotSize ≤ slotOffset count := by
  unfold slotOffset slotSize
  omega

theorem slotOffset_mono (h : slot ≤ count) : slotOffset slot ≤ slotOffset count := by
  unfold slotOffset slotSize
  omega

section
variable {b : Buffer} {slot t off len start stop : Nat} {bs : Bytes}

theorem entryAt_writeEntry_self (hoff : off < 2 ^ 16) (hlen : len < 2 ^ 16) :
    entryAt (writeEntry b slot off len) slot = (off, len) := by
  unfold entryAt writeEntry
  rw [uintAt_write_apart (.inl (by omega)), uintAt_write_self (by omega),
    uintAt_write_self (by omega)]

theorem entryAt_writeEntry_ne (h : t ≠ slot) :
    entryAt (writeEntry b slot off len) t = entryAt b t := by
  have hapart : slotOffset t + 4 ≤ slotOffset slot ∨ slotOffset slot + 4 ≤ slotOffset t := by
    unfold slotOffset slotSize
    omega
  -- both halves of the one entry are apart from both halves of the other
  have hread : ∀ i ≤ 2, (writeEntry b slot off len).uintAt (slotOffset t + i) 2 =
      b.uintAt (slotOffset t + i) 2 := by
    intro i hi
    unfold writeEntry
    rw [uintAt_write_apart (by rw [length_leBytes]; unfold Buffer.Apart; omega),
      uintAt_write_apart (by rw [length_leBytes]; unfold Buffer.Apart; omega)]
  exact Prod.ext (hread 0 (by omega)) (hread 2 le_rfl)

theorem entryAt_write (h : slotOffset t + slotSize ≤ start) :
    entryAt (b.write start bs) t = entryAt b t := by
  unfold slotSize at h
  unfold entryAt
  rw [uintAt_write_apart (.inl (by omega)), uintAt_write_apart (.inl (by omega))]

theorem entryAt_clear_apart (h : slotOffset t + slotSize ≤ start ∨ stop ≤ slotOffset t) :
    entryAt (b.clear start stop) t = entryAt b t := by
  unfold slotSize at h
  unfold entryAt
  rw [uintAt_clear_apart (by omega), uintAt_clear_apart (by omega)]

theorem entryAt_clear_self (hstart : start ≤ slotOffset t) (hstop : slotOffset t + slotSize ≤ stop) :
    entryAt (b.clear start stop) t = (0, 0) := by
  unfold slotSize at hstop
  unfold entryAt
  rw [uintAt_clear_self (by omega) (by omega), uintAt_clear_self (by omega) (by omega)]

theorem read_writeEntry (h : slotOffset slot + slotSize ≤ start) :
    (writeEntry b slot off len).read start stop = b.read start stop := by
  unfold slotSize at h
  unfold writeEntry
  rw [read_write_apart (.inr (by rw [length_leBytes]; omega)),
    read_write_apart (.inr (by rw [length_leBytes]; omega))]

end

namespace SlottedPage
variable (crc32c : Bytes → UInt32) {len start : Nat} {q : SlottedPage}

def SamePage (p p' : SlottedPage) : Prop :=
  p'.header = { p.header with
    checksum := p'.header.checksum
    slotCount := p'.header.slotCount
    freeSpace := p'.header.freeSpace }

section
variable {p p' : SlottedPage}

variable (h : SamePage p p')
include h

theorem SamePage.pageType_eq : p'.header.pageType = p.header.pageType := by
  rw [h]

theorem SamePage.pageId_eq : p'.header.pageId = p.header.pageId := by
  rw [h]

theorem SamePage.tenantId_eq : p'.header.tenantId = p.header.tenantId := by
  rw [h]

theorem SamePage.flags_eq : p'.header.flags = p.header.flags := by
  rw [h]

end

/-- `p'` differs from `p` in the entry of `slot`, in the `len` bytes of the record area
at `start`, and in holes behind the old directory. -/
structure Edit (p p' : SlottedPage) (slot start len : Nat) : Prop where
  same : SamePage p p'
  slotCount_eq : p'.header.slotCount = max p.header.slotCount (slot + 1)
  recordArea_le : p'.recordArea ≤ p.recordArea
  entry_ne : ∀ t < p.header.slotCount, t ≠ slot → p'.entry t = p.entry t
  entry_gap : ∀ t, p.header.slotCount ≤ t → t < p'.header.slotCount → t ≠ slot →
    p'.entry t = (0, 0)
  read_apart : ∀ off l, p.recordArea ≤ off → Buffer.Apart off l start len →
    p'.bytes.read off l = p.bytes.read off l

theorem Edit.trans {p p' : SlottedPage} (h : Edit p q slot start len)
    (h' : Edit q p' slot start len) : Edit p p' slot start len where
  same := by
    have hsame := h.same
    have hsame' := h'.same
    unfold SamePage at *
    rw [hsame', hsame]
  slotCount_eq := by
    rw [h'.slotCount_eq, h.slotCount_eq]
    omega
  recordArea_le := h'.recordArea_le.trans h.recordArea_le
  entry_ne t ht hne := by
    rw [h'.entry_ne t (by rw [h.slotCount_eq]; omega) hne, h.entry_ne t ht hne]
  entry_gap t ht hlt hne := by
    have hq : t < q.header.slotCount := by
      have hcount := h.slotCount_eq
      have hcount' := h'.slotCount_eq
      omega
    rw [h'.entry_ne t hq hne, h.entry_gap t ht hq hne]
  read_apart off l hoff hapart := by
    rw [h'.read_apart off l (h.recordArea_le.trans hoff) hapart, h.read_apart off l hoff hapart]

/-- `q` is `p` with the directory made ready for a record in `slot`. -/
structure Prepared (p q : SlottedPage) (slot newCount : Nat) : Prop where
  same : SamePage p q
  entry_eq : ∀ t < p.header.slotCount, q.entry t = p.entry t
  entry_gap : ∀ t, p.header.slotCount ≤ t → t < newCount → t ≠ slot → q.entry t = (0, 0)
  read_eq : ∀ off l, p.recordArea ≤ off → q.bytes.read off l = p.bytes.read off l

section
variable {crc32c}
variable {p q : SlottedPage} {slot start newCount newFree : Nat} {record : Bytes}

theorem entry_eq_entryAt (t : Nat) : p.entry t = entryAt p.bytes t := rfl

theorem slotOffset_le_recordArea : slotOffset p.header.slotCount ≤ p.recordArea :=
  le_add_right _ _

theorem Prepared.refl (h : newCount ≤ max p.header.slotCount (slot + 1))
    (hslot : slot ≤ p.header.slotCount) : Prepared p p slot newCount := by
  refine ⟨rfl, fun _ _ => rfl, fun t ht hlt hne => ?_, fun _ _ _ => rfl⟩
  omega

theorem Prepared.edit_place (hq : Prepared p q slot newCount)
    (hcount : newCount = max p.header.slotCount (slot + 1))
    (harea : slotOffset newCount + newFree ≤ p.recordArea) (hstart : slotOffset newCount ≤ start) :
    Edit p (q.place crc32c slot start record newCount newFree) slot start record.length := by
  have hslot : slotOffset slot + slotSize ≤ slotOffset newCount := slotOffset_le (by omega)
  have hentry : ∀ t < newCount, t ≠ slot →
      (q.place crc32c slot start record newCount newFree).entry t = q.entry t := by
    intro t ht hne
    change entryAt (writeEntry _ _ _ _) t = _
    rw [entryAt_writeEntry_ne hne, entryAt_write ((slotOffset_le ht).trans hstart),
      entry_eq_entryAt]
  refine ⟨?_, hcount, harea, ?_, ?_, ?_⟩
  · have hsame := hq.same
    unfold SamePage at hsame ⊢
    simp only [place, recomputeChecksum]
    rw [hsame]
  · intro t ht hne
    rw [hentry t (by omega) hne, hq.entry_eq t ht]
  · intro t ht hlt hne
    rw [hentry t hlt hne, hq.entry_gap t ht hlt hne]
  · intro off l hoff hapart
    have harea' : slotOffset newCount ≤ off := by omega
    change (writeEntry _ _ _ _).read off l = _
    rw [read_writeEntry (by omega), read_write_apart hapart, hq.read_eq off l hoff]

theorem entry_place (hstart : start < 2 ^ 16) (hlen : record.length < 2 ^ 16) :
    (q.place crc32c slot start record newCount newFree).entry slot = (start, record.length) :=
  entryAt_writeEntry_self hstart hlen

theorem read_place (hslot : slotOffset slot + slotSize ≤ start) :
    (q.place crc32c slot start record newCount newFree).bytes.read start record.length =
      record := by
  change (writeEntry _ _ _ _).read start record.length = _
  rw [read_writeEntry hslot, read_write_self]

end
/-! ## Each operation -/

variable {crc32c}
variable {p p' : SlottedPage} {slot expectedLen capacity : Nat} {record : Bytes}

theorem recordArea_le_iff : p.recordArea ≤ pageSize ↔
      p.header.freeSpace + p.header.slotCount * slotSize ≤ pageBodyBytes := by
  unfold recordArea slotOffset slotAreaStart slotSize pageBodyBytes pageSize slotAreaStart
  omega

/-- The next place below the records, as the source computes it. -/
theorem recordStart_eq (h : p.recordArea ≤ pageSize) (len : Nat) :
    pageSize - (pageBodyBytes - p.header.freeSpace - p.header.slotCount * slotSize) - len =
      p.recordArea - len := by
  rw [recordArea_le_iff] at h
  unfold recordArea slotOffset slotAreaStart slotSize pageBodyBytes pageSize slotAreaStart at *
  omega

theorem recordStart_lt (h : p.recordArea ≤ pageSize) (len : Nat) : p.recordArea - len < 2 ^ 16 := by
  unfold pageSize at h
  omega

theorem insertRaw_ok_iff : p.insertRaw crc32c record = .ok (slot, p') ↔
    record.length + slotSize ≤ p.header.freeSpace ∧ p.recordArea ≤ pageSize ∧
      slot = p.header.slotCount ∧
      p' = p.place crc32c slot (p.recordArea - record.length) record (slot + 1)
        (p.header.freeSpace - (record.length + slotSize)) := by
  simp only [insertRaw, ite_throw_bind_eq_ok, pure_eq_ok, Prod.mk.injEq, not_lt, not_le]
  constructor
  · rintro ⟨-, hfree, harea, -, -, rfl, rfl⟩
    have harea' := recordArea_le_iff.mpr harea
    rw [recordStart_eq harea']
    exact ⟨hfree, harea', rfl, rfl⟩
  · rintro ⟨hfree, harea, rfl, rfl⟩
    have harea' := recordArea_le_iff.mp harea
    refine ⟨?_, hfree, harea', ?_, ?_, rfl, by rw [recordStart_eq harea]⟩
    · unfold pageBodyBytes pageSize slotAreaStart at harea'
      omega
    · unfold pageBodyBytes pageSize slotAreaStart slotSize at *
      omega
    · rw [recordStart_eq harea]
      exact recordStart_lt harea _

theorem slotEntry_eq_some {off : Nat} (h : p.slotEntry slot = .ok (some (off, len))) :
    slot < p.header.slotCount ∧ p.entry slot = (off, len) ∧ slotOffset p.header.slotCount ≤ off ∧
      off + len ≤ pageSize := by
  simp only [slotEntry, ite_throw_bind_eq_ok, not_le] at h
  obtain ⟨hcount, -, h⟩ := h
  split at h
  · cases h
  · simp only [ite_throw_bind_eq_ok, pure_eq_ok, Option.some.injEq, not_or, not_lt] at h
    obtain ⟨⟨hoff, hend⟩, hentry⟩ := h
    cases hentry
    exact ⟨hcount, rfl, hoff, hend⟩

theorem slotEntry_eq_none (h : p.slotEntry slot = .ok none) : slot < p.header.slotCount ∧
      (p.entry slot = (0, 0) ∨ p.entry slot = (0, permanentTombstoneLen)) := by
  simp only [slotEntry, ite_throw_bind_eq_ok, not_le] at h
  obtain ⟨hcount, -, h⟩ := h
  split at h
  · rename_i hhole
    refine ⟨hcount, ?_⟩
    rcases hhole with ⟨hoff, hlen | hlen⟩
    · exact .inl (Prod.ext hoff hlen)
    · exact .inr (Prod.ext hoff hlen)
  · simp only [ite_throw_bind_eq_ok, pure_eq_ok, reduceCtorEq, and_false] at h

theorem overwrite_ok (h : p.overwrite crc32c slot record expectedLen = .ok p') :
    ∃ off, p.slotEntry slot = .ok (some (off, expectedLen)) ∧
      p' = recomputeChecksum crc32c { p with bytes := p.bytes.write off record } := by
  obtain ⟨entry, hentry, h⟩ := bind_eq_ok.mp h
  cases entry with
  | none => cases h
  | some e =>
    simp only [ite_throw_bind_eq_ok, pure_eq_ok, not_not] at h
    obtain ⟨rfl, rfl⟩ := h
    exact ⟨e.1, hentry, rfl⟩

variable (crc32c) in
theorem edit_setEntry (hslot : slot < p.header.slotCount) (off len : Nat) (hoff : off < 2 ^ 16)
    (hlen : len < 2 ^ 16) (start l : Nat) : Edit p (p.setEntry crc32c slot off len) slot start l ∧
      (p.setEntry crc32c slot off len).entry slot = (off, len) := by
  refine ⟨⟨rfl, (max_eq_left hslot).symm, le_rfl, ?_, ?_, ?_⟩, entryAt_writeEntry_self hoff hlen⟩
  · intro t _ hne
    exact entryAt_writeEntry_ne hne
  · intro t ht hlt
    exact absurd hlt (not_lt.mpr ht)
  · intro o l ho _
    exact read_writeEntry ((slotOffset_le hslot).trans (slotOffset_le_recordArea.trans ho))

theorem edit_tombstone (h : p.tombstone crc32c slot = .ok p') :
    slot < p.header.slotCount ∧ Edit p p' slot pageSize 0 ∧ p'.entry slot = (0, 0) := by
  unfold tombstone at h
  split at h
  · cases h
  · rename_i hslot
    cases h
    obtain ⟨hedit, hentry⟩ := edit_setEntry crc32c (not_le.mp hslot) 0 0 (by omega) (by omega)
      pageSize 0
    exact ⟨not_le.mp hslot, hedit, hentry⟩

/-- A place for a record: what an operation that puts one into a slot does. -/
structure Places (p p' : SlottedPage) (slot start : Nat) (record : Bytes) : Prop where
  edit : Edit p p' slot start record.length
  entry_eq : p'.entry slot = (start, record.length)
  read_eq : p'.bytes.read start record.length = record
  recordArea_le : p'.recordArea ≤ start ∨ p.slotEntry slot = .ok (some (start, record.length))
  end_le : start + record.length ≤ pageSize

theorem Prepared.places {newCount newFree : Nat}
    (hq : Prepared p q slot newCount) (hcount : newCount = max p.header.slotCount (slot + 1))
    (harea : slotOffset newCount + newFree ≤ p.recordArea)
    (hstart : slotOffset newCount + newFree ≤ start) (hend : start + record.length ≤ pageSize) :
    Places p (q.place crc32c slot start record newCount newFree) slot start record := by
  have hdir : slotOffset newCount ≤ start := by omega
  have hslot : slotOffset slot + slotSize ≤ start := (slotOffset_le (by omega)).trans hdir
  unfold pageSize at hend
  exact ⟨hq.edit_place hcount harea hdir, entry_place (by omega) (by omega), read_place hslot,
    .inl hstart, hend⟩

theorem places_insertRaw (h : p.insertRaw crc32c record = .ok (slot, p')) :
    ∃ start, Places p p' slot start record ∧ start + record.length = p.recordArea ∧
      slot = p.header.slotCount := by
  obtain ⟨_, _, rfl, rfl⟩ := insertRaw_ok_iff.mp h
  have hoff : slotOffset (p.header.slotCount + 1) = slotOffset p.header.slotCount + slotSize := by
    unfold slotOffset slotSize
    omega
  have hdef : p.recordArea = slotOffset p.header.slotCount + p.header.freeSpace := rfl
  refine ⟨p.recordArea - record.length, ?_, by omega, rfl⟩
  exact (Prepared.refl (by omega) le_rfl).places (by omega) (by omega) (by omega) (by omega)

section
variable (h : p.header.slotCount < slot)
  (hfree : (slot - p.header.slotCount) * slotSize ≤ p.header.freeSpace)

include h hfree

theorem recordArea_reserveGap : (p.reserveGap slot).recordArea = p.recordArea := by
  unfold recordArea reserveGap slotOffset
  unfold slotSize at *
  dsimp only
  omega

theorem prepared_reserveGap : Prepared p (p.reserveGap slot) slot (slot + 1) where
  same := rfl
  entry_eq t ht := entryAt_clear_apart (.inl (slotOffset_le ht))
  entry_gap t ht hlt hne :=
    entryAt_clear_self (slotOffset_mono ht) (slotOffset_le (by omega))
  read_eq off l hoff := by
    have harea : slotOffset slot ≤ (p.reserveGap slot).recordArea :=
      slotOffset_le_recordArea (p := p.reserveGap slot)
    rw [recordArea_reserveGap h hfree] at harea
    exact read_clear_apart (.inr (harea.trans hoff))

end

theorem insertSparse_ok_iff (hslot : p.header.slotCount < slot) {installed : Nat} :
    p.insertSparse crc32c slot record record.length = .ok (installed, p') ↔
      (slot - p.header.slotCount) * slotSize + (record.length + slotSize) ≤ p.header.freeSpace ∧
        p.recordArea ≤ pageSize ∧ installed = slot ∧
        p' = (p.reserveGap slot).place crc32c slot (p.recordArea - record.length) record (slot + 1)
          (p.header.freeSpace - (slot - p.header.slotCount) * slotSize -
            (record.length + slotSize)) := by
  simp only [insertSparse, ite_throw_bind_eq_ok, not_lt, not_le]
  constructor
  · rintro ⟨_, _, h⟩
    obtain ⟨hfree, harea, hinstalled, rfl⟩ := insertRaw_ok_iff.mp h
    change installed = slot at hinstalled
    subst hinstalled
    have hfits : (installed - p.header.slotCount) * slotSize + (record.length + slotSize) ≤
        p.header.freeSpace := by
      have hfree' : record.length + slotSize ≤
          p.header.freeSpace - (installed - p.header.slotCount) * slotSize := hfree
      unfold slotSize at *
      omega
    have hgap : (installed - p.header.slotCount) * slotSize ≤ p.header.freeSpace := by omega
    rw [recordArea_reserveGap hslot hgap] at harea ⊢
    exact ⟨hfits, harea, rfl, rfl⟩
  · rintro ⟨hfits, harea, rfl, rfl⟩
    have hgap : (installed - p.header.slotCount) * slotSize ≤ p.header.freeSpace := by omega
    have harea' := recordArea_le_iff.mp harea
    refine ⟨?_, (min_le_right _ _).trans hfits, insertRaw_ok_iff.mpr ⟨?_, ?_, rfl, ?_⟩⟩
    · unfold pageBodyBytes pageSize slotAreaStart at harea'
      omega
    · change _ ≤ p.header.freeSpace - (installed - p.header.slotCount) * slotSize
      omega
    · rw [recordArea_reserveGap hslot hgap]
      exact harea
    · rw [recordArea_reserveGap hslot hgap]
      rfl

theorem places_insertSparse (hslot : p.header.slotCount < slot) {installed : Nat}
    (h : p.insertSparse crc32c slot record record.length = .ok (installed, p')) :
    ∃ start, Places p p' slot start record ∧ start + record.length = p.recordArea := by
  obtain ⟨_, _, -, rfl⟩ := (insertSparse_ok_iff hslot).mp h
  have hgap : (slot - p.header.slotCount) * slotSize ≤ p.header.freeSpace := by omega
  have hdef := recordArea_reserveGap hslot hgap
  have hoff : slotOffset (slot + 1) = slotOffset slot + slotSize := by
    unfold slotOffset slotSize
    omega
  have hdef' : (p.reserveGap slot).recordArea = slotOffset slot +
      (p.header.freeSpace - (slot - p.header.slotCount) * slotSize) := rfl
  refine ⟨p.recordArea - record.length, ?_, by omega⟩
  exact (prepared_reserveGap hslot hgap).places (by omega) (by omega) (by omega) (by omega)

theorem revive_ok_iff : p.revive crc32c slot record record.length = .ok p' ↔
    record.length ≤ p.header.freeSpace ∧ p.recordArea ≤ pageSize ∧
      p' = p.place crc32c slot (p.recordArea - record.length) record p.header.slotCount
        (p.header.freeSpace - record.length) := by
  simp only [revive, ite_throw_bind_eq_ok, pure_eq_ok, not_lt, not_le]
  constructor
  · rintro ⟨hfree, harea, -, -, rfl⟩
    have harea' := recordArea_le_iff.mpr harea
    rw [recordStart_eq harea']
    exact ⟨hfree, harea', rfl⟩
  · rintro ⟨hfree, harea, rfl⟩
    have harea' := recordArea_le_iff.mp harea
    refine ⟨hfree, harea', ?_, ?_, by rw [recordStart_eq harea]⟩
    · unfold pageBodyBytes pageSize slotAreaStart at *
      omega
    · rw [recordStart_eq harea]
      exact recordStart_lt harea _

theorem places_revive (hslot : slot < p.header.slotCount)
    (h : p.revive crc32c slot record record.length = .ok p') :
    ∃ start, Places p p' slot start record ∧ start + record.length = p.recordArea := by
  obtain ⟨_, _, rfl⟩ := revive_ok_iff.mp h
  have hdef : p.recordArea = slotOffset p.header.slotCount + p.header.freeSpace := rfl
  refine ⟨p.recordArea - record.length, ?_, by omega⟩
  exact (Prepared.refl (by omega) hslot.le).places (by omega) (by omega) (by omega) (by omega)

theorem putFixedAt_ok (h : p.putFixedAt crc32c slot record expectedLen = .ok p') :
    (slot = p.header.slotCount ∧ p.insertRaw crc32c record = .ok (slot, p')) ∨
    (p.header.slotCount < slot ∧ ∃ installed,
      p.insertSparse crc32c slot record expectedLen = .ok (installed, p')) ∨
    (p.slotEntry slot = .ok none ∧ p.revive crc32c slot record expectedLen = .ok p') ∨
    ((∃ e, p.slotEntry slot = .ok (some e)) ∧
      p.overwrite crc32c slot record expectedLen = .ok p') := by
  unfold putFixedAt at h
  dsimp only at h
  split at h
  · rename_i hslot
    obtain ⟨⟨installed, q⟩, hinsert, h⟩ := bind_eq_ok.mp h
    cases h
    have hinstalled := (insertRaw_ok_iff.mp hinsert).2.2.1
    exact .inl ⟨hslot, by rw [hinsert, hinstalled, hslot]⟩
  · split at h
    · rename_i hslot
      obtain ⟨⟨installed, q⟩, hinsert, h⟩ := bind_eq_ok.mp h
      cases h
      exact .inr (.inl ⟨hslot, installed, hinsert⟩)
    · obtain ⟨entry, hentry, h⟩ := bind_eq_ok.mp h
      cases entry with
      | none => exact .inr (.inr (.inl ⟨hentry, h⟩))
      | some e => exact .inr (.inr (.inr ⟨⟨e, hentry⟩, h⟩))

theorem places_overwrite (h : p.overwrite crc32c slot record record.length = .ok p') :
    ∃ start, Places p p' slot start record ∧
      p.slotEntry slot = .ok (some (start, record.length)) := by
  obtain ⟨off, hslotEntry, rfl⟩ := overwrite_ok h
  obtain ⟨hslot, hentry, hoff, hend⟩ := slotEntry_eq_some hslotEntry
  have hsame : ∀ t < p.header.slotCount,
      entryAt (p.bytes.write off record) t = p.entry t := fun t ht =>
    entryAt_write ((slotOffset_le ht).trans hoff)
  refine ⟨off, ⟨⟨rfl, (max_eq_left hslot).symm, le_rfl, fun t ht _ => hsame t ht, ?_, ?_⟩,
    (hsame slot hslot).trans hentry, read_write_self, .inr hslotEntry, hend⟩, hslotEntry⟩
  · intro t ht hlt
    exact absurd hlt (not_lt.mpr ht)
  · intro o l _ hapart
    exact read_write_apart hapart

theorem places_putFixedAt (h : p.putFixedAt crc32c slot record record.length = .ok p') :
    ∃ start, Places p p' slot start record ∧ (start + record.length = p.recordArea ∨
      p.slotEntry slot = .ok (some (start, record.length))) := by
  rcases putFixedAt_ok h with ⟨-, h⟩ | ⟨hslot, _, h⟩ | ⟨hentry, h⟩ | ⟨-, h⟩
  · obtain ⟨start, hplaces, hend, -⟩ := places_insertRaw h
    exact ⟨start, hplaces, .inl hend⟩
  · obtain ⟨start, hplaces, hend⟩ := places_insertSparse hslot h
    exact ⟨start, hplaces, .inl hend⟩
  · obtain ⟨start, hplaces, hend⟩ := places_revive (slotEntry_eq_none hentry).1 h
    exact ⟨start, hplaces, .inl hend⟩
  · obtain ⟨start, hplaces, hentry⟩ := places_overwrite h
    exact ⟨start, hplaces, .inr hentry⟩

/-! ## Fixed cells -/

theorem checkCanonical_ok (h : p.checkCanonical slot start expectedLen = .ok ())
    (hslot : slot < p.header.slotCount) :
    p.slotEntry slot = .ok none ∨ p.slotEntry slot = .ok (some (start, expectedLen)) := by
  unfold checkCanonical at h
  rw [if_pos hslot] at h
  obtain ⟨entry, hentry, h⟩ := bind_eq_ok.mp h
  cases entry with
  | none => exact .inl hentry
  | some =>
    obtain ⟨hsame, -⟩ := ite_throw_eq_ok.mp h
    simp only [not_or, not_not] at hsame
    exact .inr (hsame.1 ▸ hsame.2 ▸ hentry)

def Canonical (p : SlottedPage) (len : Nat) : Prop :=
  p.header.slotCount * (len + slotSize) + p.header.freeSpace = pageBodyBytes

theorem Canonical.recordArea_eq (h : Canonical p len) :
    p.recordArea + p.header.slotCount * len = pageSize := by
  unfold Canonical at h
  unfold recordArea slotOffset
  unfold pageBodyBytes pageSize slotAreaStart at *
  rw [mul_add] at h
  omega

theorem writeFixedAtSlot_ok
    (h : p.writeFixedAtSlot crc32c slot record expectedLen capacity = .ok p') :
    slot < capacity ∧ record.length = expectedLen ∧ p.header.slotCount ≤ capacity ∧
      Canonical p expectedLen ∧
      max (slot + 1) p.header.slotCount * (expectedLen + slotSize) ≤ pageBodyBytes ∧
      p.checkCanonical slot (cellStart slot expectedLen) expectedLen = .ok () ∧
      p' = (p.growFixed (max (slot + 1) p.header.slotCount) expectedLen).place crc32c slot
        (cellStart slot expectedLen) record (max (slot + 1) p.header.slotCount)
        (pageBodyBytes - max (slot + 1) p.header.slotCount * (expectedLen + slotSize)) := by
  simp only [writeFixedAtSlot, ite_throw_bind_eq_ok, not_lt, not_le, not_not] at h
  obtain ⟨hslot, hlen, hcount, _, _, hfits, -, -, h⟩ := h
  obtain ⟨_, hcanonical, h⟩ := bind_eq_ok.mp h
  simp only [ite_throw_bind_eq_ok, pure_eq_ok] at h
  refine ⟨hslot, hlen, hcount, ?_, hfits, hcanonical, h.2.symm⟩
  unfold Canonical
  omega

section
variable {len newCount : Nat}

theorem cells_le (hfits : newCount * (len + slotSize) ≤ pageBodyBytes) :
    slotOffset newCount + newCount * len ≤ pageSize := by
  rw [mul_add] at hfits
  unfold slotOffset
  unfold pageBodyBytes pageSize slotAreaStart at *
  omega

theorem cellStart_add (hslot : slot < newCount)
    (hfits : newCount * (len + slotSize) ≤ pageBodyBytes) :
    cellStart slot len + (slot + 1) * len = pageSize := by
  have hmul : (slot + 1) * len ≤ newCount * len := mul_le_mul_right len hslot
  have := cells_le hfits
  unfold cellStart
  omega

theorem prepared_growFixed (hcanonical : Canonical p len) (hcount : p.header.slotCount ≤ newCount)
    (hfits : newCount * (len + slotSize) ≤ pageBodyBytes) (hslot : slot < newCount) :
    Prepared p (p.growFixed newCount len) slot newCount := by
  have hcells := cells_le hfits
  have harea := hcanonical.recordArea_eq
  have hmul : p.header.slotCount * len ≤ newCount * len := mul_le_mul_right len hcount
  unfold growFixed
  dsimp only
  split
  · refine ⟨rfl, ?_, ?_, ?_⟩
    · intro t ht
      have hbelow : slotOffset t + slotSize ≤ slotOffset newCount := slotOffset_le (by omega)
      refine (entryAt_clear_apart (.inl (by omega))).trans ?_
      exact entryAt_clear_apart (.inl (slotOffset_le ht))
    · intro t ht hlt _
      have hbelow : slotOffset t + slotSize ≤ slotOffset newCount := slotOffset_le hlt
      refine (entryAt_clear_apart (.inl (by omega))).trans ?_
      exact entryAt_clear_self (slotOffset_mono ht) hbelow
    · intro off l hoff
      refine (read_clear_apart (.inr (by omega))).trans ?_
      exact read_clear_apart (.inr (by omega))
  · have heq : newCount = p.header.slotCount := by omega
    exact .refl (by omega) (by omega)

end

theorem places_writeFixedAtSlot
    (h : p.writeFixedAtSlot crc32c slot record record.length capacity = .ok p') :
    Places p p' slot (cellStart slot record.length) record ∧ Canonical p record.length ∧
      Canonical p' record.length ∧ slot < capacity ∧ (slot + 1) * record.length ≤ pageSize ∧
      (slot < p.header.slotCount → p.slotEntry slot = .ok none ∨
        p.slotEntry slot = .ok (some (cellStart slot record.length, record.length))) := by
  obtain ⟨hslot, -, -, hcanonical, hfits, hcheck, rfl⟩ := writeFixedAtSlot_ok h
  have hcells := cells_le hfits
  have hlt : slot < max (slot + 1) p.header.slotCount := by omega
  have hstart := cellStart_add hlt hfits
  have harea := hcanonical.recordArea_eq
  have hmul : (slot + 1) * record.length ≤
      max (slot + 1) p.header.slotCount * record.length := mul_le_mul_right _ hlt
  have hmul' : p.header.slotCount * record.length ≤
      max (slot + 1) p.header.slotCount * record.length :=
    mul_le_mul_right _ (le_max_right _ _)
  have hdir : slotOffset (max (slot + 1) p.header.slotCount) + (pageBodyBytes -
      max (slot + 1) p.header.slotCount * (record.length + slotSize)) +
        max (slot + 1) p.header.slotCount * record.length = pageSize := by
    rw [mul_add] at hfits ⊢
    unfold slotOffset
    unfold pageBodyBytes pageSize slotAreaStart at *
    omega
  have hone : (slot + 1) * record.length = slot * record.length + record.length := by
    rw [add_mul, one_mul]
  refine ⟨?_, hcanonical, ?_, hslot, by omega, checkCanonical_ok hcheck⟩
  · exact (prepared_growFixed hcanonical (le_max_right _ _) hfits hlt).places (max_comm _ _)
      (by omega) (by omega) (by omega)
  · exact add_sub_of_le hfits

theorem isPermanentTombstone_ok {permanent : Bool}
    (h : p.isPermanentTombstone slot = .ok permanent) :
    slot < p.header.slotCount ∧ (permanent = true ↔ p.entry slot = (0, permanentTombstoneLen)) := by
  simp only [isPermanentTombstone, ite_throw_bind_eq_ok, pure_eq_ok, not_le] at h
  obtain ⟨hslot, -, rfl⟩ := h
  exact ⟨hslot, decide_eq_true_iff⟩

theorem isMarked_ok {marked : Bool} (h : p.isMarked slot = .ok marked) :
    marked = true ↔ slot < p.header.slotCount ∧ p.entry slot = (0, permanentTombstoneLen) := by
  unfold isMarked at h
  split at h
  · rename_i hslot
    rw [(isPermanentTombstone_ok h).2]
    exact (and_iff_right hslot).symm
  · rename_i hslot
    cases h
    simp [hslot]

def markerRecord (tombstoneLsn len : Nat) : Bytes :=
  leBytes 8 tombstoneLsn ++ List.replicate (len - 8) 0

theorem length_markerRecord {tombstoneLsn : Nat} (h : 8 ≤ len) :
    (markerRecord tombstoneLsn len).length = len := by
  simp only [markerRecord, List.length_append, length_leBytes, List.length_replicate]
  omega

theorem permanentTombstoneLsn_ok {lsn : Option Nat}
    (h : p.permanentTombstoneLsn slot expectedLen = .ok lsn)
    (hentry : p.entry slot = (0, permanentTombstoneLen)) :
    8 ≤ expectedLen ∧ (slot + 1) * expectedLen ≤ pageSize := by
  obtain ⟨_, hpermanent, h⟩ := bind_eq_ok.mp h
  obtain ⟨-, hiff⟩ := isPermanentTombstone_ok hpermanent
  rw [if_pos (hiff.mpr hentry)] at h
  simp only [ite_throw_bind_eq_ok, not_lt] at h
  exact ⟨h.1, h.2.1⟩

theorem writeFixedPermanentTombstone_ok {tombstoneLsn : Nat}
    (h : p.writeFixedPermanentTombstone crc32c slot tombstoneLsn expectedLen capacity = .ok p') :
    (slot < p.header.slotCount ∧ p.entry slot = (0, permanentTombstoneLen) ∧ p' = p) ∨
    (slot < p.header.slotCount ∧ p.entry slot = (0, permanentTombstoneLen) ∧ 8 ≤ expectedLen ∧
      (slot + 1) * expectedLen ≤ pageSize ∧
      p' = recomputeChecksum crc32c { p with
        bytes := p.bytes.write (cellStart slot expectedLen)
          (markerRecord tombstoneLsn expectedLen) }) ∨
    ∃ q, (markerRecord tombstoneLsn expectedLen).length = expectedLen ∧
      p.writeFixedAtSlot crc32c slot (markerRecord tombstoneLsn expectedLen)
        (markerRecord tombstoneLsn expectedLen).length capacity = .ok q ∧
      p' = q.setEntry crc32c slot 0 permanentTombstoneLen := by
  obtain ⟨marked, hmarked, h⟩ := bind_eq_ok.mp h
  cases marked with
  | true =>
    obtain ⟨hslot, hentry⟩ := (isMarked_ok hmarked).mp rfl
    obtain ⟨_, hexisting, h⟩ := bind_eq_ok.mp h
    obtain ⟨hlen, hfits⟩ := permanentTombstoneLsn_ok hexisting hentry
    split at h
    · exact .inl ⟨hslot, hentry, (pure_eq_ok.mp h).symm⟩
    · exact .inr (.inl ⟨hslot, hentry, hlen, hfits, (pure_eq_ok.mp h).symm⟩)
  | false =>
    obtain ⟨q, hq, h⟩ := bind_eq_ok.mp h
    have hlen : (markerRecord tombstoneLsn expectedLen).length = expectedLen :=
      (writeFixedAtSlot_ok hq).2.1
    refine .inr (.inr ⟨q, hlen, ?_, (pure_eq_ok.mp h).symm⟩)
    rw [hlen]
    exact hq

end SlottedPage
end ArcGraph.Records
