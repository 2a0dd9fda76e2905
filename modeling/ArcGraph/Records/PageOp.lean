import ArcGraph.Records.Edits

/-!
# The operations of a page

`PageOp` collects the operations of the three record types, so that a run on a page is a
list of them. Behind their checks they change a page in six ways (`RawStep`), and what is
proved about every operation is proved about these.
-/

namespace ArcGraph.Records
open Foundation SlottedPage Except

inductive PageRecord
  | node (r : NodeRecord)
  | rel (r : RelRecord)
  | bag (bytes : Bytes)
deriving DecidableEq

namespace PageRecord

def pageType : PageRecord → PageType
  | node _ => .node
  | rel _ => .rel
  | bag _ => .propSlotted

def toBytes : PageRecord → Bytes
  | node r => r.toBytes
  | rel r => r.toBytes
  | bag bytes => bytes

end PageRecord

/-- What a slot reads, through the reading function of the page's type. -/
def SlottedPage.readSlot (p : SlottedPage) (slot : Nat) : Except PageError (Option PageRecord) :=
  match p.header.pageType with
  | .node => do return (← p.readNode slot).map .node
  | .rel => do return (← p.readRel slot).map .rel
  | .propSlotted => do return (← p.readBag slot).map .bag
  | other => .error (.wrongPageType other .node)

inductive PageOp
  | insertNode (r : NodeRecord)
  | insertRel (r : RelRecord)
  | insertBag (bag : Bytes)
  | putNodeAt (slot : Nat) (r : NodeRecord)
  | putRelAt (slot : Nat) (r : RelRecord)
  | putBagAt (slot : Nat) (bag : Bytes)
  | writeNodeAtSlot (slot : Nat) (r : NodeRecord)
  | writeRelAtSlot (slot : Nat) (r : RelRecord)
  | putFixedBagAtSlot (slot : Nat) (bag : Bytes) (capacity : Nat)
  | updateNode (slot : Nat) (r : NodeRecord)
  | updateRel (slot : Nat) (r : RelRecord)
  | tombstone (slot : Nat)
  | permanentTombstoneNodeAtSlot (slot tombstoneLsn : Nat)
  | permanentTombstoneRelAtSlot (slot tombstoneLsn : Nat)
  | permanentTombstoneFixedBagAtSlot (slot tombstoneLsn fixedLen capacity : Nat)
deriving DecidableEq

namespace PageOp

def apply (crc32c : Bytes → UInt32) (p : SlottedPage) :
    PageOp → Except PageError (Nat × SlottedPage)
  | insertNode r => p.insertNode crc32c r
  | insertRel r => p.insertRel crc32c r
  | insertBag bag => p.insertBag crc32c bag
  | putNodeAt slot r => do return (slot, ← p.putNodeAt crc32c slot r)
  | putRelAt slot r => do return (slot, ← p.putRelAt crc32c slot r)
  | putBagAt slot bag => do return (slot, ← p.putBagAt crc32c slot bag)
  | writeNodeAtSlot slot r => do return (slot, ← p.writeNodeAtSlot crc32c slot r)
  | writeRelAtSlot slot r => do return (slot, ← p.writeRelAtSlot crc32c slot r)
  | putFixedBagAtSlot slot bag capacity => do
      return (slot, ← p.putFixedBagAtSlot crc32c slot bag capacity)
  | updateNode slot r => do return (slot, ← p.updateNode crc32c slot r)
  | updateRel slot r => do return (slot, ← p.updateRel crc32c slot r)
  | tombstone slot => do return (slot, ← p.tombstone crc32c slot)
  | permanentTombstoneNodeAtSlot slot lsn => do
      return (slot, ← p.permanentTombstoneNodeAtSlot crc32c slot lsn)
  | permanentTombstoneRelAtSlot slot lsn => do
      return (slot, ← p.permanentTombstoneRelAtSlot crc32c slot lsn)
  | permanentTombstoneFixedBagAtSlot slot lsn fixedLen capacity => do
      return (slot, ← p.permanentTombstoneFixedBagAtSlot crc32c slot lsn fixedLen capacity)

def written : PageOp → Option PageRecord
  | insertNode r | putNodeAt _ r | writeNodeAtSlot _ r | updateNode _ r => some (.node r)
  | insertRel r | putRelAt _ r | writeRelAtSlot _ r | updateRel _ r => some (.rel r)
  | insertBag bag | putBagAt _ bag | putFixedBagAtSlot _ bag _ => some (.bag bag)
  | tombstone _ | permanentTombstoneNodeAtSlot .. | permanentTombstoneRelAtSlot ..
  | permanentTombstoneFixedBagAtSlot .. => none

/-- The slot and the record length whose cell a direct-addressed operation takes. -/
def cell : PageOp → Option (Nat × Nat)
  | writeNodeAtSlot slot _ | permanentTombstoneNodeAtSlot slot _ => some (slot, NodeRecord.size)
  | writeRelAtSlot slot _ | permanentTombstoneRelAtSlot slot _ => some (slot, RelRecord.size)
  | putFixedBagAtSlot slot bag _ => some (slot, bag.length)
  | permanentTombstoneFixedBagAtSlot slot _ fixedLen _ => some (slot, fixedLen)
  | _ => none

end PageOp

/-! ## What an operation does to the page -/

variable {capacity : Nat}

namespace SlottedPage
variable {crc32c : Bytes → UInt32}
variable {p p' : SlottedPage} {slot : Nat} {record : Bytes} {cell : Option (Nat × Nat)}

/-- The six ways a page changes: the slot, the bytes that are put there if any, and the
cell that is taken if any. -/
inductive RawStep (crc32c : Bytes → UInt32) (p p' : SlottedPage) (slot : Nat) :
    Option Bytes → Option (Nat × Nat) → Prop
  | insert (record : Bytes) (h : p.insertRaw crc32c record = .ok (slot, p')) :
      RawStep crc32c p p' slot (some record) none
  | put (record : Bytes) (h : p.putFixedAt crc32c slot record record.length = .ok p') :
      RawStep crc32c p p' slot (some record) none
  | overwrite (record : Bytes) (h : p.overwrite crc32c slot record record.length = .ok p') :
      RawStep crc32c p p' slot (some record) none
  | write (record : Bytes) (capacity : Nat)
      (h : p.writeFixedAtSlot crc32c slot record record.length capacity = .ok p') :
      RawStep crc32c p p' slot (some record) (some (slot, record.length))
  | tombstone (h : p.tombstone crc32c slot = .ok p') : RawStep crc32c p p' slot none none
  | mark (lsn len capacity : Nat)
      (h : p.writeFixedPermanentTombstone crc32c slot lsn len capacity = .ok p') :
      RawStep crc32c p p' slot none (some (slot, len))

def IsHole (e : Nat × Nat) : Prop := e = (0, 0) ∨ e = (0, permanentTombstoneLen)

/-- An operation put `record` into `slot`: below the other records, in place of the slot's
own, or in the slot's cell. -/
def Puts (p p' : SlottedPage) (slot : Nat) (record : Bytes) (cell : Option (Nat × Nat)) : Prop :=
  ∃ start, Places p p' slot start record ∧
    (start + record.length = p.recordArea ∨
      p.slotEntry slot = .ok (some (start, record.length)) ∨
      (start = cellStart slot record.length ∧ cell = some (slot, record.length)))

/-- An operation left `slot` without a record; at most it wrote into the slot's cell. -/
def Empties (p p' : SlottedPage) (slot : Nat) (cell : Option (Nat × Nat)) : Prop :=
  ∃ start len, Edit p p' slot start len ∧ IsHole (p'.entry slot) ∧
    ((start = pageSize ∧ len = 0) ∨ (start = cellStart slot len ∧ cell = some (slot, len)))

theorem RawStep.puts (h : RawStep crc32c p p' slot (some record) cell) :
    Puts p p' slot record cell := by
  cases h with
  | insert _ h =>
    obtain ⟨start, hplaces, hend, -⟩ := places_insertRaw h
    exact ⟨start, hplaces, .inl hend⟩
  | put _ h =>
    obtain ⟨start, hplaces, hend | hentry⟩ := places_putFixedAt h
    · exact ⟨start, hplaces, .inl hend⟩
    · exact ⟨start, hplaces, .inr (.inl hentry)⟩
  | overwrite _ h =>
    obtain ⟨start, hplaces, hentry⟩ := places_overwrite h
    exact ⟨start, hplaces, .inr (.inl hentry)⟩
  | write _ _ h => exact ⟨_, (places_writeFixedAtSlot h).1, .inr (.inr ⟨rfl, rfl⟩)⟩

variable (crc32c) in
theorem edit_write {start : Nat} (record : Bytes) (hslot : slot < p.header.slotCount)
    (hstart : slotOffset p.header.slotCount ≤ start) :
    Edit p (recomputeChecksum crc32c { p with bytes := p.bytes.write start record }) slot start
      record.length where
  same := rfl
  slotCount_eq := (max_eq_left hslot).symm
  recordArea_le := le_rfl
  entry_ne _ ht _ := entryAt_write ((slotOffset_le ht).trans hstart)
  entry_gap _ ht hlt _ := absurd hlt (not_lt.mpr ht)
  read_apart _ _ _ hapart := Buffer.read_write_apart hapart

theorem Edit.of_eq (hslot : slot < p.header.slotCount) : Edit p p slot pageSize 0 :=
  ⟨rfl, (max_eq_left hslot).symm, le_rfl, fun _ _ _ => rfl,
    fun _ ht hlt _ => absurd hlt (not_lt.mpr ht), fun _ _ _ _ => rfl⟩

/-- A marker that is written anew goes to the cell without a look at the directory, which
has to end before it. -/
theorem empties_writeFixedPermanentTombstone {tombstoneLsn len : Nat}
    (hcell : slotOffset p.header.slotCount ≤ cellStart slot len)
    (h : p.writeFixedPermanentTombstone crc32c slot tombstoneLsn len capacity = .ok p') :
    Empties p p' slot (some (slot, len)) ∧ p'.entry slot = (0, permanentTombstoneLen) := by
  rcases writeFixedPermanentTombstone_ok h with
    ⟨hslot, hentry, rfl⟩ | ⟨hslot, hentry, hlen, -, rfl⟩ | ⟨q, hlen, hq, rfl⟩
  · exact ⟨⟨pageSize, 0, .of_eq hslot, .inr hentry, .inl ⟨rfl, rfl⟩⟩, hentry⟩
  · have hedit := edit_write crc32c (markerRecord tombstoneLsn len) hslot hcell
    rw [length_markerRecord hlen] at hedit
    have hkept : entryAt (p.bytes.write (cellStart slot len) (markerRecord tombstoneLsn len)) slot =
        (0, permanentTombstoneLen) :=
      (entryAt_write ((slotOffset_le hslot).trans hcell)).trans hentry
    exact ⟨⟨_, len, hedit, .inr hkept, .inr ⟨rfl, rfl⟩⟩, hkept⟩
  · have hedit := (places_writeFixedAtSlot hq).1.edit
    rw [hlen] at hedit
    have hslot : slot < q.header.slotCount := by
      rw [hedit.slotCount_eq]
      omega
    obtain ⟨hmark, hentry⟩ := edit_setEntry crc32c hslot 0 permanentTombstoneLen (by omega)
      (by unfold permanentTombstoneLen; omega) (cellStart slot len) len
    exact ⟨⟨_, len, hedit.trans hmark, .inr hentry, .inr ⟨rfl, rfl⟩⟩, hentry⟩

theorem RawStep.empties (h : RawStep crc32c p p' slot none cell)
    (hcell : ∀ c ∈ cell, slotOffset p.header.slotCount ≤ cellStart c.1 c.2) :
    Empties p p' slot cell := by
  cases h with
  | tombstone h =>
    obtain ⟨-, hedit, hentry⟩ := edit_tombstone h
    exact ⟨pageSize, 0, hedit, .inl hentry, .inl ⟨rfl, rfl⟩⟩
  | mark _ _ _ h => exact (empties_writeFixedPermanentTombstone (hcell _ rfl) h).1

theorem RawStep.edit {written : Option Bytes} (h : RawStep crc32c p p' slot written cell)
    (hcell : written = none → ∀ c ∈ cell, slotOffset p.header.slotCount ≤ cellStart c.1 c.2) :
    ∃ start len, Edit p p' slot start len := by
  cases written with
  | none =>
    obtain ⟨start, len, hedit, -⟩ := h.empties (hcell rfl)
    exact ⟨start, len, hedit⟩
  | some =>
    obtain ⟨start, hplaces, -⟩ := h.puts
    exact ⟨start, _, hplaces.edit⟩

/-! ## The page opens again -/

theorem attach_ok_iff : p.attach crc32c = .ok () ↔
    crc32c (p.bytes.read slotAreaStart pageBodyBytes) = p.header.checksum ∧
      p.header.slotCount ≤ maxSlots := by
  simp only [attach, ite_throw_bind_eq_ok, ite_throw_eq_ok, not_not, not_lt]
  exact ⟨fun h => ⟨h.1, h.2.1⟩, fun h => ⟨h.1, h.2, rfl⟩⟩

theorem init_ok {header : PageHeader} (h : init crc32c header = .ok p) :
    (header.pageType = .node ∨ header.pageType = .rel ∨ header.pageType = .propSlotted) ∧
      p = recomputeChecksum crc32c
        { header := { header with slotCount := 0, freeSpace := pageBodyBytes }
          bytes := Buffer.zero } := by
  unfold init at h
  split at h
  · rename_i htype
    exact ⟨.inl htype, (ok.inj h).symm⟩
  · rename_i htype
    exact ⟨.inr (.inl htype), (ok.inj h).symm⟩
  · rename_i htype
    exact ⟨.inr (.inr htype), (ok.inj h).symm⟩
  · cases h

theorem slotCount_le_maxSlots (h : slotOffset p.header.slotCount ≤ pageSize) :
    p.header.slotCount ≤ maxSlots := by
  unfold slotOffset slotAreaStart slotSize pageSize at h
  unfold maxSlots slotAreaStart slotSize pageSize
  omega

/-- What a successful operation never breaks: the identity of the page, and that it opens. -/
structure Reopens (crc32c : Bytes → UInt32) (p p' : SlottedPage) : Prop where
  same : SamePage p p'
  attach_ok : p.attach crc32c = .ok () → p'.attach crc32c = .ok ()

theorem Reopens.refl : Reopens crc32c p p := ⟨rfl, id⟩

theorem Reopens.trans {q : SlottedPage} (h : Reopens crc32c p q) (h' : Reopens crc32c q p') :
    Reopens crc32c p p' := by
  refine ⟨?_, fun hp => h'.attach_ok (h.attach_ok hp)⟩
  have hsame := h.same
  have hsame' := h'.same
  unfold SamePage at *
  rw [hsame', hsame]

theorem reopens_recompute {q : SlottedPage} (hsame : SamePage p q)
    (hcount : p.header.slotCount ≤ maxSlots → q.header.slotCount ≤ maxSlots) :
    Reopens crc32c p (recomputeChecksum crc32c q) := by
  refine ⟨?_, fun h => ?_⟩
  · unfold SamePage at hsame ⊢
    simp only [recomputeChecksum]
    rw [hsame]
  · exact attach_ok_iff.mpr ⟨rfl, hcount (attach_ok_iff.mp h).2⟩

theorem Reopens.of_places {start : Nat} (h : Places p p' slot start record)
    (hsealed : crc32c (p'.bytes.read slotAreaStart pageBodyBytes) = p'.header.checksum) :
    Reopens crc32c p p' := by
  refine ⟨h.edit.same, fun hp => attach_ok_iff.mpr ⟨hsealed, ?_⟩⟩
  have hcount := h.edit.slotCount_eq
  have hold := (attach_ok_iff.mp hp).2
  rcases h.recordArea_le with hle | hown
  · have hend := h.end_le
    exact slotCount_le_maxSlots (slotOffset_le_recordArea.trans (by omega))
  · have hslot := (slotEntry_eq_some hown).1
    omega

theorem reopens_setEntry (off len : Nat) : Reopens crc32c p (p.setEntry crc32c slot off len) :=
  reopens_recompute rfl id

theorem reopens_writeFixedAtSlot
    (h : p.writeFixedAtSlot crc32c slot record record.length capacity = .ok p') :
    Reopens crc32c p p' := by
  have hplaces := (places_writeFixedAtSlot h).1
  obtain ⟨-, -, -, -, -, -, rfl⟩ := writeFixedAtSlot_ok h
  exact .of_places hplaces rfl

theorem RawStep.reopens {written : Option Bytes} (h : RawStep crc32c p p' slot written cell) :
    Reopens crc32c p p' := by
  cases h with
  | insert _ h =>
    obtain ⟨start, hplaces, -⟩ := places_insertRaw h
    obtain ⟨-, -, -, rfl⟩ := insertRaw_ok_iff.mp h
    exact .of_places hplaces rfl
  | put _ h =>
    obtain ⟨start, hplaces, -⟩ := places_putFixedAt h
    refine .of_places hplaces ?_
    rcases putFixedAt_ok h with ⟨-, h⟩ | ⟨hslot, _, h⟩ | ⟨-, h⟩ | ⟨-, h⟩
    · obtain ⟨-, -, -, rfl⟩ := insertRaw_ok_iff.mp h
      rfl
    · obtain ⟨-, -, -, rfl⟩ := (insertSparse_ok_iff hslot).mp h
      rfl
    · obtain ⟨-, -, rfl⟩ := revive_ok_iff.mp h
      rfl
    · obtain ⟨off, -, rfl⟩ := overwrite_ok h
      rfl
  | overwrite _ h =>
    obtain ⟨off, -, rfl⟩ := overwrite_ok h
    exact reopens_recompute rfl id
  | write _ _ h => exact reopens_writeFixedAtSlot h
  | tombstone h =>
    unfold SlottedPage.tombstone at h
    split at h
    · cases h
    · cases h
      exact reopens_recompute rfl id
  | mark _ _ _ h =>
    rcases writeFixedPermanentTombstone_ok h with ⟨-, -, rfl⟩ | ⟨-, -, -, -, rfl⟩ |
      ⟨_, -, hq, rfl⟩
    · exact .refl
    · exact reopens_recompute rfl id
    · exact (reopens_writeFixedAtSlot hq).trans (reopens_setEntry _ _)

theorem requirePageType_ok {expected : PageType} {u : Unit}
    (h : p.requirePageType expected = .ok u) : p.header.pageType = expected := by
  unfold requirePageType at h
  split at h
  · assumption
  · cases h

end SlottedPage

/-! ## Each operation is one of the six -/

namespace PageOp
variable {crc32c : Bytes → UInt32} {p p' : SlottedPage} {slot : Nat}

theorem onSlot_ok {x : Except PageError SlottedPage} {n : Nat}
    (h : (do return (n, ← x)) = ok (slot, p')) : n = slot ∧ x = .ok p' := by
  obtain ⟨q, hq, h⟩ := bind_eq_ok.mp h
  cases h
  exact ⟨rfl, hq⟩

section
variable {α : Type} (f : RecordFormat α) {r : α}

theorem insertRecord_ok (h : p.insertRecord crc32c f r = .ok (slot, p')) :
    p.header.pageType = f.pageType ∧ RawStep crc32c p p' slot (some (f.toBytes r)) none := by
  obtain ⟨u, htype, h⟩ := bind_eq_ok.mp h
  exact ⟨requirePageType_ok htype, .insert _ h⟩

theorem putRecordAt_ok (h : p.putRecordAt crc32c f slot r = .ok p') :
    p.header.pageType = f.pageType ∧ RawStep crc32c p p' slot (some (f.toBytes r)) none := by
  obtain ⟨_, htype, h⟩ := bind_eq_ok.mp h
  obtain ⟨_, -, h⟩ := bind_eq_ok.mp h
  rw [ite_throw_bind_eq_ok, ← f.length_toBytes r] at h
  exact ⟨requirePageType_ok htype, .put _ h.2⟩

theorem writeRecordAtSlot_ok (h : p.writeRecordAtSlot crc32c f slot r = .ok p') :
    p.header.pageType = f.pageType ∧
      RawStep crc32c p p' slot (some (f.toBytes r)) (some (slot, f.size)) := by
  obtain ⟨u, htype, h⟩ := bind_eq_ok.mp h
  obtain ⟨v, -, h⟩ := bind_eq_ok.mp h
  rw [← f.length_toBytes r] at h ⊢
  exact ⟨requirePageType_ok htype, .write _ _ h⟩

theorem updateRecord_ok (h : p.updateRecord crc32c f slot r = .ok p') :
    p.header.pageType = f.pageType ∧ RawStep crc32c p p' slot (some (f.toBytes r)) none := by
  obtain ⟨u, htype, h⟩ := bind_eq_ok.mp h
  rw [← f.length_toBytes r] at h
  exact ⟨requirePageType_ok htype, .overwrite _ h⟩

theorem permanentTombstoneRecordAtSlot_ok {lsn : Nat}
    (h : p.permanentTombstoneRecordAtSlot crc32c f slot lsn = .ok p') :
    RawStep crc32c p p' slot none (some (slot, f.size)) := by
  obtain ⟨u, -, h⟩ := bind_eq_ok.mp h
  exact .mark _ _ _ h

end

section
variable {bag : Bytes}

theorem insertBag_ok (h : p.insertBag crc32c bag = .ok (slot, p')) :
    p.header.pageType = .propSlotted ∧ RawStep crc32c p p' slot (some bag) none := by
  obtain ⟨u, htype, h⟩ := bind_eq_ok.mp h
  simp only [ite_throw_bind_eq_ok] at h
  exact ⟨requirePageType_ok htype, .insert _ h.2.2⟩

theorem putBagAt_ok (h : p.putBagAt crc32c slot bag = .ok p') :
    p.header.pageType = .propSlotted ∧ RawStep crc32c p p' slot (some bag) none := by
  obtain ⟨u, htype, h⟩ := bind_eq_ok.mp h
  simp only [ite_throw_bind_eq_ok] at h
  exact ⟨requirePageType_ok htype, .put _ h.2⟩

theorem putFixedBagAtSlot_ok (h : p.putFixedBagAtSlot crc32c slot bag capacity = .ok p') :
    p.header.pageType = .propSlotted ∧
      RawStep crc32c p p' slot (some bag) (some (slot, bag.length)) := by
  obtain ⟨_, htype, h⟩ := bind_eq_ok.mp h
  simp only [ite_throw_bind_eq_ok] at h
  obtain ⟨_, -, h⟩ := bind_eq_ok.mp h.2.2
  rw [ite_throw_bind_eq_ok] at h
  exact ⟨requirePageType_ok htype, .write _ _ h.2⟩

end

theorem apply_ok {op : PageOp} (h : op.apply crc32c p = .ok (slot, p')) :
    RawStep crc32c p p' slot (op.written.map PageRecord.toBytes) op.cell ∧
      ∀ r ∈ op.written, r.pageType = p.header.pageType := by
  have hput : ∀ {r : PageRecord} {type : PageType} {bytes : Bytes} {cell : Option (Nat × Nat)},
      op.written = some r → op.cell = cell → r.toBytes = bytes → r.pageType = type →
      p.header.pageType = type ∧ RawStep crc32c p p' slot (some bytes) cell →
      RawStep crc32c p p' slot (op.written.map PageRecord.toBytes) op.cell ∧
        ∀ r ∈ op.written, r.pageType = p.header.pageType := by
    rintro r type bytes cell hw rfl rfl rfl ⟨htype, hstep⟩
    rw [hw]
    refine ⟨hstep, fun a ha => ?_⟩
    cases ha
    exact htype.symm
  have hnone : op.written = none → ∀ a ∈ op.written, a.pageType = p.header.pageType := by
    intro hw a ha
    rw [hw] at ha
    cases ha
  cases op with
  | insertNode | insertRel => exact hput rfl rfl rfl rfl (insertRecord_ok _ h)
  | insertBag => exact hput rfl rfl rfl rfl (insertBag_ok h)
  | putNodeAt | putRelAt =>
    obtain ⟨rfl, hop⟩ := onSlot_ok h
    exact hput rfl rfl rfl rfl (putRecordAt_ok _ hop)
  | putBagAt =>
    obtain ⟨rfl, hop⟩ := onSlot_ok h
    exact hput rfl rfl rfl rfl (putBagAt_ok hop)
  | writeNodeAtSlot | writeRelAtSlot =>
    obtain ⟨rfl, hop⟩ := onSlot_ok h
    exact hput rfl rfl rfl rfl (writeRecordAtSlot_ok _ hop)
  | putFixedBagAtSlot =>
    obtain ⟨rfl, hop⟩ := onSlot_ok h
    exact hput rfl rfl rfl rfl (putFixedBagAtSlot_ok hop)
  | updateNode | updateRel =>
    obtain ⟨rfl, hop⟩ := onSlot_ok h
    exact hput rfl rfl rfl rfl (updateRecord_ok _ hop)
  | tombstone =>
    obtain ⟨rfl, hop⟩ := onSlot_ok h
    exact ⟨.tombstone hop, hnone rfl⟩
  | permanentTombstoneNodeAtSlot | permanentTombstoneRelAtSlot =>
    obtain ⟨rfl, hop⟩ := onSlot_ok h
    exact ⟨permanentTombstoneRecordAtSlot_ok _ hop, hnone rfl⟩
  | permanentTombstoneFixedBagAtSlot =>
    obtain ⟨rfl, hop⟩ := onSlot_ok h
    obtain ⟨_, -, hop⟩ := bind_eq_ok.mp hop
    exact ⟨.mark _ _ _ hop, hnone rfl⟩

end PageOp
end ArcGraph.Records
