import ArcGraph.Foundation.System
import ArcGraph.Records.PageOp

/-!
# Slots do not disturb each other

A run starts from a fresh page and takes the operations of the page's record type in any
order. Beside the page it keeps `contents`, the record last written to each slot.

An operation that appends takes bytes below every record, and one that updates takes the
bytes of its own slot. A direct-addressed operation takes the cell of its slot. It looks
at the counts of the header and at its own slot, and neither says where the records of the
other slots lie: a record that `putFixedAt` appended may lie in the cell. `Clear` asks
that none does. In runs of clear operations every slot reads back its contents
(`reads_contents_of_clear`).
-/

namespace ArcGraph.Records
open Foundation SlottedPage Function Option

namespace SlottedPage
variable {p p' : SlottedPage} {slot start len : Nat} {contents : Nat → Option PageRecord}

/-- The slot holds the record, in the record area. -/
structure Holds (p : SlottedPage) (t : Nat) (r : PageRecord) : Prop where
  lt : t < p.header.slotCount
  type_eq : r.pageType = p.header.pageType
  area_le : p.recordArea ≤ (p.entry t).1
  end_le : (p.entry t).1 + (p.entry t).2 ≤ pageSize
  read_eq : p.bytes.read (p.entry t).1 (p.entry t).2 = r.toBytes

/-- The page stores the contents, each record in bytes of its own. -/
structure Stored (p : SlottedPage) (contents : Nat → Option PageRecord) : Prop where
  slotted : p.header.pageType = .node ∨ p.header.pageType = .rel ∨
    p.header.pageType = .propSlotted
  area_le : p.recordArea ≤ pageSize
  hole : ∀ t < p.header.slotCount, contents t = none → IsHole (p.entry t)
  holds : ∀ t r, contents t = some r → Holds p t r
  apart : ∀ t u, t ≠ u → contents t ≠ none → contents u ≠ none →
    Buffer.Apart (p.entry t).1 (p.entry t).2 (p.entry u).1 (p.entry u).2

def liveBody (p : SlottedPage) (t : Nat) : Option (Nat × Nat) :=
  match p.slotEntry t with
  | .ok e => e
  | .error _ => none

variable {t : Nat} {r : PageRecord} {cell : Option (Nat × Nat)}

theorem slotEntry_of_hole (harea : p.recordArea ≤ pageSize) (ht : t < p.header.slotCount)
    (h : IsHole (p.entry t)) : p.slotEntry t = .ok none := by
  have hdir : slotOffset t + slotSize ≤ pageSize :=
    (slotOffset_le ht).trans (slotOffset_le_recordArea.trans harea)
  have hentry : (p.entry t).1 = 0 ∧
      ((p.entry t).2 = 0 ∨ (p.entry t).2 = permanentTombstoneLen) := by
    rcases h with h | h <;> simp [h]
  simp only [slotEntry, if_neg (not_le.mpr ht), if_neg (not_lt.mpr hdir), if_pos hentry]
  rfl

theorem Holds.slotEntry_eq (h : Holds p t r) : p.slotEntry t = .ok (some (p.entry t)) := by
  have hdir : slotOffset p.header.slotCount ≤ (p.entry t).1 :=
    slotOffset_le_recordArea.trans h.area_le
  have hfits : slotOffset t + slotSize ≤ pageSize := by
    have hbelow := slotOffset_le h.lt
    have hend := h.end_le
    omega
  have hpos : (p.entry t).1 ≠ 0 := by
    unfold slotOffset slotAreaStart at hdir
    omega
  have hinside : ¬ ((p.entry t).1 < slotOffset p.header.slotCount ∨
      pageSize < (p.entry t).1 + (p.entry t).2) := by
    have hend := h.end_le
    omega
  simp only [slotEntry, if_neg (not_le.mpr h.lt), if_neg (not_lt.mpr hfits), hpos, false_and,
    if_false, if_neg hinside]
  rfl

theorem Stored.slotEntry_eq (h : Stored p contents) (ht : t < p.header.slotCount) :
    p.slotEntry t = .ok ((contents t).map fun _ => p.entry t) := by
  cases hc : contents t with
  | none => exact slotEntry_of_hole h.area_le ht (h.hole t ht hc)
  | some r => exact (h.holds t r hc).slotEntry_eq

theorem Stored.ne_none_of_liveBody (h : Stored p contents) {e : Nat × Nat} (he : e ∈ p.liveBody t) :
    contents t ≠ none ∧ e = p.entry t := by
  unfold liveBody at he
  split at he
  · rename_i o ho
    subst he
    have ht := (slotEntry_eq_some ho).1
    rw [h.slotEntry_eq ht] at ho
    cases hc : contents t with
    | none => rw [hc] at ho; cases ho
    | some => rw [hc] at ho; cases ho; exact ⟨by simp, rfl⟩
  · cases he

theorem Stored.liveBody_eq (h : Stored p contents) (hc : contents t ≠ none) :
    p.liveBody t = some (p.entry t) := by
  obtain ⟨r, hr⟩ := ne_none_iff_exists'.mp hc
  unfold liveBody
  rw [(h.holds t r hr).slotEntry_eq]

theorem Holds.readSlot_eq (h : Holds p t r) : p.readSlot t = .ok (some r) := by
  have hlen : r.toBytes.length = (p.entry t).2 := by
    rw [← h.read_eq, Buffer.length_read]
  have hfixed : ∀ {α : Type} (f : RecordFormat α) (a : α), r.toBytes = f.toBytes a →
      p.readRecord f t = .ok (some a) := by
    intro α f a hbytes
    have hsize : (p.entry t).2 = f.size := by
      rw [← hlen, hbytes, f.length_toBytes]
    have hread : p.bytes.read (p.entry t).1 f.size = f.toBytes a := by
      rw [← hbytes, ← h.read_eq, hsize]
    unfold readRecord
    rw [h.slotEntry_eq]
    simp only [bind, Except.bind, hsize, ne_eq, not_true_eq_false, if_false, hread,
      f.fromBytes_toBytes]
    rfl
  have htype := h.type_eq
  unfold readSlot
  cases r with
  | node r =>
    rw [← htype]
    simp only [PageRecord.pageType, readNode, hfixed nodeFormat r rfl]
    rfl
  | rel r =>
    rw [← htype]
    simp only [PageRecord.pageType, readRel, hfixed relFormat r rfl]
    rfl
  | bag bytes =>
    have hread : p.readRaw t = .ok (some bytes) := by
      unfold readRaw
      rw [h.slotEntry_eq]
      exact congrArg (fun b => Except.ok (some b)) h.read_eq
    rw [← htype]
    simp only [PageRecord.pageType, readBag, requirePageType, ← htype, if_true, hread]
    rfl

theorem Stored.readSlot_eq (h : Stored p contents) (ht : t < p.header.slotCount) :
    p.readSlot t = .ok (contents t) := by
  cases hc : contents t with
  | some r => exact (h.holds t r hc).readSlot_eq
  | none =>
    have hentry := slotEntry_of_hole h.area_le ht (h.hole t ht hc)
    unfold readSlot
    rcases h.slotted with htype | htype | htype
    · simp only [htype, readNode, readRecord, hentry]
      rfl
    · simp only [htype, readRel, readRecord, hentry]
      rfl
    · simp only [htype, readBag, requirePageType, if_true, readRaw, hentry]
      rfl

/-- A live slot other than the edited one keeps its entry and its bytes when they are apart
from the edited range. -/
theorem Holds.edit (h : Holds p t r) (hedit : Edit p p' slot start len) (hne : t ≠ slot)
    (hapart : Buffer.Apart (p.entry t).1 (p.entry t).2 start len) : Holds p' t r := by
  have hentry : p'.entry t = p.entry t := hedit.entry_ne t h.lt hne
  have hread : p'.bytes.read (p.entry t).1 (p.entry t).2 =
      p.bytes.read (p.entry t).1 (p.entry t).2 := hedit.read_apart _ _ h.area_le hapart
  refine ⟨?_, ?_, ?_, ?_, ?_⟩
  · rw [hedit.slotCount_eq]
    exact lt_max_of_lt_left h.lt
  · rw [hedit.same.pageType_eq]
    exact h.type_eq
  · rw [hentry]
    exact hedit.recordArea_le.trans h.area_le
  · rw [hentry]
    exact h.end_le
  · rw [hentry, hread]
    exact h.read_eq

section
variable (h : Stored p contents) (hedit : Edit p p' slot start len)
  (hfree : ∀ t, t ≠ slot → contents t ≠ none →
    Buffer.Apart (p.entry t).1 (p.entry t).2 start len)

include h hedit hfree

/-- What an edit apart from the other live slots leaves, whatever it did to its own. -/
theorem Stored.edit {r : Option PageRecord} (hhole : r = none → IsHole (p'.entry slot))
    (hholds : ∀ a, r = some a → Holds p' slot a)
    (hown : r ≠ none → ∀ t, t ≠ slot → contents t ≠ none →
      Buffer.Apart (p.entry t).1 (p.entry t).2 (p'.entry slot).1 (p'.entry slot).2) :
    Stored p' (update contents slot r) := by
  have hentry : ∀ t, t ≠ slot → contents t ≠ none → p'.entry t = p.entry t := by
    intro t hne hc
    obtain ⟨a, ha⟩ := ne_none_iff_exists'.mp hc
    exact hedit.entry_ne t (h.holds t a ha).lt hne
  refine ⟨?_, hedit.recordArea_le.trans h.area_le, ?_, ?_, ?_⟩
  · rw [hedit.same.pageType_eq]
    exact h.slotted
  · intro t ht hc
    rcases of_update_eq hc with ⟨rfl, hnone⟩ | ⟨hne, hc⟩
    · exact hhole hnone
    · -- a slot of the old directory is the hole it was, one of the gap is a new hole
      by_cases hold : t < p.header.slotCount
      · rw [hedit.entry_ne t hold hne]
        exact h.hole t hold hc
      · exact .inl (hedit.entry_gap t (not_lt.mp hold) ht hne)
  · intro t a hc
    rcases of_update_eq hc with ⟨rfl, hr⟩ | ⟨hne, hc⟩
    · exact hholds a hr
    · exact (h.holds t a hc).edit hedit hne (hfree t hne (by simp [hc]))
  · intro t u htu ht hu
    by_cases hts : t = slot
    · have hus : u ≠ slot := fun hus => htu (hts.trans hus.symm)
      rw [hts, update_self] at ht
      rw [update_of_ne hus] at hu
      rw [hts, hentry u hus hu]
      exact (hown ht u hus hu).symm
    · rw [update_of_ne hts] at ht
      by_cases hus : u = slot
      · rw [hus, update_self] at hu
        rw [hus, hentry t hts ht]
        exact hown hu t hts ht
      · rw [update_of_ne hus] at hu
        rw [hentry t hts ht, hentry u hus hu]
        exact h.apart t u htu ht hu

end

/-- The cell of the slot lies behind the directory and apart from the bodies of the other
slots. -/
def CellFree (p : SlottedPage) (slot len : Nat) : Prop :=
  slotOffset p.header.slotCount ≤ cellStart slot len ∧
    ∀ t < p.header.slotCount, t ≠ slot → ∀ e ∈ p.liveBody t,
      Buffer.Apart (cellStart slot len) len e.1 e.2

instance {off len off' len' : Nat} : Decidable (Buffer.Apart off len off' len') :=
  inferInstanceAs (Decidable (_ ∨ _))

instance (p : SlottedPage) (slot len : Nat) : Decidable (CellFree p slot len) :=
  inferInstanceAs (Decidable (_ ∧ _))

theorem CellFree.apart (hcell : CellFree p slot len) (h : Stored p contents) (hne : t ≠ slot)
    (hc : contents t ≠ none) :
    Buffer.Apart (p.entry t).1 (p.entry t).2 (cellStart slot len) len := by
  obtain ⟨r, hr⟩ := ne_none_iff_exists'.mp hc
  exact (hcell.2 t (h.holds t r hr).lt hne _ (h.liveBody_eq hc)).symm

theorem Stored.puts (h : Stored p contents)
    (htype : r.pageType = p.header.pageType) (hputs : Puts p p' slot r.toBytes cell)
    (hcell : ∀ c ∈ cell, CellFree p c.1 c.2) : Stored p' (update contents slot (some r)) := by
  obtain ⟨start, hplaces, hplace⟩ := hputs
  have hbody : p.slotEntry slot = .ok (some (start, r.toBytes.length)) →
      contents slot ≠ none ∧ (start, r.toBytes.length) = p.entry slot := by
    intro hown
    refine h.ne_none_of_liveBody ?_
    unfold liveBody
    rw [hown]
    exact rfl
  have hfree : ∀ t, t ≠ slot → contents t ≠ none →
      Buffer.Apart (p.entry t).1 (p.entry t).2 start r.toBytes.length := by
    intro t hne hc
    obtain ⟨a, ha⟩ := ne_none_iff_exists'.mp hc
    rcases hplace with hend | hown | ⟨rfl, rfl⟩
    · -- appended below the record area
      refine .inr ?_
      rw [hend]
      exact (h.holds t a ha).area_le
    · -- in place of the slot's own record
      obtain ⟨hslot, hentry⟩ := hbody hown
      have hapart := h.apart t slot hne hc hslot
      rw [← hentry] at hapart
      exact hapart
    · exact (hcell _ rfl).apart h hne hc
  have harea : p'.recordArea ≤ start := by
    rcases hplaces.recordArea_le with hle | hown
    · exact hle
    · obtain ⟨hslot, hentry⟩ := hbody hown
      obtain ⟨a, ha⟩ := ne_none_iff_exists'.mp hslot
      have hle := (h.holds slot a ha).area_le
      rw [← hentry] at hle
      exact hplaces.edit.recordArea_le.trans hle
  refine h.edit hplaces.edit hfree (fun hc => nomatch hc) ?_ ?_
  · rintro a ha
    cases ha
    refine ⟨?_, ?_, ?_, ?_, ?_⟩
    · rw [hplaces.edit.slotCount_eq]
      omega
    · rw [hplaces.edit.same.pageType_eq]
      exact htype
    · rw [hplaces.entry_eq]
      exact harea
    · rw [hplaces.entry_eq]
      exact hplaces.end_le
    · rw [hplaces.entry_eq]
      exact hplaces.read_eq
  · intro _ t hne hc
    rw [hplaces.entry_eq]
    exact hfree t hne hc

theorem Stored.empties (h : Stored p contents)
    (hempties : Empties p p' slot cell) (hcell : ∀ c ∈ cell, CellFree p c.1 c.2) :
    Stored p' (update contents slot none) := by
  obtain ⟨_, _, hedit, hhole, hrange⟩ := hempties
  refine h.edit hedit ?_ (fun _ => hhole) (fun _ ha => nomatch ha) (fun hc => absurd rfl hc)
  intro t hne hc
  obtain ⟨a, ha⟩ := ne_none_iff_exists'.mp hc
  rcases hrange with ⟨rfl, rfl⟩ | ⟨rfl, rfl⟩
  · exact .inl (h.holds t a ha).end_le
  · exact (hcell _ rfl).apart h hne hc

theorem stored_init {crc32c : Bytes → UInt32} {header : PageHeader}
    (h : init crc32c header = .ok p) : Stored p fun _ => none := by
  obtain ⟨htype, rfl⟩ := init_ok h
  refine ⟨htype, ?_, ?_, ?_, ?_⟩
  · exact recordArea_le_iff.mpr (Nat.le_of_eq (Nat.add_zero _))
  · intro t ht
    exact absurd ht (Nat.not_lt_zero t)
  · intro t r hr
    cases hr
  · intro t u _ ht
    exact absurd rfl ht

end SlottedPage

/-! ## Runs -/

structure PageRun where
  page : SlottedPage
  /-- The record last written to each slot since its last tombstone. -/
  contents : Nat → Option PageRecord

/-- The runs of successful operations from a page. -/
def pageRuns (crc32c : Bytes → UInt32) (p : SlottedPage) : System PageRun PageOp where
  init := ⟨p, fun _ => none⟩
  step s op :=
    match op.apply crc32c s.page with
    | .ok (slot, page) => some ⟨page, update s.contents slot op.written⟩
    | .error _ => none

/-- A direct-addressed operation finds its cell free. -/
def Clear (s : PageRun) (op : PageOp) : Prop := ∀ c ∈ op.cell, CellFree s.page c.1 c.2

instance (s : PageRun) (op : PageOp) : Decidable (Clear s op) :=
  inferInstanceAs (Decidable (∀ c ∈ op.cell, _))

section
variable {crc32c : Bytes → UInt32} {header : PageHeader} {p : SlottedPage} {s s' : PageRun}
  {op : PageOp}

theorem pageRuns_step (h : (pageRuns crc32c p).step s op = some s') :
    ∃ slot, op.apply crc32c s.page = .ok (slot, s'.page) ∧
      s'.contents = update s.contents slot op.written := by
  simp only [pageRuns] at h
  split at h
  · rename_i slot page happly
    cases h
    exact ⟨slot, happly, rfl⟩
  · cases h

theorem SlottedPage.Stored.apply {contents : Nat → Option PageRecord} {page page' : SlottedPage} {slot : Nat}
    (hs : Stored page contents) (hclear : ∀ c ∈ op.cell, CellFree page c.1 c.2)
    (h : op.apply crc32c page = .ok (slot, page')) :
    Stored page' (update contents slot op.written) := by
  obtain ⟨hstep, htype⟩ := PageOp.apply_ok h
  cases hw : op.written with rw [hw] at hstep
  | none =>
    exact hs.empties (hstep.empties fun c hc => (hclear c hc).1) hclear
  | some r =>
    exact hs.puts (htype r hw) hstep.puts hclear

theorem stored_of_reach (hinit : init crc32c header = .ok p)
    (h : (pageRuns crc32c p).Reach Clear s) : Stored s.page s.contents :=
  h.invariant (P := fun s => Stored s.page s.contents) (stored_init hinit) <| by
    intro s op s' hs hclear hstep
    obtain ⟨_, happly, hcontents⟩ := pageRuns_step hstep
    rw [hcontents]
    exact hs.apply hclear happly

/-- In runs of clear operations every slot reads its contents, an operation changes what
its own slot reads only, and live bodies overlap neither each other nor the directory. -/
theorem reads_contents_of_clear (hinit : init crc32c header = .ok p)
    (h : (pageRuns crc32c p).Reach Clear s) :
    (∀ t < s.page.header.slotCount, s.page.readSlot t = .ok (s.contents t)) ∧
    (∀ op slot page, Clear s op → op.apply crc32c s.page = .ok (slot, page) →
      page.readSlot slot = .ok op.written ∧
      ∀ t < s.page.header.slotCount, t ≠ slot → page.readSlot t = s.page.readSlot t) ∧
    (∀ t, ∀ e ∈ s.page.liveBody t, slotOffset s.page.header.slotCount ≤ e.1 ∧ e.1 + e.2 ≤ pageSize ∧
      ∀ u, u ≠ t → ∀ e' ∈ s.page.liveBody u, Buffer.Apart e.1 e.2 e'.1 e'.2) := by
  have hs := stored_of_reach hinit h
  refine ⟨fun t ht => hs.readSlot_eq ht, ?_, ?_⟩
  · intro op slot page hclear happly
    have hs' := hs.apply hclear happly
    obtain ⟨_, _, hedit⟩ :=
      (PageOp.apply_ok happly).1.edit fun _ c hc => (hclear c hc).1
    have hcount := hedit.slotCount_eq
    constructor
    · rw [hs'.readSlot_eq (by omega), update_self]
    · intro t ht hne
      rw [hs'.readSlot_eq (by omega), update_of_ne hne, hs.readSlot_eq ht]
  · intro t e he
    obtain ⟨ht, rfl⟩ := hs.ne_none_of_liveBody he
    obtain ⟨r, hr⟩ := ne_none_iff_exists'.mp ht
    have hholds := hs.holds t r hr
    refine ⟨slotOffset_le_recordArea.trans hholds.area_le, hholds.end_le, ?_⟩
    intro u hne e' he'
    obtain ⟨hu, rfl⟩ := hs.ne_none_of_liveBody he'
    exact hs.apart t u hne.symm ht hu

end

/-! ## A direct write over another slot's record -/

def nodeOf (id : UInt64) : NodeRecord where
  id := id
  labelId := 0
  flags := 1
  propertyRef := 0
  inlineU32a := 0
  inlineU32b := 0
  vectorRef := 0
  outTelRef := 0
  inTelRef := 0
  createdLsn := 1
  version_eq := by decide

def freshNodePage : SlottedPage where
  header := { pageType := .node, pageId := 0, tenantId := 1, freeSpace := pageBodyBytes }
  bytes := Buffer.zero

def freshNodeRuns : System PageRun PageOp := pageRuns (fun _ => 0) freshNodePage

def mixedRun : PageRun := freshNodeRuns.after Clear
  [.writeNodeAtSlot 1 (nodeOf 11), .writeNodeAtSlot 0 (nodeOf 10), .updateNode 1 (nodeOf 12),
    .permanentTombstoneNodeAtSlot 0 7, .insertNode (nodeOf 13)]

theorem reads_contents_mixedRun :
    mixedRun.page.header.slotCount = 3 ∧ (∀ t < mixedRun.page.header.slotCount,
      mixedRun.page.readSlot t = .ok (mixedRun.contents t)) := by
  refine ⟨by decide +kernel, ?_⟩
  have hinit : init (fun _ => 0) freshNodePage.header = .ok freshNodePage := rfl
  have hreach : (pageRuns (fun _ => 0) freshNodePage).Reach Clear mixedRun :=
    .after (by decide +kernel)
  exact (reads_contents_of_clear hinit hreach).1

/-- Redo put slot 1 on the empty page and slot 0 after it, so each record lies in the cell of
the other; then slot 0 was tombstoned. -/
def tradedCells : PageRun := freshNodeRuns.after (fun _ _ => True)
  [.putNodeAt 1 (nodeOf 11), .putNodeAt 0 (nodeOf 10), .tombstone 0]

/-- The header has the counts of a page of cells and slot 0 no record to compare with its
cell, so the direct write succeeds, and slot 1 reads what slot 0 was given. -/
theorem direct_write_over_other_slot :
    init (fun _ => 0) freshNodePage.header = .ok freshNodePage ∧
    freshNodeRuns.Reach (fun _ _ => True) tradedCells ∧
    freshNodeRuns.step tradedCells (.writeNodeAtSlot 0 (nodeOf 12)) =
      some (freshNodeRuns.next tradedCells (.writeNodeAtSlot 0 (nodeOf 12))) ∧
    tradedCells.page.readSlot 1 = .ok (some (.node (nodeOf 11))) ∧
    (freshNodeRuns.next tradedCells (.writeNodeAtSlot 0 (nodeOf 12))).page.readSlot 1 =
      .ok (some (.node (nodeOf 12))) := by
  refine ⟨rfl, .after (by decide +kernel), System.step_next (by decide +kernel), ?_, ?_⟩
  · decide +kernel
  · decide +kernel

end ArcGraph.Records
