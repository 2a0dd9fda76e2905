import ArcGraph.Records.Isolation
import ArcGraph.Redo.Apply

/-!
# Permanent tombstones

The entry `(0, 65535)` of a slot records that its record was deleted for good. The direct
writes, the puts of node and relationship records and the rows of the owner stores refuse
such a slot, and an update finds no record in it. The plain tombstone does not look: it
turns the marker into the entry `(0, 0)` of a hole, which the next put may fill. Redo of a
`TombstoneRecord` on a node page is a plain tombstone. `putBagAt`, which is redo of a
`PutPropBlock`, fills the slot at once.

In runs without these on the slot the marker stays (`marker_kept_of_spares`).
-/

namespace ArcGraph.Redo
open Foundation Records Wal SlottedPage Option PageOp

/-! ## One operation -/

section
variable {crc32c : Bytes → UInt32} {p p' : SlottedPage} {slot t len capacity : Nat} {op : PageOp}

theorem isPermanentTombstone_iff : p.isPermanentTombstone slot = .ok true ↔
    slot < p.header.slotCount ∧ slotOffset slot + slotSize ≤ pageSize ∧
      p.entry slot = (0, permanentTombstoneLen) := by
  simp only [isPermanentTombstone, ite_throw_bind_eq_ok, pure_eq_ok, not_le, not_lt,
    decide_eq_true_eq]

section
variable (h : p.isPermanentTombstone slot = .ok true)
include h

theorem slotEntry_of_marked : p.slotEntry slot = .ok none := by
  obtain ⟨hslot, hfits, hentry⟩ := isPermanentTombstone_iff.mp h
  simp only [slotEntry, if_neg (not_le.mpr hslot), if_neg (not_lt.mpr hfits), hentry,
    true_and, or_true, if_true]
  rfl

theorem isMarked_of_marked : p.isMarked slot = .ok true := by
  unfold isMarked
  rw [if_pos (isPermanentTombstone_iff.mp h).1, h]

theorem marked_of_edit {start : Nat} (hedit : Edit p p' t start len) (hne : slot ≠ t) :
    p'.isPermanentTombstone slot = .ok true := by
  obtain ⟨hslot, hfits, hentry⟩ := isPermanentTombstone_iff.mp h
  refine isPermanentTombstone_iff.mpr ⟨?_, hfits, ?_⟩
  · rw [hedit.slotCount_eq]
    exact lt_max_of_lt_left hslot
  · rw [hedit.entry_ne slot hslot hne, hentry]

end

section
variable (h : p.isPermanentTombstone slot = .ok true) {record : Bytes} {α : Type}

include h

theorem insertRaw_ne_marked (hop : p.insertRaw crc32c record = .ok (t, p')) : t ≠ slot := by
  obtain ⟨-, -, rfl, -⟩ := insertRaw_ok_iff.mp hop
  exact (isPermanentTombstone_iff.mp h).1.ne'

theorem overwrite_refused : p.overwrite crc32c slot record len ≠ .ok p' := by
  intro hop
  obtain ⟨_, hentry, -⟩ := overwrite_ok hop
  rw [slotEntry_of_marked h] at hentry
  cases hentry

variable (f : RecordFormat α)

theorem writeRecordAtSlot_refused (r : α) : p.writeRecordAtSlot crc32c f slot r ≠ .ok p' := by
  intro hop
  obtain ⟨u, -, hop⟩ := bind_eq_ok.mp hop
  obtain ⟨v, hguard, -⟩ := bind_eq_ok.mp hop
  unfold guardMonotonePublish at hguard
  rw [if_pos (isPermanentTombstone_iff.mp h).1, h] at hguard
  cases hguard

theorem putRecordAt_refused (r : α) : p.putRecordAt crc32c f slot r ≠ .ok p' := by
  intro hop
  obtain ⟨u, -, hop⟩ := bind_eq_ok.mp hop
  rw [isMarked_of_marked h] at hop
  cases hop

theorem putFixedBagAtSlot_refused {bag : Bytes} :
    p.putFixedBagAtSlot crc32c slot bag capacity ≠ .ok p' := by
  intro hop
  obtain ⟨u, -, hop⟩ := bind_eq_ok.mp hop
  simp only [ite_throw_bind_eq_ok, isMarked_of_marked h] at hop
  cases hop.2.2

end
def ends (slot : Nat) : PageOp → Bool
  | .tombstone t => t = slot
  | .putBagAt t _ => t = slot
  | _ => false

def MarksBehind (p : SlottedPage) (op : PageOp) : Prop :=
  op.written = none → ∀ c ∈ op.cell, slotOffset p.header.slotCount ≤ cellStart c.1 c.2

variable (h : p.isPermanentTombstone slot = .ok true)
include h

theorem marked_of_mark {lsn : Nat} (hcell : slotOffset p.header.slotCount ≤ cellStart slot len)
    (hop : p.writeFixedPermanentTombstone crc32c slot lsn len capacity = .ok p') :
    p'.isPermanentTombstone slot = .ok true := by
  obtain ⟨-, hfits, -⟩ := isPermanentTombstone_iff.mp h
  obtain ⟨⟨_, _, hedit, -⟩, hentry⟩ :=
    empties_writeFixedPermanentTombstone hcell hop
  refine isPermanentTombstone_iff.mpr ⟨?_, hfits, hentry⟩
  rw [hedit.slotCount_eq]
  omega

theorem marked_of_apply_self (hends : ends slot op = false)
    (hbehind : MarksBehind p op) (hop : op.apply crc32c p = .ok (slot, p')) :
    p'.isPermanentTombstone slot = .ok true := by
  cases op with
  | insertNode | insertRel =>
    obtain ⟨u, -, hop⟩ := bind_eq_ok.mp hop
    exact absurd rfl (insertRaw_ne_marked h hop)
  | insertBag =>
    obtain ⟨u, -, hop⟩ := bind_eq_ok.mp hop
    simp only [ite_throw_bind_eq_ok] at hop
    exact absurd rfl (insertRaw_ne_marked h hop.2.2)
  | putNodeAt _ r | putRelAt _ r =>
    obtain ⟨rfl, hp⟩ := onSlot_ok hop
    exact absurd hp (putRecordAt_refused h _ r)
  | putBagAt | tombstone =>
    obtain ⟨rfl, -⟩ := onSlot_ok hop
    exact absurd rfl (of_decide_eq_false hends)
  | writeNodeAtSlot _ r | writeRelAtSlot _ r =>
    obtain ⟨rfl, hp⟩ := onSlot_ok hop
    exact absurd hp (writeRecordAtSlot_refused h _ r)
  | putFixedBagAtSlot =>
    obtain ⟨rfl, hp⟩ := onSlot_ok hop
    exact absurd hp (putFixedBagAtSlot_refused h)
  | updateNode | updateRel =>
    obtain ⟨rfl, hp⟩ := onSlot_ok hop
    obtain ⟨u, -, hp⟩ := bind_eq_ok.mp hp
    exact absurd hp (overwrite_refused h)
  | permanentTombstoneNodeAtSlot
  | permanentTombstoneRelAtSlot
  | permanentTombstoneFixedBagAtSlot =>
    obtain ⟨rfl, hp⟩ := onSlot_ok hop
    obtain ⟨u, -, hp⟩ := bind_eq_ok.mp hp
    exact marked_of_mark h (hbehind rfl _ rfl) hp

theorem marked_of_apply (hends : ends slot op = false)
    (hbehind : MarksBehind p op) (hop : op.apply crc32c p = .ok (t, p')) :
    p'.isPermanentTombstone slot = .ok true := by
  by_cases ht : slot = t
  · subst ht
    exact marked_of_apply_self h hends hbehind hop
  · obtain ⟨_, _, hedit⟩ := (apply_ok hop).1.edit fun hnone =>
      hbehind (map_eq_none_iff.mp hnone)
    exact marked_of_edit h hedit ht

end

/-! ## Runs of operations and redo -/

inductive PageStep
  | page (op : PageOp)
  | redo (op : DeltaOp) (commitLsn : Nat)

/-- The runs of successful operations and redo deltas on a page. -/
def pageSteps (crc32c : Bytes → UInt32) (p : SlottedPage) : System SlottedPage PageStep where
  init := p
  step p
    | .page op => (op.apply crc32c p).toOption.map Prod.snd
    | .redo op commitLsn =>
      (applyPhysicalDelta crc32c p op commitLsn).toOption.map fun changed => changed.getD p

/-- The delta does not end the marker of the slot: it is covered by the page's LSN, or it is
neither a property block for the slot nor a tombstone of the slot on a node page. A
retirement finds its cell behind the directory. -/
def SparesDelta (slot : Nat) (p : SlottedPage) (op : DeltaOp) : Prop :=
  p.header.lsn < op.opLsn →
    (op.slot.toNat = slot → op.kind ≠ .putPropBlock ∧
      ¬ (op.kind = .tombstoneRecord ∧ p.header.pageType = .node)) ∧
    (op.kind = .internBind ∨ op.kind = .aclGrant →
      slotOffset p.header.slotCount ≤ cellStart op.slot.toNat ownerRowBytes)

def Spares (slot : Nat) (p : SlottedPage) : PageStep → Prop
  | .page op => ends slot op = false ∧ MarksBehind p op
  | .redo op _ => SparesDelta slot p op

instance (p : SlottedPage) (op : PageOp) : Decidable (MarksBehind p op) :=
  inferInstanceAs (Decidable (_ → ∀ c ∈ op.cell, _))

instance (slot : Nat) (p : SlottedPage) (op : DeltaOp) : Decidable (SparesDelta slot p op) :=
  inferInstanceAs (Decidable (_ → _ ∧ _))

instance (slot : Nat) (p : SlottedPage) : (a : PageStep) → Decidable (Spares slot p a)
  | .page op => inferInstanceAs (Decidable (ends slot op = false ∧ MarksBehind p op))
  | .redo op _ => inferInstanceAs (Decidable (SparesDelta slot p op))

section
variable {crc32c : Bytes → UInt32} {p p' : SlottedPage} {slot : Nat}

theorem marked_of_redo {op : DeltaOp} {commitLsn : Nat}
    (h : p.isPermanentTombstone slot = .ok true) (hspares : SparesDelta slot p op)
    (hop : applyPhysicalDelta crc32c p op commitLsn = .ok (some p')) :
    p'.isPermanentTombstone slot = .ok true := by
  obtain ⟨u, -, hop⟩ := bind_eq_ok.mp hop
  obtain ⟨hlsn, q, hq, rfl⟩ := applyRedoIfNewer_some hop
  obtain ⟨hslot, hcell⟩ := hspares hlsn
  obtain ⟨pageOp, hredoes, happly⟩ := mutatePage_ok hq
  -- the stamp changes neither the directory nor the slot count
  change q.isPermanentTombstone slot = .ok true
  have hends : ends slot pageOp = false := by
    cases hredoes with
    | putBag hkind => exact decide_eq_false fun heq => (hslot heq).1 hkind
    | tombstoneNode hkind htype => exact decide_eq_false fun heq => (hslot heq).2 ⟨hkind, htype⟩
    | putNode | putRel | putRow | retireRow | expireRel => rfl
  have hbehind : MarksBehind p pageOp := by
    cases hredoes with
    | retireRow hkind =>
      rintro - c ⟨⟩
      exact hcell hkind
    | tombstoneNode =>
      rintro - c ⟨⟩
    | putNode | putRel | putBag | putRow | expireRel =>
      intro hnone
      cases hnone
  exact marked_of_apply h hends hbehind happly

theorem marked_of_step {a : PageStep} {start : SlottedPage}
    (h : p.isPermanentTombstone slot = .ok true)
    (hspares : Spares slot p a) (hstep : (pageSteps crc32c start).step p a = some p') :
    p'.isPermanentTombstone slot = .ok true := by
  cases a with
  | page =>
    obtain ⟨⟨_, _⟩, hq, rfl⟩ := map_eq_some_iff.mp hstep
    exact marked_of_apply h hspares.1 hspares.2 (toOption_eq_some.mp hq)
  | redo =>
    obtain ⟨changed, hchanged, rfl⟩ := map_eq_some_iff.mp hstep
    cases changed with
    | none => exact h
    | some => exact marked_of_redo h hspares (toOption_eq_some.mp hchanged)

/-- In every run that spares the slot, the slot stays permanently tombstoned and reads as
absent. -/
theorem marker_kept_of_spares (h : p.isPermanentTombstone slot = .ok true)
    (hreach : (pageSteps crc32c p).Reach (Spares slot) p') :
    p'.isPermanentTombstone slot = .ok true ∧ p'.readRaw slot = .ok none ∧
      p'.readNode slot = .ok none ∧ p'.readRel slot = .ok none := by
  have hmarked : p'.isPermanentTombstone slot = .ok true :=
    hreach.invariant (P := fun q => q.isPermanentTombstone slot = .ok true) h
      fun _ _ _ hq hspares hstep => marked_of_step hq hspares hstep
  have hentry := slotEntry_of_marked hmarked
  refine ⟨hmarked, ?_, ?_, ?_⟩
  · unfold readRaw
    rw [hentry]
    rfl
  · unfold readNode readRecord
    rw [hentry]
    rfl
  · unfold readRel readRecord
    rw [hentry]
    rfl

end

/-! ## Redo revives a deleted node -/

def deletedPage : SlottedPage :=
  (((permanentTombstoneNodeAtSlot 0 7).apply (fun _ => 0) freshNodePage).toOption.map
    Prod.snd).getD freshNodePage

def deletedRuns : System SlottedPage PageStep := pageSteps (fun _ => 0) deletedPage

def nodeDelta (kind : DeltaOpKind) (slot : UInt16) (opLsn : Nat) (payload : Bytes) : DeltaOp where
  kind := kind
  storeId := storeRecord
  tenantId := 1
  pageNo := 0
  slot := slot
  opLsn := opLsn
  payload := payload

def sparedPage : SlottedPage := deletedRuns.after (Spares 0)
  [.page (.writeNodeAtSlot 1 (nodeOf 11)), .page (.permanentTombstoneNodeAtSlot 0 9),
    .redo (nodeDelta .putRecord 1 8 (nodeOf 12).toBytes) 8,
    .redo (nodeDelta .tombstoneRecord 1 10 []) 10]

theorem marker_kept_sparedPage :
    deletedPage.isPermanentTombstone 0 = .ok true ∧
    sparedPage.isPermanentTombstone 0 = .ok true := by
  have hmarked : deletedPage.isPermanentTombstone 0 = .ok true := by decide +kernel
  have hreach : (pageSteps (fun _ => 0) deletedPage).Reach (Spares 0) sparedPage :=
    .after (by decide +kernel)
  exact ⟨hmarked, (marker_kept_of_spares hmarked hreach).1⟩

def revivedPage : SlottedPage := deletedRuns.after (fun _ _ => True)
  [.redo (nodeDelta .tombstoneRecord 0 8 []) 9,
    .redo (nodeDelta .putRecord 0 9 (nodeOf 12).toBytes) 9]

/-- A redone tombstone turns the marker into a hole, and a redone put fills it. -/
theorem redo_revives_deleted :
    deletedPage.isPermanentTombstone 0 = .ok true ∧
    deletedRuns.Reach (fun _ _ => True) revivedPage ∧
    revivedPage.isPermanentTombstone 0 = .ok false ∧
    revivedPage.readNode 0 = .ok (some (nodeOf 12)) := by
  refine ⟨by decide +kernel, .after (by decide +kernel), by decide +kernel, by decide +kernel⟩

end ArcGraph.Redo
