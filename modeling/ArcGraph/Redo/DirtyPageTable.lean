import ArcGraph.Basic
import ArcGraph.Foundation.Sorting
import Mathlib.Data.List.AList
import Mathlib.Data.List.Induction

/-!
# The dirty-page table

One entry for each page with changes that its home image may lack: the LSN redo has
to start from for the page, and a generation from a table-wide clock that changes
with every mark. A flush removes an entry only if its generation is still the one
the flush observed.
-/

namespace ArcGraph.Redo
open Foundation List AList

structure DirtyPageKey where
  tenantId : TenantId
  storeId : UInt16
  pageNo : UInt64
deriving DecidableEq

structure DirtyPageSnapshot where
  key : DirtyPageKey
  recLsn : Nat
  dirtyGen : Nat
deriving DecidableEq

structure DirtyPageEntry where
  recLsn : Nat
  dirtyGen : Nat
deriving DecidableEq

def DirtyPageEntry.snapshot (e : DirtyPageEntry) (key : DirtyPageKey) : DirtyPageSnapshot :=
  ⟨key, e.recLsn, e.dirtyGen⟩

variable (s : DirtyPageSnapshot)

def DirtyPageSnapshot.entry : DirtyPageEntry := ⟨s.recLsn, s.dirtyGen⟩

def DirtyPageSnapshot.sortKey : Nat ×ₗ Nat ×ₗ Nat :=
  toLex (s.key.tenantId.toNat, toLex (s.key.storeId.toNat, s.key.pageNo.toNat))

structure DirtyPageTable where
  entries : AList fun _ : DirtyPageKey => DirtyPageEntry := ∅
  dirtyGenClock : Nat := 0

namespace DirtyPageTable

def new : DirtyPageTable := {}

variable (t : DirtyPageTable) (key : DirtyPageKey)

def get : Option DirtyPageEntry := t.entries.lookup key

/-- What the two ways to mark a page share; they differ in the recovery LSN of a page
that is dirty already. -/
def markWith (again : Nat → Nat → Nat) (t : DirtyPageTable) (key : DirtyPageKey) (opLsn : Nat) :
    DirtyPageSnapshot × DirtyPageTable :=
  let gen := t.dirtyGenClock + 1
  let entry : DirtyPageEntry :=
    match t.get key with
    | some e => ⟨again e.recLsn opLsn, gen⟩
    | none => ⟨opLsn, gen⟩
  (entry.snapshot key, ⟨t.entries.insert key entry, gen⟩)

def markDirty (opLsn : Nat) :
    DirtyPageSnapshot × DirtyPageTable :=
  t.markWith (fun recLsn _ => recLsn) key opLsn

def markDirtyCovering (opLsn : Nat) :
    DirtyPageSnapshot × DirtyPageTable :=
  t.markWith min key opLsn

def restore (snapshots : List DirtyPageSnapshot) : DirtyPageTable where
  entries := snapshots.foldl (fun entries s => entries.insert s.key s.entry) ∅
  dirtyGenClock := max t.dirtyGenClock ((snapshots.map (·.dirtyGen)).foldr max 0)

def snapshot : List DirtyPageSnapshot :=
  sortBy DirtyPageSnapshot.sortKey (t.entries.entries.map fun e => e.2.snapshot e.1)

def snapshotKey : Option DirtyPageSnapshot :=
  (t.get key).map (·.snapshot key)

def completeFlush (flushed : DirtyPageSnapshot) : Bool × DirtyPageTable :=
  if (t.get flushed.key).any (fun current => current.dirtyGen == flushed.dirtyGen) then
    (true, { t with entries := t.entries.erase flushed.key })
  else (false, t)

def redoLsn (checkpointLsn : Nat) : Nat :=
  (t.entries.entries.map (·.2.recLsn)).min?.getD checkpointLsn

/-! ## Lookups after each operation -/

@[simp] theorem get_new : new.get key = none := rfl

variable (again : Nat → Nat → Nat)

theorem get_markWith_ne (t : DirtyPageTable) (opLsn : Nat)
    {key key' : DirtyPageKey} (h : key' ≠ key) :
    (t.markWith again key opLsn).2.get key' = t.get key' :=
  lookup_insert_ne h

theorem get_markWith_self (t : DirtyPageTable) (key : DirtyPageKey) (opLsn : Nat) :
    (t.markWith again key opLsn).2.get key =
      some ⟨((t.get key).map (again ·.recLsn opLsn)).getD opLsn, t.dirtyGenClock + 1⟩ := by
  refine (lookup_insert t.entries).trans ?_
  cases t.get key <;> rfl

variable {t : DirtyPageTable} {s : DirtyPageSnapshot} {key : DirtyPageKey}
  {snapshots : List DirtyPageSnapshot} {e : DirtyPageEntry}

theorem mem_snapshot : s ∈ t.snapshot ↔ t.get s.key = some s.entry := by
  unfold snapshot get
  rw [mem_sortBy, mem_map, ← Option.mem_def, mem_lookup_iff]
  constructor
  · rintro ⟨e, he, rfl⟩
    exact he
  · intro h
    exact ⟨⟨s.key, s.entry⟩, h, rfl⟩

theorem nodup_keys_snapshot (t : DirtyPageTable) : (t.snapshot.map (·.key)).Nodup := by
  have hperm := (perm_sortBy DirtyPageSnapshot.sortKey
    (t.entries.entries.map fun e => e.2.snapshot e.1)).map (·.key)
  refine hperm.nodup_iff.mpr ?_
  rw [map_map]
  exact t.entries.keys_nodup

theorem snapshotKey_eq_some :
    t.snapshotKey key = some s ↔ s.key = key ∧ t.get key = some s.entry := by
  unfold snapshotKey
  rw [Option.map_eq_some_iff]
  constructor
  · rintro ⟨e, he, rfl⟩
    exact ⟨rfl, he⟩
  · rintro ⟨rfl, h⟩
    exact ⟨s.entry, h, rfl⟩

section
variable (t : DirtyPageTable)

theorem get_completeFlush_ne (h : key ≠ s.key) : (t.completeFlush s).2.get key = t.get key := by
  unfold completeFlush
  split
  · exact lookup_erase_ne h
  · rfl

@[simp] theorem dirtyGenClock_completeFlush (s : DirtyPageSnapshot) :
    (t.completeFlush s).2.dirtyGenClock = t.dirtyGenClock := by
  unfold completeFlush
  split <;> rfl

theorem get_completeFlush_self (s : DirtyPageSnapshot) :
    (∃ e, t.get s.key = some e ∧ e.dirtyGen = s.dirtyGen ∧
      (t.completeFlush s).2.get s.key = none) ∨ (t.completeFlush s).2 = t := by
  unfold completeFlush
  cases ht : t.get s.key with
  | none => exact .inr rfl
  | some e =>
    by_cases hgen : e.dirtyGen = s.dirtyGen
    · rw [if_pos (by simpa using hgen)]
      exact .inl ⟨e, rfl, hgen, lookup_erase _ _⟩
    · rw [if_neg (by simpa using hgen)]
      exact .inr rfl

theorem get_restore (hnodup : (snapshots.map (·.key)).Nodup) :
    (t.restore snapshots).get key = some e ↔ e.snapshot key ∈ snapshots := by
  -- from the last snapshot: what is inserted last is what a lookup finds
  have hfold : ∀ l : List DirtyPageSnapshot, (l.map (·.key)).Nodup →
      ((l.foldl (fun entries s => entries.insert s.key s.entry)
        (∅ : AList fun _ : DirtyPageKey => DirtyPageEntry)).lookup key = some e ↔
          e.snapshot key ∈ l) := by
    intro l hl
    induction l using reverseRecOn with
    | nil => simp
    | append_singleton l s ih =>
      rw [map_append, nodup_append] at hl
      rw [foldl_append, foldl_cons, foldl_nil, mem_append, mem_singleton]
      by_cases hk : key = s.key
      · subst hk
        have hnot : e.snapshot s.key ∉ l := fun hmem =>
          hl.2.2 s.key (mem_map.mpr ⟨_, hmem, rfl⟩) s.key (by simp) rfl
        rw [lookup_insert, Option.some_inj]
        constructor
        · rintro rfl
          exact .inr rfl
        · rintro (h | h)
          · exact absurd h hnot
          · exact h ▸ rfl
      · rw [lookup_insert_ne hk, ih hl.1]
        constructor
        · exact .inl
        · rintro (h | rfl)
          · exact h
          · exact absurd rfl hk
  exact hfold snapshots hnodup

theorem dirtyGen_le_restore (h : s ∈ snapshots) :
    s.dirtyGen ≤ (t.restore snapshots).dirtyGenClock := by
  refine le_trans ?_ (le_max_right _ _)
  induction snapshots with
  | nil => cases h
  | cons s' rest ih =>
    rcases mem_cons.mp h with rfl | h
    · exact le_max_left _ _
    · exact (ih h).trans (le_max_right _ _)

end

theorem redoLsn_le (h : t.get key = some e)
    (checkpointLsn : Nat) : t.redoLsn checkpointLsn ≤ e.recLsn := by
  have hmem : e.recLsn ∈ t.entries.entries.map (·.2.recLsn) :=
    mem_map.mpr ⟨⟨key, e⟩, mem_lookup_iff.mp h, rfl⟩
  unfold redoLsn
  cases hmin : (t.entries.entries.map (·.2.recLsn)).min? with
  | none =>
    rw [min?_eq_none_iff.mp hmin] at hmem
    cases hmem
  | some m => exact (min?_eq_some_iff.mp hmin).2 _ hmem

end DirtyPageTable
end ArcGraph.Redo
