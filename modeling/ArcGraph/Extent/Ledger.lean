import ArcGraph.Extent.Directory
import ArcGraph.Foundation.DenseLedger

/-!
# A directory as a dense ledger

The entries of a directory are a ledger with the extents of the store file as places. The
census accepts exactly the dense ledgers below the cap (`census_ok_iff`), and an allocation
does to the directory what an assignment does to the ledger (`Recovered.apply`).
-/

namespace ArcGraph.Extent
open Foundation Records Wal Function List Buffer Nat Except ExtentAllocation
variable {i : Nat}

namespace DirectoryEntry
variable {b b' : Buffer} {off off' : Nat} {e : DirectoryEntry}

theorem decode_congr (h : ∀ i, off ≤ i → i < off + directoryEntryBytes → b i = b' i) :
    decode b off = decode b' off := by
  have hread : ∀ o w, o + w ≤ directoryEntryBytes → b.read (off + o) w = b'.read (off + o) w := by
    intro o w hw
    apply read_congr
    intro i hi hi'
    exact h i (by omega) (by omega)
  unfold decode uintAt
  have hall := hread 0 directoryEntryBytes (le_of_eq (zero_add _))
  have hlogical := hread 0 8 (by decide)
  rw [add_zero] at hall hlogical
  rw [hall, hlogical, hread 8 8 (by decide), hread 16 4 (by decide), hread 20 4 (by decide)]

theorem encode_apart (h : i < off ∨ off + directoryEntryBytes ≤ i) : e.encode b off i = b i := by
  unfold directoryEntryBytes at h
  unfold encode write
  simp only [length_leBytes]
  rw [if_neg (by omega), if_neg (by omega), if_neg (by omega), if_neg (by omega)]

theorem decode_encode_apart (h : Buffer.Apart off' directoryEntryBytes off directoryEntryBytes) :
    decode (e.encode b off) off' = decode b off' := by
  unfold Buffer.Apart at h
  apply decode_congr
  intro i hi hi'
  exact encode_apart (by omega)

theorem decode_zero : decode zero off = none := by
  apply if_pos
  rw [all_eq_true]
  refine forall_mem_map.mpr fun _ _ => ?_
  rfl

structure Fits (e : DirectoryEntry) : Prop where
  logicalExtent : e.allocation.logicalExtent < 256 ^ 8
  physicalOffset : e.allocation.physicalOffset < 256 ^ 8
  pairing : e.allocation.pairing < 256 ^ 4
  generation : e.generation < 256 ^ 4
  nonzero : e.generation ≠ 0

theorem decode_encode (he : e.Fits) : decode (e.encode b off) off = some e := by
  have hlogical : (e.encode b off).uintAt off 8 = e.allocation.logicalExtent := by
    unfold encode
    rw [Buffer.uintAt_write_apart, Buffer.uintAt_write_apart, Buffer.uintAt_write_apart,
      Buffer.uintAt_write_self he.logicalExtent]
    all_goals
      rw [length_leBytes]
      exact .inl (by omega)
  have hphysical : (e.encode b off).uintAt (off + 8) 8 = e.allocation.physicalOffset := by
    unfold encode
    rw [Buffer.uintAt_write_apart, Buffer.uintAt_write_apart,
      Buffer.uintAt_write_self he.physicalOffset]
    all_goals
      rw [length_leBytes]
      exact .inl (by omega)
  have hpairing : (e.encode b off).uintAt (off + 16) 4 = e.allocation.pairing := by
    unfold encode
    rw [Buffer.uintAt_write_apart, Buffer.uintAt_write_self he.pairing]
    rw [length_leBytes]
    exact .inl (by omega)
  have hgeneration : (e.encode b off).uintAt (off + 20) 4 = e.generation := by
    unfold encode
    rw [Buffer.uintAt_write_self he.generation]
  have hsome : ¬ ((e.encode b off).read off directoryEntryBytes).all (· = 0) := by
    intro hall
    -- Zeros in all the bytes would make the generation zero.
    have hzero : (e.encode b off).read (off + 20) 4 = replicate 4 0 := by
      refine ext_getElem (by simp) fun i hi _ => ?_
      rw [all_eq_true] at hall
      have hmem : e.encode b off (off + (20 + i)) ∈
          (e.encode b off).read off directoryEntryBytes := by
        refine mem_map.mpr ⟨20 + i, mem_range.mpr ?_, rfl⟩
        rw [Buffer.length_read] at hi
        unfold directoryEntryBytes
        omega
      have hbyte := of_decide_eq_true (hall _ hmem)
      rw [getElem_replicate]
      simpa [Buffer.read, add_assoc] using hbyte
    apply he.nonzero
    rw [← hgeneration, Buffer.uintAt, hzero, leValue_replicate_zero]
  unfold decode
  rw [if_neg hsome, hlogical, hphysical, hpairing, hgeneration]

end DirectoryEntry

theorem entryOffset_apart {slot slot' : Nat} (h : slot ≠ slot') :
    Buffer.Apart (entryOffset slot) directoryEntryBytes (entryOffset slot')
      directoryEntryBytes := by
  unfold Buffer.Apart entryOffset directoryEntryBytes
  omega

theorem denseOffset_injective : Injective denseOffset := by
  intro i j h
  unfold denseOffset extentBytes at h
  have hpos : 0 < extentPages * pageSize := by decide
  exact eq_of_mul_eq_mul_right hpos (by omega)

def DirectoryEntry.place (e : DirectoryEntry) : Nat := e.allocation.physicalOffset

def directorySlots : Nat := directoryHeadPages * directoryEntriesPerPage

theorem directoryEntriesPerPage_pos : 0 < directoryEntriesPerPage := by decide

open DirectoryEntry

namespace ExtentDirectory
variable (d : ExtentDirectory)

def entry (l : Nat) : Option DirectoryEntry :=
  (d.pages (l / directoryEntriesPerPage)).bind fun page =>
    DirectoryEntry.decode page.bytes (entryOffset (l % directoryEntriesPerPage))

def ledger (n : Nat) : Ledger Nat DirectoryEntry := ⟨d.entry, n⟩

variable {d}

variable {k l n slot : Nat} {a : ExtentAllocation} {page : SlottedPage} {acc r : List Nat}

theorem entry_page (hslot : slot < directoryEntriesPerPage) :
    d.entry (k * directoryEntriesPerPage + slot) = (d.pages k).bind fun page =>
      decode page.bytes (entryOffset slot) := by
  have hdiv : (k * directoryEntriesPerPage + slot) / directoryEntriesPerPage = k := by
    rw [mul_comm, mul_add_div directoryEntriesPerPage_pos, div_eq_of_lt hslot, add_zero]
  have hmod : (k * directoryEntriesPerPage + slot) % directoryEntriesPerPage = slot := by
    rw [mul_comm, mul_add_mod, mod_eq_of_lt hslot]
  unfold entry
  rw [hdiv, hmod]

/-! ## The census -/

/-- Where the entry in a slot of a page lies, if there is one. -/
def offsetsAt (page : SlottedPage) (slot : Nat) : List Nat :=
  ((DirectoryEntry.decode page.bytes (entryOffset slot)).map (·.place)).toList

def Sound (k : Nat) (page : SlottedPage) (slot : Nat) : Prop :=
  ∀ e, DirectoryEntry.decode page.bytes (entryOffset slot) = some e →
    e.generation = directoryEntryGeneration ∧
      e.allocation.logicalExtent = k * directoryEntriesPerPage + slot ∧
      directoryHeadBytes ≤ e.place ∧ (e.place - directoryHeadBytes) % extentBytes = 0

theorem censusSlot_ok (hacc : acc.Nodup) : censusSlot k page acc slot = .ok r ↔
      Sound k page slot ∧ (offsetsAt page slot ++ acc).Nodup ∧ r = offsetsAt page slot ++ acc := by
  unfold censusSlot Sound offsetsAt place
  cases decode page.bytes (entryOffset slot) with
  | none =>
    simp only [reduceCtorEq, false_implies, implies_true, Option.map_none, Option.toList_none,
      nil_append, hacc, true_and, ok.injEq]
    exact eq_comm
  | some =>
    simp only [Option.some.injEq, forall_eq', Option.map_some, Option.toList_some,
      singleton_append, nodup_cons, hacc, and_true]
    split
    · next hbad =>
        simp only [reduceCtorEq, false_iff]
        rintro ⟨⟨hgen, hlogical, hhead, hgrid⟩, hnew, -⟩
        simp only [hgen, hlogical, hgrid, hnew, ne_eq, not_true_eq_false, false_or,
          or_false] at hbad
        omega
    · next hgood =>
        simp only [not_or, not_not, not_lt] at hgood
        obtain ⟨hgen, hlogical, hhead, hgrid, hnew⟩ := hgood
        simp only [hgen, hlogical, hhead, hgrid, hnew, not_false_eq_true, and_self, true_and,
          ok.injEq]
        exact eq_comm

def PageSound (crc32c : Bytes → UInt32) (d : ExtentDirectory) (k : Nat) : Prop :=
  ∀ page, d.pages k = some page → d.validatePage crc32c k page = .ok () ∧
    ∀ slot ∈ range directoryEntriesPerPage, Sound k page slot

def pageOffsets (d : ExtentDirectory) (k : Nat) : List Nat :=
  (range directoryEntriesPerPage).reverse.flatMap fun slot =>
    ((d.entry (k * directoryEntriesPerPage + slot)).map (·.place)).toList

theorem pageOffsets_none (h : d.pages k = none) : d.pageOffsets k = [] := by
  apply flatMap_eq_nil_iff.mpr
  intro slot hslot
  have hlt : slot < directoryEntriesPerPage := by simpa using hslot
  rw [entry_page hlt, h]
  rfl

theorem pageOffsets_some (h : d.pages k = some page) :
    d.pageOffsets k = (range directoryEntriesPerPage).reverse.flatMap (offsetsAt page) := by
  apply flatMap_congr
  intro slot hslot
  have hlt : slot < directoryEntriesPerPage := by simpa using hslot
  rw [entry_page hlt, h]
  rfl

variable {crc32c : Bytes → UInt32} {op : DeltaOp} {opLsn x : Nat}

theorem censusPage_ok (hacc : acc.Nodup) : d.censusPage crc32c acc k = .ok r ↔
      PageSound crc32c d k ∧ (d.pageOffsets k ++ acc).Nodup ∧ r = d.pageOffsets k ++ acc := by
  unfold censusPage PageSound
  cases hpage : d.pages k with
  | none =>
    simp only [pageOffsets_none hpage, reduceCtorEq, false_implies, implies_true,
      nil_append, hacc, true_and, ok.injEq]
    exact eq_comm
  | some page =>
    have hslots := foldlM_collect (f := censusSlot k page) (r := r)
      (l := range directoryEntriesPerPage) (fun _ _ _ hacc => censusSlot_ok hacc) hacc
    rw [pageOffsets_some hpage]
    simp only [bind_eq_ok, Option.some.injEq, forall_eq', hslots, and_assoc]
    constructor
    · rintro ⟨⟨⟩, h⟩
      exact h
    · exact fun h => ⟨(), h⟩

def offsets (d : ExtentDirectory) : List Nat :=
  (range directoryHeadPages).reverse.flatMap d.pageOffsets

theorem mem_pageOffsets : x ∈ d.pageOffsets k ↔
    ∃ slot < directoryEntriesPerPage, ∃ e, d.entry (k * directoryEntriesPerPage + slot) = some e ∧
      e.place = x := by
  simp [pageOffsets, mem_flatMap, mem_range, Option.mem_toList, Option.map_eq_some_iff]

theorem slot_eq (hl : l < directorySlots) : ∃ k < directoryHeadPages,
    ∃ slot < directoryEntriesPerPage, l = k * directoryEntriesPerPage + slot := by
  refine ⟨l / directoryEntriesPerPage,
    (div_lt_iff_lt_mul directoryEntriesPerPage_pos).mpr hl, l % directoryEntriesPerPage,
    mod_lt l directoryEntriesPerPage_pos, ?_⟩
  rw [mul_comm, div_add_mod]

theorem slot_lt (hk : k < directoryHeadPages) (hslot : slot < directoryEntriesPerPage) :
    k * directoryEntriesPerPage + slot < directorySlots :=
  calc k * directoryEntriesPerPage + slot
      < (k + 1) * directoryEntriesPerPage := by rw [add_mul]; omega
    _ ≤ directorySlots := mul_le_mul_right _ hk

theorem mem_offsets :
    x ∈ d.offsets ↔ ∃ l < directorySlots, ∃ e, d.entry l = some e ∧ e.place = x := by
  simp only [offsets, mem_flatMap, mem_reverse, mem_range, mem_pageOffsets]
  constructor
  · rintro ⟨k, hk, slot, hslot, e, he, hx⟩
    exact ⟨k * directoryEntriesPerPage + slot, slot_lt hk hslot, e, he, hx⟩
  · rintro ⟨l, hl, e, he, hx⟩
    obtain ⟨k, hk, slot, hslot, rfl⟩ := slot_eq hl
    exact ⟨k, hk, slot, hslot, e, he, hx⟩

theorem nodup_pageOffsets : (d.pageOffsets k).Nodup ↔
    ∀ slot < directoryEntriesPerPage, ∀ slot' < directoryEntriesPerPage, ∀ e e',
      d.entry (k * directoryEntriesPerPage + slot) = some e →
      d.entry (k * directoryEntriesPerPage + slot') = some e' → e.place = e'.place →
      slot = slot' := by
  unfold pageOffsets
  rw [nodup_flatMap_iff (nodup_reverse.mpr nodup_range)]
  simp only [mem_reverse, mem_range, Option.mem_toList, Option.map_eq_some_iff]
  constructor
  · rintro ⟨-, h⟩ slot hslot slot' hslot' e e' he he' heq
    exact h slot hslot slot' hslot' e'.place ⟨e, he, heq⟩ ⟨e', he', rfl⟩
  · intro h
    refine ⟨fun slot _ => ?_, ?_⟩
    · cases (d.entry (k * directoryEntriesPerPage + slot)).map place <;> simp
    rintro slot hslot slot' hslot' x ⟨e, he, hx⟩ ⟨e', he', hx'⟩
    exact h slot hslot slot' hslot' e e' he he' (hx.trans hx'.symm)

theorem nodup_offsets : d.offsets.Nodup ↔
    ∀ l < directorySlots, ∀ l' < directorySlots, ∀ e e', d.entry l = some e →
      d.entry l' = some e' → e.place = e'.place → l = l' := by
  unfold offsets
  rw [nodup_flatMap_iff (nodup_reverse.mpr nodup_range)]
  simp only [mem_reverse, mem_range, mem_pageOffsets, nodup_pageOffsets]
  constructor
  · rintro ⟨hpage, hcross⟩ l hl l' hl' e e' he he' heq
    obtain ⟨k, hk, slot, hslot, rfl⟩ := slot_eq hl
    obtain ⟨k', hk', slot', hslot', rfl⟩ := slot_eq hl'
    have hkk : k = k' :=
      hcross k hk k' hk' e'.place ⟨slot, hslot, e, he, heq⟩ ⟨slot', hslot', e', he', rfl⟩
    subst hkk
    rw [hpage k hk slot hslot slot' hslot' e e' he he' heq]
  · intro h
    constructor
    · intro k hk slot hslot slot' hslot' e e' he he' heq
      have hl := h _ (slot_lt hk hslot) _ (slot_lt hk hslot') e e' he he' heq
      omega
    · rintro k hk k' hk' x ⟨slot, hslot, e, he, hx⟩ ⟨slot', hslot', e', he', hx'⟩
      have hl := h _ (slot_lt hk hslot) _ (slot_lt hk' hslot') e e' he he' (hx.trans hx'.symm)
      have hdiv := congrArg (· / directoryEntriesPerPage) hl
      simpa [mul_comm _ directoryEntriesPerPage, mul_add_div directoryEntriesPerPage_pos,
        div_eq_of_lt hslot, div_eq_of_lt hslot'] using hdiv

theorem denseOffset_lt {j : Nat} (h : i < j) : denseOffset i < denseOffset j := by
  have hpos : 0 < extentBytes := by decide
  have hmul := mul_lt_mul_of_pos_right h hpos
  unfold denseOffset
  omega

theorem denseOffset_succ (i : Nat) : denseOffset (i + 1) = denseOffset i + extentBytes := by
  unfold denseOffset
  rw [add_mul, one_mul, add_assoc]

theorem sortBy_offsets_iff (hnodup : d.offsets.Nodup) :
    (sortBy id d.offsets = (range d.offsets.length).map denseOffset ∧ d.offsets.length = n) ↔
      ∀ x, x ∈ d.offsets ↔ ∃ i < n, denseOffset i = x := by
  have hsorted : ∀ n, ((range n).map denseOffset).Pairwise fun a b => id a < id b := by
    intro n
    simp only [pairwise_map, id_eq]
    exact pairwise_lt_range.imp denseOffset_lt
  constructor
  · rintro ⟨hsort, rfl⟩ x
    rw [← mem_sortBy id, hsort]
    simp only [mem_map, mem_range]
  · intro h
    have hfirst : ((range n).map denseOffset).Nodup :=
      (hsorted n).imp fun hlt => ne_of_lt hlt
    have hperm : ((range n).map denseOffset).Perm d.offsets := by
      rw [perm_ext_iff_of_nodup hfirst hnodup]
      intro x
      rw [h x]
      simp only [mem_map, mem_range]
    have hlen : d.offsets.length = n := by
      rw [← hperm.length_eq, length_map, length_range]
    rw [hlen]
    exact ⟨(eq_sortBy_of_perm id (hsorted n) hperm).symm, rfl⟩

theorem census_ok : d.census crc32c = .ok n ↔
    (∀ k < directoryHeadPages, PageSound crc32c d k) ∧ d.offsets.Nodup ∧
      (∀ x, x ∈ d.offsets ↔ ∃ i < n, denseOffset i = x) ∧ n < maxExtentsPerStore := by
  have hpages : ∀ r, (range directoryHeadPages).foldlM (d.censusPage crc32c) [] = .ok r ↔
      (∀ k < directoryHeadPages, PageSound crc32c d k) ∧ d.offsets.Nodup ∧ r = d.offsets := by
    intro r
    rw [foldlM_collect (f := d.censusPage crc32c) (fun _ _ _ hacc => censusPage_ok hacc) nodup_nil]
    simp only [mem_range, append_nil, offsets]
  unfold census
  simp only [bind_eq_ok, hpages, ite_throw_bind_eq_ok, pure_eq_ok, not_le, ne_eq, not_not]
  constructor
  · rintro ⟨r, ⟨hsound, hnodup, hr⟩, hsort, hcap, hn⟩
    rw [hr] at hsort hcap hn
    exact ⟨hsound, hnodup, (sortBy_offsets_iff hnodup).mp ⟨hsort, hn⟩, hn ▸ hcap⟩
  · rintro ⟨hsound, hnodup, hmem, hcap⟩
    obtain ⟨hsort, hlen⟩ := (sortBy_offsets_iff hnodup).mpr hmem
    exact ⟨d.offsets, ⟨hsound, hnodup, rfl⟩, hsort, hlen ▸ hcap, hlen⟩

section
variable (hhead : ∀ k, directoryHeadPages ≤ k → d.pages k = none)
include hhead

theorem lt_directorySlots {e : DirectoryEntry} (he : d.entry l = some e) : l < directorySlots := by
  obtain ⟨_, hpage, -⟩ := Option.bind_eq_some_iff.mp he
  have hk : l / directoryEntriesPerPage < directoryHeadPages := by
    by_contra hge
    rw [hhead _ (not_lt.mp hge)] at hpage
    cases hpage
  exact (div_lt_iff_lt_mul directoryEntriesPerPage_pos).mp hk

/-- The census accepts the dense ledgers below the cap. -/
theorem census_ok_iff : d.census crc32c = .ok n ↔
      (∀ k page, d.pages k = some page → d.validatePage crc32c k page = .ok ()) ∧
      (∀ l e, d.entry l = some e → e.generation = directoryEntryGeneration ∧
        e.allocation.logicalExtent = l) ∧
      Ledger.Dense denseOffset place (d.ledger n) ∧ n < maxExtentsPerStore := by
  rw [census_ok, nodup_offsets]
  constructor
  · rintro ⟨hsound, hunique, hmem, hcap⟩
    refine ⟨?_, ?_, ⟨?_, ?_, ?_⟩, hcap⟩
    · intro k page hpage
      by_cases hk : k < directoryHeadPages
      · exact (hsound k hk page hpage).1
      · rw [hhead k (not_lt.mp hk)] at hpage
        cases hpage
    · intro l e he
      obtain ⟨k, hk, slot, hslot, rfl⟩ := slot_eq (lt_directorySlots hhead he)
      rw [entry_page hslot] at he
      obtain ⟨page, hpage, he⟩ := Option.bind_eq_some_iff.mp he
      obtain ⟨hgen, hlogical, -⟩ := (hsound k hk page hpage).2 slot (mem_range.mpr hslot) e he
      exact ⟨hgen, hlogical⟩
    · intro l e he
      obtain ⟨i, hi, hx⟩ := (hmem e.place).mp
        (mem_offsets.mpr ⟨l, lt_directorySlots hhead he, e, he, rfl⟩)
      exact ⟨i, hi, hx.symm⟩
    · intro l l' e e' he he'
      exact hunique l (lt_directorySlots hhead he) l' (lt_directorySlots hhead he') e e' he he'
    · intro i hi
      obtain ⟨l, -, e, he, hx⟩ := mem_offsets.mp ((hmem _).mpr ⟨i, hi, rfl⟩)
      exact ⟨l, e, he, hx⟩
  · rintro ⟨hvalid, hown, hdense, hcap⟩
    refine ⟨?_, fun l _ l' _ e e' he he' => hdense.unique he he', ?_, hcap⟩
    · intro k hk page hpage
      refine ⟨hvalid k page hpage, ?_⟩
      intro slot hslot e he
      have hentry : d.entry (k * directoryEntriesPerPage + slot) = some e := by
        rw [entry_page (mem_range.mp hslot), hpage]
        exact he
      obtain ⟨hgen, hlogical⟩ := hown _ e hentry
      obtain ⟨i, -, hplace⟩ := hdense.numbered hentry
      refine ⟨hgen, hlogical, ?_, ?_⟩
      · rw [hplace]
        exact Nat.le_add_right ..
      · rw [hplace, denseOffset, Nat.add_sub_cancel_left, Nat.mul_mod_left]
    · intro x
      rw [mem_offsets]
      constructor
      · rintro ⟨l, -, e, he, rfl⟩
        obtain ⟨i, hi, hplace⟩ := hdense.numbered he
        exact ⟨i, hi, hplace.symm⟩
      · rintro ⟨i, hi, rfl⟩
        obtain ⟨l, e, he, hplace⟩ := hdense.onto i hi
        exact ⟨l, lt_directorySlots hhead he, e, he, hplace⟩

end

/-! ## Allocations -/

theorem mapping_of_ge (hl : maxExtentsPerStore ≤ l) : d.mapping crc32c l =
      .error (.corruption 0 "logical extent exceeds MAX_EXTENTS_PER_STORE cap") := by
  unfold mapping entryLocation
  rw [if_pos hl]
  rfl

section
variable (hvalid : ∀ k page, d.pages k = some page → d.validatePage crc32c k page = .ok ())
include hvalid

theorem mapping_eq (hown : ∀ l e, d.entry l = some e → e.generation = directoryEntryGeneration ∧
      e.allocation.logicalExtent = l) (hl : l < maxExtentsPerStore) :
    d.mapping crc32c l = .ok ((d.entry l).map (·.allocation)) := by
  have hloc : entryLocation l = .ok (l / directoryEntriesPerPage, l % directoryEntriesPerPage) :=
    if_neg (not_le.mpr hl)
  have hentries := hown l
  unfold mapping
  rw [hloc]
  unfold entry at hentries ⊢
  simp only [bind, Except.bind]
  cases hpage : d.pages (l / directoryEntriesPerPage) with
  | none => rfl
  | some page =>
    simp only [hpage, Option.bind_some] at hentries ⊢
    rw [hvalid _ page hpage]
    cases hentry : decode page.bytes
        (entryOffset (l % directoryEntriesPerPage)) with
    | none => rfl
    | some e =>
      obtain ⟨hgen, hlogical⟩ := hentries e hentry
      simp only [hgen, hlogical, ne_eq, not_true_eq_false, if_false]
      rfl

theorem mapping_eq_some_iff (hown : ∀ l e, d.entry l = some e → l < maxExtentsPerStore ∧
      e.generation = directoryEntryGeneration ∧ e.allocation.logicalExtent = l) :
    d.mapping crc32c l = .ok (some a) ↔ d.entry l = some ⟨a, directoryEntryGeneration⟩ := by
  have hread := mapping_eq hvalid (fun l e he => (hown l e he).2) (l := l)
  constructor
  · intro hmap
    by_cases hl : l < maxExtentsPerStore
    · rw [hread hl] at hmap
      obtain ⟨e, he, rfl⟩ := Option.map_eq_some_iff.mp (ok.inj hmap)
      obtain ⟨-, hgen, -⟩ := hown l e he
      rw [he, ← hgen]
    · rw [mapping_of_ge (not_lt.mp hl)] at hmap
      cases hmap
  · intro he
    rw [hread (hown l _ he).1, he]
    rfl

end

/-- What holds of a directory with `n` extents in use: its pages are valid, every entry is of
its slot, the places are the first ones, and the count is cached or can be taken. -/
structure Recovered (crc32c : Bytes → UInt32) (d : ExtentDirectory) (n : Nat) : Prop where
  head : ∀ k, directoryHeadPages ≤ k → d.pages k = none
  valid : ∀ k page, d.pages k = some page → d.validatePage crc32c k page = .ok ()
  own : ∀ l e, d.entry l = some e → l < maxExtentsPerStore ∧
    e.generation = directoryEntryGeneration ∧ e.allocation.logicalExtent = l
  dense : Ledger.Dense denseOffset DirectoryEntry.place (d.ledger n)
  cached : d.installedCount = some n ∨ (d.installedCount = none ∧ n < maxExtentsPerStore)

namespace Recovered
variable {n : Nat}

variable (h : Recovered crc32c d n)
include h

theorem count_le : n ≤ maxExtentsPerStore := by
  have hle := h.dense.count_le denseOffset_injective (Finset.range maxExtentsPerStore)
    fun l e he => Finset.mem_range.mpr (h.own l e he).1
  rwa [Finset.card_range] at hle

theorem denseOffset_lt_pow : denseOffset n < 2 ^ 64 := by
  have hmul := mul_le_mul_right extentBytes h.count_le
  have hmax : directoryHeadBytes + maxExtentsPerStore * extentBytes < 2 ^ 64 := by decide
  unfold denseOffset
  omega

theorem countInstalled : d.countInstalled crc32c = .ok n := by
  unfold ExtentDirectory.countInstalled
  rcases h.cached with hcount | ⟨hcount, hcap⟩
  · rw [hcount]
  · rw [hcount]
    exact (census_ok_iff h.head).mpr ⟨h.valid, fun l e he => (h.own l e he).2, h.dense, hcap⟩

theorem recoverNextPhysicalOffset : d.recoverNextPhysicalOffset crc32c =
      .ok (denseOffset n, { d with installedCount := some n }) := by
  have hnext : nextPhysicalOffset n = .ok (denseOffset n) := by
    unfold nextPhysicalOffset
    rw [if_neg (not_le.mpr h.denseOffset_lt_pow)]
  exact bind_eq_ok.mpr ⟨n, h.countInstalled, bind_eq_ok.mpr ⟨denseOffset n, hnext, rfl⟩⟩

theorem counted : Recovered crc32c { d with installedCount := some n } n where
  head := h.head
  valid := h.valid
  own := h.own
  dense := h.dense
  cached := .inl rfl

theorem mapping (hl : l < maxExtentsPerStore) :
    d.mapping crc32c l = .ok ((d.entry l).map (·.allocation)) :=
  mapping_eq h.valid (fun l e he => (h.own l e he).2) hl

theorem mapping_eq_some :
    d.mapping crc32c l = .ok (some a) ↔ d.entry l = some ⟨a, directoryEntryGeneration⟩ :=
  mapping_eq_some_iff h.valid h.own

end Recovered

theorem ExtentAllocation.decode_fits {bytes : Bytes} (h : decode bytes = some a) :
    DirectoryEntry.Fits ⟨a, directoryEntryGeneration⟩ := by
  unfold ExtentAllocation.decode at h
  dsimp only at h
  split at h
  · cases h
  · next hgood =>
      cases h
      simp only [not_or, not_not] at hgood
      have htake : ∀ (bs : Bytes) w, bs.length ≤ w → leValue bs < 256 ^ w := by
        intro bs w hw
        exact Nat.lt_of_lt_of_le (leValue_lt bs) (Nat.pow_le_pow_right (by decide) hw)
      constructor
      · exact htake _ 8 (by simp)
      · exact htake _ 8 (by simp)
      · exact htake _ 4 (by simp)
      · show directoryEntryGeneration < 256 ^ 4
        decide
      · show directoryEntryGeneration ≠ 0
        decide

theorem checkExtentAlloc_ok {r : ExtentAllocation × Nat × Nat} :
    d.checkExtentAlloc op = .ok r ↔ op.validateShape = .ok () ∧ op.kind = .extentAlloc ∧
      op.storeId = d.storeId ∧ op.tenantId = d.tenant ∧
      ∃ a, decode op.payload = some a ∧ a.logicalExtent < maxExtentsPerStore ∧
        op.pageNo = directoryPageId (a.logicalExtent / directoryEntriesPerPage) ∧
        r = (a, a.logicalExtent / directoryEntriesPerPage,
          a.logicalExtent % directoryEntriesPerPage) := by
  have hlocation : ∀ l p, entryLocation l = .ok p ↔ l < maxExtentsPerStore ∧
      (l / directoryEntriesPerPage, l % directoryEntriesPerPage) = p := by
    intro l p
    unfold entryLocation
    split
    · simp only [reduceCtorEq, false_iff]
      omega
    · simp only [ok.injEq, iff_and_self]
      omega
  unfold checkExtentAlloc
  simp only [bind_eq_ok, mapError_eq_ok, ite_throw_bind_eq_ok, ne_eq, not_or, not_not, and_assoc]
  cases decode op.payload with
  | none => simp
  | some a =>
      simp only [bind_eq_ok, hlocation, ite_throw_bind_eq_ok, not_not, pure_eq_ok,
        Option.some.injEq]
      constructor
      · rintro ⟨⟨⟩, hshape, hkind, hstore, htenant, p, ⟨hcap, rfl⟩, hpage, hr⟩
        exact ⟨hshape, hkind, hstore, htenant, a, rfl, hcap, hpage, hr.symm⟩
      · rintro ⟨hshape, hkind, hstore, htenant, b, rfl, hcap, hpage, hr⟩
        exact ⟨(), hshape, hkind, hstore, htenant, _, ⟨hcap, rfl⟩, hpage, hr.symm⟩

theorem validatePage_ok :
    d.validatePage crc32c k page = .ok () ↔ page.header.pageId = directoryPageId k ∧
      page.header.tenantId = d.tenant ∧ page.header.pageType = .free ∧
      page.header.flags = d.storeId ∧
      crc32c (page.bytes.read slotAreaStart pageBodyBytes) = page.header.checksum := by
  unfold validatePage
  simp only [ite_throw_bind_eq_ok, ite_throw_eq_ok, ne_eq, not_or, not_not, and_assoc, pure_eq_ok,
    and_true]

theorem validatePage_formatPage (k : Nat) :
    d.validatePage crc32c k (d.formatPage crc32c k) = .ok () :=
  validatePage_ok.mpr ⟨rfl, rfl, rfl, rfl, rfl⟩

theorem validatePage_installEntry (h : d.validatePage crc32c k page = .ok ()) :
    d.validatePage crc32c k (installEntry crc32c page slot a opLsn) = .ok () := by
  obtain ⟨hid, htenant, htype, hflags, -⟩ := validatePage_ok.mp h
  exact validatePage_ok.mpr ⟨hid, htenant, htype, hflags, rfl⟩

variable (crc32c) in
theorem entry_eq (l : Nat) : d.entry l = decode
    (d.homePage crc32c (l / directoryEntriesPerPage)).bytes
    (entryOffset (l % directoryEntriesPerPage)) := by
  unfold entry homePage
  cases d.pages (l / directoryEntriesPerPage) with
  | none => exact decode_zero.symm
  | some => rfl

theorem pages_setPage_self : (d.setPage k page).pages k = some page := update_self ..

theorem pages_setPage_ne {k' : Nat} (h : k' ≠ k) :
    (d.setPage k page).pages k' = d.pages k' := update_of_ne h ..

theorem entry_setPage : (d.setPage k page).entry l = if l / directoryEntriesPerPage = k then
      decode page.bytes (entryOffset (l % directoryEntriesPerPage))
    else d.entry l := by
  unfold entry setPage
  by_cases hk : l / directoryEntriesPerPage = k
  · subst hk
    simp
  · simp only [update_of_ne hk, if_neg hk]

variable (crc32c) in
theorem entry_setPage_installEntry (opLsn : Nat) (hl : a.logicalExtent = l)
    (ha : DirectoryEntry.Fits ⟨a, directoryEntryGeneration⟩) :
    (d.setPage (l / directoryEntriesPerPage) (installEntry crc32c
      (d.homePage crc32c (l / directoryEntriesPerPage)) (l % directoryEntriesPerPage) a
      opLsn)).entry = update d.entry l (some ⟨a, directoryEntryGeneration⟩) := by
  funext l'
  rw [entry_setPage]
  by_cases heq : l' = l
  · subst heq
    rw [update_self, if_pos rfl]
    exact decode_encode ha
  · rw [update_of_ne heq]
    split
    · next hk =>
        have hslot : l' % directoryEntriesPerPage ≠ l % directoryEntriesPerPage := by
          intro hmod
          have hl' := div_add_mod l' directoryEntriesPerPage
          rw [hk, hmod, div_add_mod] at hl'
          exact heq hl'.symm
        rw [entry_eq crc32c, hk]
        exact decode_encode_apart (entryOffset_apart hslot)
    · rfl

def assign (d : ExtentDirectory) (n : Nat) (a : ExtentAllocation) :
    Option (Ledger Nat DirectoryEntry) :=
  (d.ledger n).assign denseOffset DirectoryEntry.place a.logicalExtent
    ⟨a, directoryEntryGeneration⟩

theorem Recovered.validatePage_homePage (h : Recovered crc32c d n) (k : Nat) :
    d.validatePage crc32c k (d.homePage crc32c k) = .ok () := by
  unfold homePage
  cases hpage : d.pages k with
  | none => exact validatePage_formatPage k
  | some page => exact h.valid k page hpage

theorem Recovered.setPage {m : Nat} {d' : ExtentDirectory}
    (h : Recovered crc32c d n) (hk : k < directoryHeadPages)
    (hvalid : d.validatePage crc32c k page = .ok ())
    (hpages : d'.pages = (d.setPage k page).pages) (htenant : d'.tenant = d.tenant)
    (hstore : d'.storeId = d.storeId) (hcount : d'.installedCount = some m)
    (hown : ∀ l e, (d.setPage k page).entry l = some e → l < maxExtentsPerStore ∧
      e.generation = directoryEntryGeneration ∧ e.allocation.logicalExtent = l)
    (hdense : Ledger.Dense denseOffset place ((d.setPage k page).ledger m)) :
    Recovered crc32c d' m := by
  have hentry : d'.entry = (d.setPage k page).entry := by
    unfold entry
    rw [hpages]
  constructor
  · intro k' hk'
    have hne : k' ≠ k := by omega
    rw [hpages, pages_setPage_ne hne]
    exact h.head k' hk'
  · intro k' page' hpage
    have hsame : d'.validatePage crc32c k' page' = d.validatePage crc32c k' page' := by
      unfold validatePage
      rw [htenant, hstore]
    rw [hsame]
    by_cases hk' : k' = k
    · subst hk'
      rw [hpages, pages_setPage_self] at hpage
      exact Option.some.inj hpage ▸ hvalid
    · rw [hpages, pages_setPage_ne hk'] at hpage
      exact h.valid k' page' hpage
  · intro l e he
    exact hown l e (hentry ▸ he)
  · unfold ledger
    rw [hentry]
    exact hdense
  · exact .inl hcount

variable (crc32c) in
theorem entry_setPage_homePage (k : Nat) : (d.setPage k (d.homePage crc32c k)).entry = d.entry := by
  funext l
  rw [entry_setPage]
  split
  · next hk => rw [entry_eq crc32c l, hk]
  · rfl

theorem div_lt_directoryHeadPages (hl : l < maxExtentsPerStore) :
    l / directoryEntriesPerPage < directoryHeadPages := by
  apply (div_lt_iff_lt_mul directoryEntriesPerPage_pos).mpr
  exact lt_of_lt_of_le hl (by decide)

theorem Recovered.format (h : Recovered crc32c d n) (hk : k < directoryHeadPages)
    (hcount : d.installedCount = some n) :
    Recovered crc32c (d.setPage k (d.homePage crc32c k)) n := by
  apply h.setPage hk (h.validatePage_homePage k) rfl rfl rfl hcount
  · rw [entry_setPage_homePage]
    exact h.own
  · unfold ledger
    rw [entry_setPage_homePage]
    exact h.dense

theorem Recovered.install {d' : ExtentDirectory} (opLsn : Nat) (h : Recovered crc32c d n)
    (hcap : a.logicalExtent < maxExtentsPerStore)
    (ha : DirectoryEntry.Fits ⟨a, directoryEntryGeneration⟩) (hassign : d.assign n a = some
      ⟨update d.entry a.logicalExtent (some ⟨a, directoryEntryGeneration⟩), n + 1⟩)
    (hpages : d'.pages = (d.setPage (a.logicalExtent / directoryEntriesPerPage)
      (installEntry crc32c (d.homePage crc32c (a.logicalExtent / directoryEntriesPerPage))
        (a.logicalExtent % directoryEntriesPerPage) a opLsn)).pages)
    (htenant : d'.tenant = d.tenant) (hstore : d'.storeId = d.storeId)
    (hcount : d'.installedCount = some (n + 1)) : Recovered crc32c d' (n + 1) := by
  have hentry := entry_setPage_installEntry crc32c (d := d) opLsn rfl ha
  apply h.setPage (div_lt_directoryHeadPages hcap)
    (validatePage_installEntry (h.validatePage_homePage _)) hpages htenant hstore hcount
  · intro l e he
    rw [hentry] at he
    rcases of_update_eq he with ⟨rfl, ⟨⟩⟩ | ⟨-, hold⟩
    · exact ⟨hcap, rfl, rfl⟩
    · exact h.own l e hold
  · unfold ledger
    rw [hentry]
    exact h.dense.assign denseOffset_injective hassign

theorem Recovered.applyEntry (h : Recovered crc32c d n)
    (hcount : d.installedCount = some n) (hcap : a.logicalExtent < maxExtentsPerStore)
    (ha : DirectoryEntry.Fits ⟨a, directoryEntryGeneration⟩) :
    ∃ o d', d.applyEntry crc32c a (a.logicalExtent / directoryEntriesPerPage)
        (a.logicalExtent % directoryEntriesPerPage) opLsn (denseOffset n) = (o, d') ∧
      o.isOk = (d.assign n a).isSome ∧ d'.entry = ((d.assign n a).getD (d.ledger n)).entries ∧
      Recovered crc32c d' ((d.assign n a).getD (d.ledger n)).count ∧
      d'.tenant = d.tenant ∧ d'.storeId = d.storeId := by
  have hk := div_lt_directoryHeadPages hcap
  have hvalid := h.validatePage_homePage (a.logicalExtent / directoryEntriesPerPage)
  have hformat := h.format hk hcount
  have hkeep := entry_setPage_homePage crc32c (d := d)
    (a.logicalExtent / directoryEntriesPerPage)
  have hentry := entry_eq crc32c (d := d) a.logicalExtent
  unfold ExtentDirectory.applyEntry
  dsimp only
  rw [hvalid]
  dsimp only
  unfold decideEntry
  rw [← hentry]
  cases hcurrent : d.entry a.logicalExtent with
  | some current =>
    obtain ⟨-, hgen, -⟩ := h.own _ current hcurrent
    by_cases hsame : current.allocation = a
    · have heq : current = ⟨a, directoryEntryGeneration⟩ := by
        rw [← hsame, ← hgen]
      have hassign : d.assign n a = some (d.ledger n) :=
        Ledger.assign_of_some (heq ▸ hcurrent)
      simp only [hgen, ne_eq, not_true_eq_false, if_false, if_pos hsame, hassign]
      exact ⟨_, _, rfl, rfl, hkeep, hformat, rfl, rfl⟩
    · have hassign : d.assign n a = none := by
        rw [← Option.not_isSome_iff_eq_none]
        intro hsome
        rcases Ledger.isSome_assign.mp hsome with hk | ⟨hk, -⟩
        · cases hcurrent.symm.trans hk
          exact hsame rfl
        · cases hcurrent.symm.trans hk
      simp only [hgen, ne_eq, not_true_eq_false, if_false, if_neg hsame, hassign]
      exact ⟨_, _, rfl, rfl, hkeep, hformat, rfl, rfl⟩
  | none =>
    by_cases hnext : a.physicalOffset = denseOffset n
    · have hassign : d.assign n a = some
          ⟨update d.entry a.logicalExtent (some ⟨a, directoryEntryGeneration⟩),
            n + 1⟩ := Ledger.assign_of_none hcurrent hnext
      simp only [ne_eq, hnext, not_true_eq_false, if_false, hassign, hcount, Option.map_some,
        Option.isSome_some, Option.getD_some]
      refine ⟨_, _, rfl, rfl, entry_setPage_installEntry crc32c opLsn rfl ha, ?_, rfl, rfl⟩
      refine h.install opLsn hcap ha hassign ?_ ?_ ?_ ?_
      all_goals rfl
    · have hassign : d.assign n a = none := by
        rw [← Option.not_isSome_iff_eq_none]
        intro hsome
        rcases Ledger.isSome_assign.mp hsome with hk | ⟨-, hplace⟩
        · cases hcurrent.symm.trans hk
        · exact hnext hplace
      simp only [ne_eq, hnext, not_false_eq_true, if_true, hassign]
      exact ⟨_, _, rfl, rfl, hkeep, hformat, rfl, rfl⟩

/-- An allocation for this directory is an assignment in its ledger. -/
theorem Recovered.apply (h : Recovered crc32c d n)
    (hop : d.checkExtentAlloc op = .ok (a, k, slot)) :
    ∃ o d', d.applyExtentAlloc crc32c op = (o, d') ∧ o.isOk = (d.assign n a).isSome ∧
      d'.entry = ((d.assign n a).getD (d.ledger n)).entries ∧
      Recovered crc32c d' ((d.assign n a).getD (d.ledger n)).count ∧
      d'.tenant = d.tenant ∧ d'.storeId = d.storeId := by
  obtain ⟨-, -, -, -, b, hdecode, hcap, -, hr⟩ := checkExtentAlloc_ok.mp hop
  cases hr
  unfold applyExtentAlloc
  rw [hop]
  dsimp only
  rw [h.recoverNextPhysicalOffset]
  exact h.counted.applyEntry rfl hcap (ExtentAllocation.decode_fits hdecode)

end ExtentDirectory
end ArcGraph.Extent
