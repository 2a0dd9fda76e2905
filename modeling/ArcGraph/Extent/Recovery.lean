import ArcGraph.Extent.Ledger
import ArcGraph.Foundation.Replay

/-!
# Recovering an extent directory

The allocations of a log go to an empty directory one after the other. Its pages reach the
disk on their own: in a crash image every head page is as some prefix of the log left it.
Recovery opens the directory on the image, which takes the census, and applies the whole
log again.

The census refuses an image whose offsets have a gap, though the log holds the allocations
that fill it. A later extent whose entry lies on another head page makes such an image.
So recovery works from exactly those images whose offsets are the first ones
(`recovers_iff_dense`).
-/

namespace ArcGraph.Extent
open Foundation Records Wal List Function DirectoryEntry Ledger Option Nat ExtentAllocation

namespace ExtentDirectory
variable (tenant : TenantId) (storeId : UInt16)

def onDisk (pages : Nat → Option SlottedPage) :
    ExtentDirectory where
  tenant := tenant
  storeId := storeId
  pages := pages

def empty : ExtentDirectory :=
  onDisk tenant storeId fun _ => none

variable (crc32c : Bytes → UInt32) (d : ExtentDirectory)

/-- One allocation of a log; a refusal ends the run. -/
def applyLogged (op : DeltaOp) : Except WalError ExtentDirectory :=
  match d.applyExtentAlloc crc32c op with
  | (.ok _, d') => .ok d'
  | (.error e, _) => .error e

variable (ops : List DeltaOp)

def applyLog : Except WalError ExtentDirectory :=
  ops.foldlM (applyLogged crc32c) d

/-- Every head page is as some prefix of the log left it. -/
def CrashImage (pages : Nat → Option SlottedPage) :
    Prop :=
  ∀ k, ∃ n d', d.applyLog crc32c (ops.take n) = .ok d' ∧ pages k = d'.pages k

structure JustAbove (d : ExtentDirectory) (next : Nat) : Prop where
  above : ∀ l a, d.mapping crc32c l = .ok (some a) → a.physicalOffset + extentBytes ≤ next
  just : next = directoryHeadBytes ∨
    ∃ l a, d.mapping crc32c l = .ok (some a) ∧ a.physicalOffset + extentBytes = next

/-- Opening the directory and applying the log goes through and ends with the mappings of
`final` and the right next offset. -/
def Recovers (final : ExtentDirectory) : Prop :=
  ∃ next d₁ d₂ d₃ next', d.recoverNextPhysicalOffset crc32c = .ok (next, d₁) ∧
    d₁.applyLog crc32c ops = .ok d₂ ∧ (∀ l, d₂.mapping crc32c l = final.mapping crc32c l) ∧
    d₂.recoverNextPhysicalOffset crc32c = .ok (next', d₃) ∧ JustAbove crc32c d₂ next'

/-- The offsets in use are the first ones, and fewer than the cap. -/
def DenseBelowCap : Prop :=
  ∃ n < maxExtentsPerStore, ∀ x,
    (∃ l a, d.mapping crc32c l = .ok (some a) ∧ a.physicalOffset = x) ↔ ∃ i < n, denseOffset i = x

/-! ## Runs of allocations -/

def assignments : List (Nat × DirectoryEntry) :=
  ops.filterMap fun op => (decode op.payload).map fun a =>
    (a.logicalExtent, ⟨a, directoryEntryGeneration⟩)

variable {crc32c} {d d' final : ExtentDirectory} {n k : Nat} {op : DeltaOp} {ops : List DeltaOp}
  {a : ExtentAllocation} {L : Ledger Nat DirectoryEntry}

theorem assignments_cons (h : decode op.payload = some a) : assignments (op :: ops) =
      (a.logicalExtent, ⟨a, directoryEntryGeneration⟩) :: assignments ops := by
  unfold assignments
  rw [filterMap_cons, h]
  rfl

theorem checkExtentAlloc_congr (htenant : d'.tenant = d.tenant) (hstore : d'.storeId = d.storeId) :
    d'.checkExtentAlloc op = d.checkExtentAlloc op := by
  unfold checkExtentAlloc
  rw [htenant, hstore]

theorem exists_of_checkExtentAlloc {r : ExtentAllocation × Nat × Nat}
    (h : d.checkExtentAlloc op = .ok r) : ∃ a k slot, r = (a, k, slot) ∧
      decode op.payload = some a := by
  obtain ⟨-, -, -, -, a, ha, -, -, rfl⟩ := checkExtentAlloc_ok.mp h
  exact ⟨a, _, _, rfl, ha⟩

section
variable (h : Recovered crc32c d n)
include h

theorem Recovered.applyLogged_ok
    (happly : d.applyLogged crc32c op = .ok d') : ∃ a L, (∃ r, d.checkExtentAlloc op = .ok r) ∧
      decode op.payload = some a ∧ d.assign n a = some L ∧
      d'.ledger L.count = L ∧ Recovered crc32c d' L.count ∧ d'.tenant = d.tenant ∧
      d'.storeId = d.storeId := by
  unfold applyLogged at happly
  cases hcheck : d.checkExtentAlloc op with
  | error =>
    unfold applyExtentAlloc at happly
    rw [hcheck] at happly
    cases happly
  | ok =>
    obtain ⟨a, _, _, rfl, ha⟩ := exists_of_checkExtentAlloc hcheck
    obtain ⟨o, _, heq, hok, hentry, hrec, htenant, hstore⟩ := h.apply hcheck
    rw [heq] at happly
    cases o with
    | error => cases happly
    | ok =>
      cases happly
      obtain ⟨L, hL⟩ := isSome_iff_exists.mp hok.symm
      rw [hL] at hentry hrec
      refine ⟨a, L, ⟨_, rfl⟩, ha, hL, ?_, hrec, htenant, hstore⟩
      unfold ledger
      rw [hentry]
      rfl

theorem Recovered.exists_applyLogged {slot : Nat}
    (hcheck : d.checkExtentAlloc op = .ok (a, k, slot)) (hassign : d.assign n a = some L) :
    ∃ d', d.applyLogged crc32c op = .ok d' := by
  obtain ⟨o, d', heq, hok, -⟩ := h.apply hcheck
  rw [hassign] at hok
  unfold applyLogged
  rw [heq]
  cases o with
  | error => cases hok
  | ok => exact ⟨d', rfl⟩

theorem Recovered.applyLog_ok
    (hrun : d.applyLog crc32c ops = .ok d') : (∀ op ∈ ops, ∃ r, d.checkExtentAlloc op = .ok r) ∧
      ∃ m, (d.ledger n).run denseOffset place (assignments ops) = some (d'.ledger m) ∧
        Recovered crc32c d' m ∧ d'.tenant = d.tenant ∧ d'.storeId = d.storeId := by
  induction ops generalizing d n with
  | nil =>
    cases hrun
    exact ⟨fun op hop => absurd hop not_mem_nil, n, rfl, h, rfl, rfl⟩
  | cons _ _ ih =>
    obtain ⟨_, happly, hrest⟩ := foldlM_cons_ok.mp hrun
    obtain ⟨_, L, hcheck, ha, hL, hledger, hrec, htenant, hstore⟩ := h.applyLogged_ok happly
    obtain ⟨hchecks, m, hm, hfinal, htenant', hstore'⟩ := ih hrec hrest
    refine ⟨?_, m, ?_, hfinal, htenant'.trans htenant, hstore'.trans hstore⟩
    · refine forall_mem_cons.mpr ⟨hcheck, fun op hop => ?_⟩
      rw [← checkExtentAlloc_congr htenant hstore]
      exact hchecks op hop
    · rw [assignments_cons ha]
      rw [hledger] at hm
      exact bind_eq_some_iff.mpr ⟨L, hL, hm⟩

theorem Recovered.exists_applyLog (hchecks : ∀ op ∈ ops, ∃ r, d.checkExtentAlloc op = .ok r)
    (hrun : (d.ledger n).run denseOffset place (assignments ops) = some L) :
    ∃ d', d.applyLog crc32c ops = .ok d' ∧ d'.ledger L.count = L ∧ Recovered crc32c d' L.count := by
  induction ops generalizing d n with
  | nil =>
    cases hrun
    exact ⟨d, rfl, rfl, h⟩
  | cons op _ ih =>
    obtain ⟨_, hr⟩ := hchecks op mem_cons_self
    obtain ⟨_, _, _, rfl, ha⟩ := exists_of_checkExtentAlloc hr
    rw [assignments_cons ha] at hrun
    obtain ⟨_, hM, hrest⟩ := bind_eq_some_iff.mp hrun
    obtain ⟨d1, hd1⟩ := h.exists_applyLogged hr hM
    obtain ⟨_, _, -, hb, hM', hledger, hrec, htenant, hstore⟩ := h.applyLogged_ok hd1
    cases ha.symm.trans hb
    cases hM.symm.trans hM'
    rw [← hledger] at hrest
    obtain ⟨d', hd', hL, hfinal⟩ := ih hrec (fun op' hop' => by
      rw [checkExtentAlloc_congr htenant hstore]
      exact hchecks op' (mem_cons_of_mem op hop')) hrest
    exact ⟨d', foldlM_cons_ok.mpr ⟨d1, hd1, hd'⟩, hL, hfinal⟩

end

/-! ## Crash images -/

section
variable {tenant : TenantId} {storeId : UInt16} {pages : Nat → Option SlottedPage}

theorem recovered_empty : Recovered crc32c (empty tenant storeId) 0 where
  head _ _ := rfl
  valid _ _ h := nomatch h
  own _ _ h := nomatch h
  dense := dense_empty denseOffset place
  cached := .inr ⟨rfl, by decide⟩

theorem sub_of_take {m : Nat} (hm : (empty tenant storeId).applyLog crc32c (ops.take m) = .ok d')
    (hrun : (empty tenant storeId).applyLog crc32c ops = .ok final) :
    Ledger.Sub d'.entry final.entry := by
  rw [← take_append_drop m ops] at hrun
  obtain ⟨_, hd1, hrest⟩ := foldlM_append_ok.mp hrun
  cases hm.symm.trans hd1
  obtain ⟨-, _, -, hrec, -⟩ := recovered_empty.applyLog_ok hm
  obtain ⟨-, _, hledger, -⟩ := hrec.applyLog_ok hrest
  exact sub_run hledger

variable (himage : CrashImage crc32c (empty tenant storeId) ops pages)

include himage

theorem CrashImage.state (k : Nat) :
    ∃ n d', Recovered crc32c d' n ∧ pages k = d'.pages k ∧ d'.tenant = tenant ∧
      d'.storeId = storeId ∧ ∃ m, (empty tenant storeId).applyLog crc32c (ops.take m) = .ok d' := by
  obtain ⟨m, d', hd', hk⟩ := himage k
  obtain ⟨-, n, -, hrec, htenant, hstore⟩ := recovered_empty.applyLog_ok hd'
  exact ⟨n, d', hrec, hk, htenant, hstore, m, hd'⟩

theorem CrashImage.head (hk : directoryHeadPages ≤ k) : pages k = none := by
  obtain ⟨_, _, hrec, hpage, -⟩ := himage.state k
  exact hpage.trans (hrec.head k hk)

theorem CrashImage.valid {page : SlottedPage} (hpage : pages k = some page) :
    (onDisk tenant storeId pages).validatePage crc32c k page = .ok () := by
  obtain ⟨_, _, hrec, hk, htenant, hstore, -⟩ := himage.state k
  have hvalid := hrec.valid k page (hk ▸ hpage)
  rw [validatePage_ok] at hvalid ⊢
  rwa [htenant, hstore] at hvalid

section
variable (hrun : (empty tenant storeId).applyLog crc32c ops = .ok final)
include hrun

theorem CrashImage.entry : Ledger.Sub (onDisk tenant storeId pages).entry final.entry := by
  intro l e he
  obtain ⟨_, _, -, hk, -, -, _, hm⟩ := himage.state (l / directoryEntriesPerPage)
  apply sub_of_take hm hrun l e
  unfold ExtentDirectory.entry at he ⊢
  rw [← hk]
  exact he

theorem CrashImage.own {l : Nat}
    {e : DirectoryEntry} (he : (onDisk tenant storeId pages).entry l = some e) :
    l < maxExtentsPerStore ∧ e.generation = directoryEntryGeneration ∧
      e.allocation.logicalExtent = l := by
  obtain ⟨-, n, -, hrec, -⟩ := recovered_empty.applyLog_ok hrun
  exact hrec.own l e (himage.entry hrun l e he)

theorem CrashImage.denseBelowCap_iff :
    DenseBelowCap crc32c (onDisk tenant storeId pages) ↔ ∃ n < maxExtentsPerStore,
      Ledger.Dense denseOffset place ((onDisk tenant storeId pages).ledger n) := by
  have hmapping : ∀ l a, (onDisk tenant storeId pages).mapping crc32c l = .ok (some a) ↔
      (onDisk tenant storeId pages).entry l = some ⟨a, directoryEntryGeneration⟩ := by
    intro l a
    exact mapping_eq_some_iff (fun k page => himage.valid) fun l e => himage.own hrun
  obtain ⟨-, m, -, hrec, -⟩ := recovered_empty.applyLog_ok hrun
  have hgen : ∀ {l e}, (onDisk tenant storeId pages).entry l = some e →
      e = ⟨e.allocation, directoryEntryGeneration⟩ := by
    intro l e he
    rw [← (himage.own hrun he).2.1]
  unfold DenseBelowCap
  refine exists_congr fun n => and_congr_right fun _ => ?_
  constructor
  · intro h
    constructor
    · intro l e he
      rw [hgen he] at he
      obtain ⟨i, hi, hx⟩ := (h _).mp ⟨l, e.allocation, (hmapping _ _).mpr he, rfl⟩
      exact ⟨i, hi, hx.symm⟩
    · intro l l' e e' he he'
      exact hrec.dense.unique (himage.entry hrun l e he) (himage.entry hrun l' e' he')
    · intro i hi
      obtain ⟨l, a, ha, hx⟩ := (h _).mpr ⟨i, hi, rfl⟩
      exact ⟨l, _, (hmapping _ _).mp ha, hx⟩
  · intro hdense x
    constructor
    · rintro ⟨l, a, ha, rfl⟩
      obtain ⟨i, hi, hx⟩ := hdense.numbered ((hmapping _ _).mp ha)
      exact ⟨i, hi, hx.symm⟩
    · rintro ⟨i, hi, rfl⟩
      obtain ⟨l, e, he, hx⟩ := hdense.onto i hi
      exact ⟨l, e.allocation, (hmapping _ _).mpr (hgen he ▸ he), hx⟩

end

theorem CrashImage.dense_of_recover {next : Nat}
    (h : (onDisk tenant storeId pages).recoverNextPhysicalOffset crc32c = .ok (next, d')) :
    ∃ n < maxExtentsPerStore,
      Ledger.Dense denseOffset place ((onDisk tenant storeId pages).ledger n) := by
  obtain ⟨n, hcensus, -⟩ := bind_eq_ok.mp h
  obtain ⟨-, -, hdense, hcap⟩ := (census_ok_iff fun k => himage.head).mp hcensus
  exact ⟨n, hcap, hdense⟩

theorem CrashImage.recovered (hrun : (empty tenant storeId).applyLog crc32c ops = .ok final)
    (hcap : n < maxExtentsPerStore) (hdense : Ledger.Dense denseOffset place
      ((onDisk tenant storeId pages).ledger n)) :
    Recovered crc32c (onDisk tenant storeId pages) n where
  head _ := himage.head
  valid _ _ := himage.valid
  own _ _ := himage.own hrun
  dense := hdense
  cached := .inr ⟨rfl, hcap⟩

end

theorem Recovered.justAbove (h : Recovered crc32c d n) : JustAbove crc32c d (denseOffset n) := by
  constructor
  · intro l a ha
    obtain ⟨i, hi, hplace⟩ := h.dense.numbered (h.mapping_eq_some.mp ha)
    replace hplace : a.physicalOffset = denseOffset i := hplace
    rw [hplace, ← denseOffset_succ]
    rcases lt_or_eq_of_le (succ_le_of_lt hi) with hlt | heq
    · exact le_of_lt (denseOffset_lt hlt)
    · exact le_of_eq (congrArg denseOffset heq)
  · cases n with
    | zero => exact .inl (by rw [denseOffset, zero_mul, add_zero])
    | succ m =>
      obtain ⟨l, e, he, hplace⟩ := h.dense.onto m (lt_succ_self m)
      replace hplace : e.allocation.physicalOffset = denseOffset m := hplace
      obtain ⟨-, hgen, -⟩ := h.own l e he
      refine .inr ⟨l, e.allocation, h.mapping_eq_some.mpr ?_, ?_⟩
      · rw [← hgen]
        exact he
      · rw [denseOffset_succ, hplace]

/-- The log is applied again from an image with a dense ledger. -/
theorem CrashImage.recovers {tenant : TenantId} {storeId : UInt16}
    {pages : Nat → Option SlottedPage} (himage : CrashImage crc32c (empty tenant storeId) ops pages)
    (hrun : (empty tenant storeId).applyLog crc32c ops = .ok final)
    (h : Recovered crc32c (onDisk tenant storeId pages) n) :
    Recovers crc32c (onDisk tenant storeId pages) ops final := by
  obtain ⟨hchecks, m, hfinal, hrec, -⟩ := recovered_empty.applyLog_ok hrun
  have hreplay := run_of_dense denseOffset_injective h.dense hfinal (himage.entry hrun)
  obtain ⟨d2, hd2, hledger, hrec2⟩ := h.counted.exists_applyLog hchecks hreplay
  have hentry : d2.entry = final.entry := congrArg entries hledger
  refine ⟨_, _, d2, _, _, h.recoverNextPhysicalOffset, hd2, ?_, hrec2.recoverNextPhysicalOffset,
    hrec2.justAbove⟩
  intro l
  by_cases hl : l < maxExtentsPerStore
  · rw [hrec2.mapping hl, hrec.mapping hl, hentry]
  · rw [mapping_of_ge (not_lt.mp hl), mapping_of_ge (not_lt.mp hl)]

/-- Recovery works from exactly the images whose offsets are the first ones. -/
theorem recovers_iff_dense (crc32c : Bytes → UInt32) (tenant : TenantId) (storeId : UInt16)
    (ops : List DeltaOp) (final : ExtentDirectory) (pages : Nat → Option SlottedPage)
    (hrun : (empty tenant storeId).applyLog crc32c ops = .ok final)
    (himage : CrashImage crc32c (empty tenant storeId) ops pages) :
    Recovers crc32c (onDisk tenant storeId pages) ops final ↔
      DenseBelowCap crc32c (onDisk tenant storeId pages) := by
  rw [himage.denseBelowCap_iff hrun]
  constructor
  · rintro ⟨_, _, _, _, _, hopen, -⟩
    exact himage.dense_of_recover hopen
  · rintro ⟨_, hcap, hdense⟩
    exact himage.recovers hrun (himage.recovered hrun hcap hdense)

/-! ## An image with a gap -/

/-- The mapping of an extent to the `i`th place of the file. -/
def denseAllocation (l i : Nat) : ExtentAllocation := ⟨l, denseOffset i, 0⟩

def allocationOp (l i opLsn : Nat) : DeltaOp :=
  (DeltaIntent.extentAlloc storeProps 1 (denseAllocation l i)).toOp opLsn
    (denseAllocation l i).encode

/-- Two extents whose entries lie on two head pages. -/
def twoPageLog : List DeltaOp := [allocationOp 0 0 1, allocationOp 339 1 2]

/-- Only the second head page was written. -/
def secondPageOnly (d : ExtentDirectory) (k : Nat) : Option SlottedPage :=
  if k = 1 then d.pages 1 else none

theorem twoPageLog_checks (op : DeltaOp) (hop : op ∈ twoPageLog) :
    ∃ r, (empty 1 storeProps).checkExtentAlloc op = .ok r := by
  have h : twoPageLog.all fun op => ((empty 1 storeProps).checkExtentAlloc op).isOk := by
    decide +kernel
  have hok := all_eq_true.mp h op hop
  cases hr : (empty 1 storeProps).checkExtentAlloc op with
  | error => simp [hr, Except.isOk, Except.toBool] at hok
  | ok r => exact ⟨r, rfl⟩

theorem assignments_twoPageLog : assignments twoPageLog =
    [(0, ⟨denseAllocation 0 0, directoryEntryGeneration⟩),
      (339, ⟨denseAllocation 339 1, directoryEntryGeneration⟩)] := by
  decide +kernel

def twoPageLedger : Ledger Nat DirectoryEntry where
  entries := update (update (fun _ => none) 0
    (some ⟨denseAllocation 0 0, directoryEntryGeneration⟩)) 339
    (some ⟨denseAllocation 339 1, directoryEntryGeneration⟩)
  count := 2

theorem exists_applyLog_twoPageLog (crc32c : Bytes → UInt32) : ∃ final,
    (empty 1 storeProps).applyLog crc32c twoPageLog = .ok final ∧
      final.ledger 2 = twoPageLedger := by
  have hrun : ((empty 1 storeProps).ledger 0).run denseOffset place
      (assignments twoPageLog) = some twoPageLedger := by
    rw [assignments_twoPageLog]
    have hfirst : ((empty 1 storeProps).ledger 0).assign denseOffset place 0
        ⟨denseAllocation 0 0, directoryEntryGeneration⟩ = some ⟨update (fun _ => none) 0
          (some ⟨denseAllocation 0 0, directoryEntryGeneration⟩), 1⟩ :=
      Ledger.assign_of_none rfl rfl
    have hsecond : Ledger.assign denseOffset place ⟨update (fun _ => none) 0
        (some ⟨denseAllocation 0 0, directoryEntryGeneration⟩), 1⟩ 339
        ⟨denseAllocation 339 1, directoryEntryGeneration⟩ = some twoPageLedger := by
      apply Ledger.assign_of_none
      · simp [OfNat.ofNat_ne_zero, update_of_ne]
      · rfl
    simp [Ledger.run, foldlM_cons, hfirst, bind_eq_bind, hsecond, foldlM_nil,
      Option.pure_def]
  obtain ⟨final, hfinal, hledger, -⟩ := recovered_empty.exists_applyLog twoPageLog_checks hrun
  exact ⟨final, hfinal, hledger⟩

theorem crashImage_secondPageOnly
    (h : (empty 1 storeProps).applyLog crc32c twoPageLog = .ok final) :
    CrashImage crc32c (empty 1 storeProps) twoPageLog (secondPageOnly final) := by
  intro k
  by_cases hk : k = 1
  · subst hk
    exact ⟨2, final, h, if_pos rfl⟩
  · exact ⟨0, empty 1 storeProps, rfl, if_neg hk⟩

theorem recovers_iff_dense_twoPages : ∃ final,
    (empty 1 storeProps).applyLog (fun _ => 0) twoPageLog = .ok final ∧
      CrashImage (fun _ => 0) (empty 1 storeProps) twoPageLog (secondPageOnly final) ∧
      (Recovers (fun _ => 0) (onDisk 1 storeProps (secondPageOnly final)) twoPageLog final ↔
        DenseBelowCap (fun _ => 0) (onDisk 1 storeProps (secondPageOnly final))) := by
  obtain ⟨final, hrun, -⟩ := exists_applyLog_twoPageLog fun _ => 0
  have himage := crashImage_secondPageOnly hrun
  exact ⟨final, hrun, himage, recovers_iff_dense _ 1 storeProps twoPageLog final _ hrun himage⟩

/-- The second extent's entry is on the disk and the first one's is not: the directory cannot
be opened, and the log that holds both allocations is of no use. -/
theorem open_refuses_gap : ∃ final,
    (empty 1 storeProps).applyLog (fun _ => 0) twoPageLog = .ok final ∧
      CrashImage (fun _ => 0) (empty 1 storeProps) twoPageLog (secondPageOnly final) ∧
      ¬ Recovers (fun _ => 0) (onDisk 1 storeProps (secondPageOnly final)) twoPageLog final := by
  obtain ⟨final, hrun, hledger⟩ := exists_applyLog_twoPageLog fun _ => 0
  have himage := crashImage_secondPageOnly hrun
  refine ⟨final, hrun, himage, ?_⟩
  rintro ⟨_, _, _, _, _, hopen, -⟩
  obtain ⟨_, -, hdense⟩ := himage.dense_of_recover hopen
  have hentries : final.entry = twoPageLedger.entries := congrArg entries hledger
  have hsecond : (onDisk 1 storeProps (secondPageOnly final)).entry 339 =
      some ⟨denseAllocation 339 1, directoryEntryGeneration⟩ := by
    have hpage : (onDisk 1 storeProps (secondPageOnly final)).entry 339 = final.entry 339 := rfl
    rw [hpage, hentries]
    simp [twoPageLedger]
  obtain ⟨i, _, hplace⟩ := hdense.numbered hsecond
  have hone : 1 = i := denseOffset_injective hplace
  obtain ⟨l, e, he, hfirst⟩ := hdense.onto 0 (by omega)
  -- The only extent with the first place is the one that was not written.
  have hfinal := himage.entry hrun l e he
  rw [hentries] at hfinal
  by_cases hl : l = 339
  · subst hl
    cases hsecond.symm.trans he
    exact absurd (denseOffset_injective hfirst) (by decide)
  · by_cases hzero : l = 0
    · subst hzero
      cases he
    · simp only [twoPageLedger, update_of_ne hl, update_of_ne hzero, reduceCtorEq] at hfinal

end ExtentDirectory
end ArcGraph.Extent
