import ArcGraph.Foundation.Replay
import ArcGraph.Redo.Apply

/-!
# Redo converges

Running redo from a crash image gives the pages that running it once gives, where the crash
image holds each page as it was after some prefix of the operations, a prefix of its own for
every page.

An operation that went through leaves its page at an LSN not below its own. Whatever is
applied to the page later keeps the page's identity, keeps it readable and only raises its
LSN (`Advances`), so the operation passes its checks again and is skipped. Nothing here
depends on the order of the LSNs in the log.
-/

namespace ArcGraph.Redo
open Foundation Records Wal Function SlottedPage Option

section
variable {crc32c : Bytes → UInt32} {page page' : SlottedPage} {op : DeltaOp} {commitLsn : Nat}

/-- What later operations on the page leave of it. -/
structure Advances (crc32c : Bytes → UInt32) (page page' : SlottedPage) : Prop where
  pageId_eq : page'.header.pageId = page.header.pageId
  tenantId_eq : page'.header.tenantId = page.header.tenantId
  pageType_eq : page'.header.pageType = page.header.pageType
  flags_eq : page'.header.flags = page.header.flags
  lsn_le : page.header.lsn ≤ page'.header.lsn
  attach_ok : page'.attach crc32c = .ok ()

theorem applyPhysicalDelta_some
    (h : applyPhysicalDelta crc32c page op commitLsn = .ok (some page')) :
    checkTarget crc32c page op commitLsn = .ok () ∧ page'.header.lsn = op.opLsn ∧
      Advances crc32c page page' := by
  obtain ⟨u, hcheck, h⟩ := bind_eq_ok.mp h
  obtain ⟨hlsn, _, hq, rfl⟩ := applyRedoIfNewer_some h
  obtain ⟨_, -, happly⟩ := mutatePage_ok hq
  have hreopens := (PageOp.apply_ok happly).1.reopens
  have hattach : page.attach crc32c = .ok () := by
    simp only [checkTarget, ite_throw_bind_eq_ok, bind_eq_ok, mapError_eq_ok] at hcheck
    obtain ⟨u, -, -, -, _, hattach, -⟩ := hcheck
    exact hattach
  have hsame := hreopens.same
  refine ⟨hcheck, rfl, hsame.pageId_eq, hsame.tenantId_eq, hsame.pageType_eq, hsame.flags_eq,
    hlsn.le, ?_⟩
  exact attach_ok_iff.mpr (attach_ok_iff.mp (hreopens.attach_ok hattach))

theorem checkPresent_of_advances (hadv : Advances crc32c page page')
    (h : checkPresent crc32c page op = .ok ()) : checkPresent crc32c page' op = .ok () := by
  unfold checkPresent at h ⊢
  split at h
  · rename_i htel
    rw [if_pos htel]
    split at h
    · cases h
    · rename_i hok
      simp only [not_or, not_not] at hok
      rw [if_neg]
      simp only [hadv.pageId_eq, hadv.tenantId_eq, hadv.pageType_eq, not_or, not_not]
      exact ⟨hok.1, hok.2.1, hok.2.2.1, (attach_ok_iff.mp hadv.attach_ok).1⟩
  · rename_i htel
    rw [if_neg htel]
    exact mapError_eq_ok.mpr hadv.attach_ok

theorem checkTarget_of_advances (hadv : Advances crc32c page page')
    (h : checkTarget crc32c page op commitLsn = .ok ()) :
    checkTarget crc32c page' op commitLsn = .ok () := by
  have hstore : checkStore op page'.header = checkStore op page.header := by
    unfold checkStore storeHolds
    rw [hadv.pageType_eq, hadv.flags_eq]
  simp only [checkTarget, ite_throw_bind_eq_ok, bind_eq_ok, mapError_eq_ok] at h ⊢
  obtain ⟨u, hshape, hkind, hlsn, v, -, hpage, hchecked⟩ := h
  refine ⟨u, hshape, hkind, hlsn, (), hadv.attach_ok, ?_, ?_⟩
  · rw [hadv.pageId_eq, hadv.tenantId_eq]
    exact hpage
  · rw [hstore]
    exact hchecked

theorem redoPresent_none_iff : redoPresent crc32c page op commitLsn = .ok none ↔
    checkPresent crc32c page op = .ok () ∧ op.opLsn ≤ page.header.lsn ∧
      (op.kind ≠ .pageAlloc → checkTarget crc32c page op commitLsn = .ok ()) := by
  unfold redoPresent
  rw [bind_eq_ok]
  constructor
  · rintro ⟨u, hpresent, h⟩
    refine ⟨hpresent, ?_⟩
    split at h
    · rename_i hkind
      split at h
      · exact ⟨‹_›, fun hne => absurd hkind hne⟩
      · cases h
    · obtain ⟨v, htarget, h⟩ := bind_eq_ok.mp h
      exact ⟨applyRedoIfNewer_none.mp h, fun _ => htarget⟩
  · rintro ⟨hpresent, hlsn, htarget⟩
    refine ⟨(), hpresent, ?_⟩
    by_cases hkind : op.kind = .pageAlloc
    · rw [if_pos hkind, if_pos hlsn]
      rfl
    · rw [if_neg hkind]
      exact bind_eq_ok.mpr ⟨(), htarget hkind, applyRedoIfNewer_none.mpr hlsn⟩

theorem redoPresent_some (h : redoPresent crc32c page op commitLsn = .ok (some page')) :
    redoPresent crc32c page' op commitLsn = .ok none ∧ page.header.lsn < page'.header.lsn ∧
      Advances crc32c page page' := by
  obtain ⟨u, hpresent, h⟩ := bind_eq_ok.mp h
  split at h
  · split at h <;> cases h
  · rename_i hkind
    obtain ⟨htarget, hlsn, hadv⟩ := applyPhysicalDelta_some h
    obtain ⟨v, -, h⟩ := bind_eq_ok.mp h
    have hnewer := (applyRedoIfNewer_some h).1
    refine ⟨redoPresent_none_iff.mpr ⟨checkPresent_of_advances hadv hpresent, hlsn.ge, ?_⟩,
      hlsn ▸ hnewer, hadv⟩
    exact fun _ => checkTarget_of_advances hadv htarget

theorem redoPresent_of_advances (hadv : Advances crc32c page page')
    (h : redoPresent crc32c page op commitLsn = .ok none) :
    redoPresent crc32c page' op commitLsn = .ok none := by
  obtain ⟨hpresent, hlsn, htarget⟩ := redoPresent_none_iff.mp h
  refine redoPresent_none_iff.mpr ⟨checkPresent_of_advances hadv hpresent,
    hlsn.trans hadv.lsn_le, fun hkind => checkTarget_of_advances hadv (htarget hkind)⟩

theorem opLsn_pos (h : op.validateShape = .ok ()) : 0 < op.opLsn := by
  unfold DeltaOp.validateShape at h
  split at h
  · cases h
  · omega

theorem ofByte_of_storeTel (h : op.validateShape = .ok ()) (hkind : op.kind = .pageAlloc)
    (hstore : op.storeId = storeTel) : PageType.ofByte (op.payload.getD 0 0) = some .tel := by
  unfold DeltaOp.validateShape at h
  simp only [hkind, DeltaOpKind.isPhysical, if_true, ne_eq, not_true_eq_false, false_and, and_false,
    if_false, DeltaOp.validateKind, DeltaOp.validatePageAlloc] at h
  split at h
  · cases h
  · split at h
    · cases h
    · split at h
      · cases h
      · rename_i t htype
        split at h
        · rename_i hmatch
          have htel : t = 3 := by
            rw [hstore] at hmatch
            exact of_decide_eq_true hmatch
          have hbyte : (op.payload.getD 0 0).toNat = t := by
            unfold pageTypeOfByte at htype
            split at htype
            · exact some.inj htype
            · cases htype
          have h3 : op.payload.getD 0 0 = 3 := UInt8.toNat_inj.mp (hbyte.trans htel)
          rw [h3]
          rfl
        · cases h

theorem redoPresent_formatPage (hshape : op.validateShape = .ok ())
    (h : formatPage crc32c op = .ok page) : redoPresent crc32c page op commitLsn = .ok none := by
  unfold formatPage at h
  rw [ite_throw_bind_eq_ok, not_not] at h
  obtain ⟨hkind, h⟩ := h
  have hcovered : op.opLsn ≤ page.header.lsn → checkPresent crc32c page op = .ok () →
      redoPresent crc32c page op commitLsn = .ok none := fun hlsn hpresent =>
    redoPresent_none_iff.mpr ⟨hpresent, hlsn, fun hne => absurd hkind hne⟩
  split at h
  · cases h
  · cases h
    refine hcovered le_rfl ?_
    unfold checkPresent
    split
    · rw [if_neg]
      simp
    · exact mapError_eq_ok.mpr (attach_ok_iff.mpr ⟨rfl, Nat.zero_le _⟩)
  · rename_i pageType hne htype
    obtain ⟨_, hfresh, h⟩ := bind_eq_ok.mp h
    obtain ⟨-, rfl⟩ := init_ok (mapError_eq_ok.mp hfresh)
    obtain ⟨stamped, hstamped, h⟩ := bind_eq_ok.mp h
    have hpos := opLsn_pos hshape
    cases stamped with
    | none =>
      have hle : op.opLsn ≤ 0 := applyRedoIfNewer_none.mp hstamped
      omega
    | some =>
      cases h
      obtain ⟨-, _, hr, hpage⟩ := applyRedoIfNewer_some hstamped
      cases hr
      subst hpage
      refine hcovered le_rfl ?_
      unfold checkPresent
      rw [if_neg]
      · exact mapError_eq_ok.mpr (attach_ok_iff.mpr ⟨rfl, Nat.zero_le _⟩)
      · rintro ⟨hstore, -⟩
        rw [ofByte_of_storeTel hshape hkind hstore] at htype
        cases htype
        exact hne rfl

end

/-! ## Stores -/

section
variable (crc32c : Bytes → UInt32)

def redoPage (page : Option SlottedPage) (op : DeltaOp × Nat) :
    Except WalError (Option SlottedPage) := do
  checkPhysical op.1
  match page with
  | none => do return some (← formatPage crc32c op.1)
  | some page => do
      let changed ← redoPresent crc32c page op.1 op.2
      return some (changed.getD page)

variable {crc32c} {op : DeltaOp × Nat} {after : Option SlottedPage}

theorem checkPhysical_validateShape {op : DeltaOp} (h : checkPhysical op = .ok ()) :
    op.validateShape = .ok () := by
  obtain ⟨u, hshape, -⟩ := bind_eq_ok.mp h
  exact mapError_eq_ok.mp hshape

theorem redoPage_some_iff {page : SlottedPage} :
    redoPage crc32c (some page) op = .ok after ↔ checkPhysical op.1 = .ok () ∧
      ∃ changed, redoPresent crc32c page op.1 op.2 = .ok changed ∧
        after = some (changed.getD page) := by
  simp only [redoPage, bind_eq_ok, pure_eq_ok]
  constructor
  · rintro ⟨u, hcheck, changed, hchanged, hafter⟩
    exact ⟨hcheck, changed, hchanged, hafter.symm⟩
  · rintro ⟨hcheck, changed, hchanged, hafter⟩
    exact ⟨(), hcheck, changed, hchanged, hafter.symm⟩

theorem redoPage_none_iff : redoPage crc32c none op = .ok after ↔ checkPhysical op.1 = .ok () ∧
      ∃ page, formatPage crc32c op.1 = .ok page ∧ after = some page := by
  simp only [redoPage, bind_eq_ok, pure_eq_ok]
  constructor
  · rintro ⟨u, hcheck, page, hpage, hafter⟩
    exact ⟨hcheck, page, hpage, hafter.symm⟩
  · rintro ⟨hcheck, page, hpage, hafter⟩
    exact ⟨(), hcheck, page, hpage, hafter.symm⟩

theorem absorbs_redoPage : Absorbs (redoPage crc32c) where
  step {before after op} h := by
    cases before with
    | none =>
      obtain ⟨hcheck, page, hpage, rfl⟩ := redoPage_none_iff.mp h
      exact redoPage_some_iff.mpr ⟨hcheck, none,
        redoPresent_formatPage (checkPhysical_validateShape hcheck) hpage, rfl⟩
    | some =>
      obtain ⟨hcheck, changed, hchanged, rfl⟩ := redoPage_some_iff.mp h
      cases changed with
      | none => exact h
      | some =>
        exact redoPage_some_iff.mpr ⟨hcheck, none, (redoPresent_some hchanged).1, rfl⟩
  keep {before after op other} h hother := by
    cases before with
    | none =>
      obtain ⟨-, page, -, hpage⟩ := redoPage_none_iff.mp h
      cases hpage
    | some page =>
      obtain ⟨hcheck, changed, hchanged, hsame⟩ := redoPage_some_iff.mp h
      obtain ⟨-, changed', hchanged', rfl⟩ := redoPage_some_iff.mp hother
      cases changed' with
      | none => exact h
      | some =>
        have hadv := (redoPresent_some hchanged').2.2
        cases changed with
        | none =>
          exact redoPage_some_iff.mpr
            ⟨hcheck, none, redoPresent_of_advances hadv hchanged, rfl⟩
        | some page1 =>
          -- a change raises the LSN, so it does not give the same page
          have hlt := (redoPresent_some hchanged).2.1
          have heq : page = page1 := some.inj hsame
          rw [heq] at hlt
          exact absurd hlt (lt_irrefl _)

def pageKey (op : DeltaOp × Nat) : Bool × TenantId × UInt64 :=
  (op.1.storeId = storeProps, op.1.tenantId, op.1.pageNo)

namespace RedoStores
variable (s : RedoStores)

def pages : Bool × TenantId × UInt64 → Option SlottedPage
  | (true, page) => s.props page
  | (false, page) => s.records page

theorem readPageForRedo_eq (op : DeltaOp × Nat) :
    s.readPageForRedo op.1 = s.pages (pageKey op) := by
  unfold readPageForRedo pageKey
  split <;> simp [pages, *]

theorem pages_installPageFromRedo (op : DeltaOp × Nat) (page : SlottedPage) :
    (s.installPageFromRedo op.1 page).pages = update s.pages (pageKey op) (some page) := by
  funext k
  obtain ⟨side, k⟩ := k
  unfold installPageFromRedo pageKey
  by_cases hstore : op.1.storeId = storeProps
  · cases side <;> simp [pages, hstore, update_apply]
  · cases side <;> simp [pages, hstore, update_apply]

end RedoStores

variable {s s' : RedoStores} {op : DeltaOp × Nat}
  {st : Bool × TenantId × UInt64 → Option SlottedPage} {ops : List (DeltaOp × Nat)}
  {bundles : List RedoBundle}

/-- The stores after an operation, as a keyed store. -/
theorem applyRecoveryDelta_pages {outcome : RecoveryDeltaOutcome}
    (h : applyRecoveryDelta crc32c s op.1 op.2 = .ok (outcome, s')) :
    stepAt pageKey (redoPage crc32c) s.pages op = .ok s'.pages := by
  obtain ⟨u, hcheck, h⟩ := bind_eq_ok.mp h
  rw [stepAt_ok, ← s.readPageForRedo_eq op]
  have hread := s.readPageForRedo_eq op
  split at h
  · rename_i hmissing
    obtain ⟨page, hpage, h⟩ := bind_eq_ok.mp h
    cases h
    refine ⟨some page, ?_, s.pages_installPageFromRedo op page⟩
    rw [hmissing]
    exact redoPage_none_iff.mpr ⟨hcheck, page, hpage, rfl⟩
  · rename_i page hpresent
    obtain ⟨changed, hchanged, h⟩ := bind_eq_ok.mp h
    refine ⟨some (changed.getD page), ?_, ?_⟩
    · rw [hpresent]
      exact redoPage_some_iff.mpr ⟨hcheck, changed, hchanged, rfl⟩
    · cases changed with cases h
      | none =>
        rw [getD_none, ← hpresent, hread, update_eq_self]
      | some page' =>
        exact s.pages_installPageFromRedo op page'

theorem applyRecoveryDelta_of_stepAt (h : stepAt pageKey (redoPage crc32c) s.pages op = .ok st) :
    ∃ outcome s', applyRecoveryDelta crc32c s op.1 op.2 = .ok (outcome, s') := by
  obtain ⟨_, hpage, -⟩ := stepAt_ok.mp h
  rw [← s.readPageForRedo_eq op] at hpage
  unfold applyRecoveryDelta
  cases hread : s.readPageForRedo op.1 with rw [hread] at hpage
  | none =>
    obtain ⟨hcheck, fresh, hfresh, -⟩ := redoPage_none_iff.mp hpage
    exact ⟨.formatted, _, bind_eq_ok.mpr ⟨(), hcheck, bind_eq_ok.mpr ⟨fresh, hfresh, rfl⟩⟩⟩
  | some =>
    obtain ⟨hcheck, changed, hchanged, -⟩ := redoPage_some_iff.mp hpage
    cases changed with
    | none =>
      exact ⟨.idempotent, s, bind_eq_ok.mpr ⟨(), hcheck, bind_eq_ok.mpr ⟨none, hchanged, rfl⟩⟩⟩
    | some page' =>
      exact ⟨.applied, _, bind_eq_ok.mpr ⟨(), hcheck, bind_eq_ok.mpr ⟨some page', hchanged, rfl⟩⟩⟩

theorem applyAll_cons_ok {rest : List (DeltaOp × Nat)} :
    applyAll crc32c s (op :: rest) = .ok s' ↔ ∃ outcome m,
      applyRecoveryDelta crc32c s op.1 op.2 = .ok (outcome, m) ∧
        applyAll crc32c m rest = .ok s' := by
  unfold applyAll
  rw [foldlM_cons_ok]
  constructor
  · rintro ⟨m, hm, hrest⟩
    obtain ⟨⟨outcome, _⟩, hm', hpure⟩ := bind_eq_ok.mp hm
    cases hpure
    exact ⟨outcome, m, hm', hrest⟩
  · rintro ⟨outcome, m, hm, hrest⟩
    exact ⟨m, bind_eq_ok.mpr ⟨(outcome, m), hm, rfl⟩, hrest⟩

theorem applyAll_pages (h : applyAll crc32c s ops = .ok s') :
    ops.foldlM (stepAt pageKey (redoPage crc32c)) s.pages = .ok s'.pages := by
  induction ops generalizing s with
  | nil =>
    cases h
    rfl
  | cons _ _ ih =>
    obtain ⟨_, m, hm, hrest⟩ := applyAll_cons_ok.mp h
    exact foldlM_cons_ok.mpr ⟨m.pages, applyRecoveryDelta_pages hm, ih hrest⟩

theorem applyAll_of_stepAt (h : ops.foldlM (stepAt pageKey (redoPage crc32c)) s.pages = .ok st) :
    ∃ s', applyAll crc32c s ops = .ok s' ∧ s'.pages = st := by
  induction ops generalizing s with
  | nil =>
    cases h
    exact ⟨s, rfl, rfl⟩
  | cons _ _ ih =>
    obtain ⟨_, hst', hrest⟩ := foldlM_cons_ok.mp h
    obtain ⟨outcome, m, hm⟩ := applyRecoveryDelta_of_stepAt hst'
    cases (applyRecoveryDelta_pages hm).symm.trans hst'
    obtain ⟨s', hs', hpages⟩ := ih hrest
    exact ⟨s', applyAll_cons_ok.mpr ⟨outcome, m, hm, hs'⟩, hpages⟩

def redoOrder (bundles : List RedoBundle) : List (DeltaOp × Nat) :=
  redoOps (sortBy (fun b => toLex (b.range.base, b.range.end)) bundles)

/-- A state after a crash in the middle of a redo pass: every page is on disk as some prefix
of the operations left it. -/
def CrashImage (crc32c : Bytes → UInt32) (s : RedoStores) (bundles : List RedoBundle)
    (crashed : RedoStores) : Prop :=
  ∀ k, ∃ n m, applyAll crc32c s ((redoOrder bundles).take n) = .ok m ∧ crashed.pages k = m.pages k

theorem redoPass_ok : redoPass crc32c s bundles = .ok s' ↔
    (∃ stats, checkRedoOrder RedoBundle.range
      (sortBy (fun b => toLex (b.range.base, b.range.end)) bundles) none {} = .ok stats) ∧
    applyAll crc32c s (redoOrder bundles) = .ok s' := by
  unfold redoPass sortByRedoRange redoOrder
  simp only [bind_eq_ok, mapError_eq_ok, pure_eq_ok]
  constructor
  · rintro ⟨⟨stats, _⟩, ⟨_, hstats, hsorted⟩, h⟩
    cases hsorted
    exact ⟨⟨stats, hstats⟩, h⟩
  · rintro ⟨⟨stats, hstats⟩, h⟩
    exact ⟨(stats, _), ⟨stats, hstats, rfl⟩, h⟩

theorem redo_of_crashImage {crashed : RedoStores}
    (h : redoPass crc32c s bundles = .ok s') (hcrash : CrashImage crc32c s bundles crashed) :
    ∃ again, redoPass crc32c crashed bundles = .ok again ∧ again.pages = s'.pages := by
  obtain ⟨hstats, hall⟩ := redoPass_ok.mp h
  have hagain : (redoOrder bundles).foldlM (stepAt pageKey (redoPage crc32c)) crashed.pages =
      .ok s'.pages := by
    refine absorbs_redoPage.stepAt_of_prefixes (applyAll_pages hall) fun k => ?_
    obtain ⟨n, m, hm, hk⟩ := hcrash k
    exact ⟨n, m.pages, applyAll_pages hm, hk⟩
  obtain ⟨again, hall', hpages⟩ := applyAll_of_stepAt hagain
  exact ⟨again, redoPass_ok.mpr ⟨hstats, hall'⟩, hpages⟩

/-- Redo from a crash image, and redo once more after it is done, end with the same pages as
redo from the start. -/
theorem redo_converges {bundles : List RedoBundle} (h : redoPass crc32c s bundles = .ok s') :
    (∀ crashed, CrashImage crc32c s bundles crashed →
      ∃ again, redoPass crc32c crashed bundles = .ok again ∧ again.pages = s'.pages) ∧
    ∃ again, redoPass crc32c s' bundles = .ok again ∧ again.pages = s'.pages := by
  refine ⟨fun crashed hcrash => redo_of_crashImage h hcrash, redo_of_crashImage h fun k => ?_⟩
  refine ⟨(redoOrder bundles).length, s', ?_, rfl⟩
  rw [List.take_length]
  exact (redoPass_ok.mp h).2

end

/-! A property page is formatted and filled by two bundles, logged in the wrong order. -/

def emptyStores : RedoStores := ⟨fun _ => none, fun _ => none, .new⟩

def propOp (kind : DeltaOpKind) (slot : UInt16) (opLsn : Nat) (payload : Bytes) : DeltaOp where
  kind := kind
  storeId := storeProps
  tenantId := 1
  pageNo := 5
  slot := slot
  opLsn := opLsn
  payload := payload

def twoBundles : List RedoBundle :=
  [⟨⟨9, 9, by decide, by decide⟩, [propOp .putPropBlock 0 9 [4]]⟩,
    ⟨⟨7, 8, by decide, by decide⟩,
      [propOp .pageAlloc 0 7 [9, 0, 0, 0, 0, 0, 0, 0, 0], propOp .putPropBlock 0 8 [2]]⟩]

def afterPass : RedoStores := (redoPass (fun _ => 0) emptyStores twoBundles).toOption.getD emptyStores

def midPass : RedoStores :=
  (applyAll (fun _ => 0) emptyStores ((redoOrder twoBundles).take 2)).toOption.getD emptyStores

theorem redo_converges_midPass :
    ∃ again, redoPass (fun _ => 0) midPass twoBundles = .ok again ∧
      again.pages = afterPass.pages := by
  have hpass : redoPass (fun _ => 0) emptyStores twoBundles = .ok afterPass :=
    eq_ok_getD emptyStores (by decide +kernel)
  have hmid : applyAll (fun _ => 0) emptyStores ((redoOrder twoBundles).take 2) = .ok midPass :=
    eq_ok_getD emptyStores (by decide +kernel)
  exact (redo_converges hpass).1 midPass fun k => ⟨2, midPass, hmid, rfl⟩

end ArcGraph.Redo
