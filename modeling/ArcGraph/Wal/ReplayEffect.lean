import ArcGraph.Wal.Replay

/-!
# What applying bundles does to reads

A bundle adds at most one version to a chain, the first one it lists for the key,
and only to a chain that ends below its commit LSN. Two replays that apply
variants of the same bundles, some of them re-encoded and so without their deltas,
stay aligned: they agree on the watermarks and on which chains still accept a
commit. Whether they agree on reads is a question of the writes that only the
deltas carry.
-/

namespace ArcGraph.Wal
open Foundation Mvcc VersionChain List Function Option

/-! ## One chain -/

variable (chain : VersionChain)

/-- The chain ends below `lsn`, so a replayed write at `lsn` is pushed. -/
def Admits (lsn : Nat) : Prop :=
  ∀ last, chain.getLast? = some last → last.createdLsn < lsn

def latest : Option Bytes := chain.getLast?.bind (·.value)

variable {chain : VersionChain} {lsn : Nat}

theorem replayWrite_of_admits (h : Admits chain lsn) (value : Option Bytes) :
    replayWrite lsn value chain = chain.install lsn value := by
  unfold replayWrite
  cases hlast : chain.getLast? with
  | none => rfl
  | some last =>
    have hlt := h last hlast
    exact if_neg (by omega)

theorem replayWrite_of_not_admits (h : ¬ Admits chain lsn) (value : Option Bytes) :
    replayWrite lsn value chain = chain := by
  unfold Admits at h
  unfold replayWrite
  cases hlast : chain.getLast? with
  | none => exact absurd (fun last hl => by simp [hlast] at hl) h
  | some last =>
    have hle : lsn ≤ last.createdLsn := by
      by_contra hlt
      exact h fun last' hl => by
        rw [hlast] at hl
        cases hl
        omega
    exact if_pos hle

theorem not_admits_install (value : Option Bytes) : ¬ Admits (chain.install lsn value) lsn := by
  intro h
  have hlast := h ⟨lsn, none, value⟩ (by simp [install])
  simp at hlast

theorem replayWrite_replayWrite (v w : Option Bytes) :
    replayWrite lsn v (replayWrite lsn w chain) = replayWrite lsn w chain := by
  by_cases h : Admits chain lsn
  · rw [replayWrite_of_admits h]
    exact replayWrite_of_not_admits (not_admits_install w) v
  · rw [replayWrite_of_not_admits h, replayWrite_of_not_admits h]

theorem entries_lt_of_admits (hwf : WellFormed chain) (h : Admits chain lsn) :
    ∀ e ∈ entries chain, e.1 < lsn := by
  rcases eq_nil_or_concat chain with rfl | ⟨init, last, rfl⟩
  · simp
  · rw [concat_eq_append] at h hwf ⊢
    have hlast := h last (by simp)
    intro e he
    rw [entries_append, mem_append] at he
    rcases he with he | he
    · have hsorted := hwf.sorted
      rw [entries_append, pairwise_append] at hsorted
      exact (hsorted.2.2 e he (last.createdLsn, last.value) (by simp)).trans hlast
    · simp only [entries_cons, entries_nil, mem_singleton] at he
      rw [he]
      exact hlast

variable {lsn' snapshot : Nat} {b' : DecodedCommitBundle}

theorem admits_install_iff (value : Option Bytes) :
    Admits (chain.install lsn value) lsn' ↔ lsn < lsn' := by
  simp [Admits, install]

theorem Admits.mono (h : Admits chain lsn) (hle : lsn ≤ lsn') : Admits chain lsn' :=
  fun last hl => (h last hl).trans_le hle

section
variable (hwf : WellFormed chain)
include hwf

theorem wellFormed_replayWrite (value : Option Bytes) :
    WellFormed (replayWrite lsn value chain) := by
  by_cases h : Admits chain lsn
  · rw [replayWrite_of_admits h]
    exact hwf.install (entries_lt_of_admits hwf h)
  · rwa [replayWrite_of_not_admits h]

theorem readAt_replayWrite_of_lt (value : Option Bytes)
    (hlt : snapshot < lsn) : readAt (replayWrite lsn value chain) snapshot = readAt chain snapshot := by
  by_cases h : Admits chain lsn
  · rw [replayWrite_of_admits h]
    refine (hwf.install (entries_lt_of_admits hwf h)).readAt_congr hwf fun e he => ?_
    rw [entries_install, mem_append, mem_singleton]
    refine or_iff_left fun heq => ?_
    rw [heq] at he
    omega
  · rw [replayWrite_of_not_admits h]

theorem readAt_replayWrite_of_le (h : Admits chain lsn)
    (value : Option Bytes) (hle : lsn ≤ snapshot) :
    readAt (replayWrite lsn value chain) snapshot = value := by
  have hlt := entries_lt_of_admits hwf h
  rw [replayWrite_of_admits h]
  refine (hwf.install hlt).readAt_newest (e := (lsn, value)) (by simp) hle fun g hg _ => ?_
  rw [entries_install, mem_append, mem_singleton] at hg
  rcases hg with hg | rfl
  · exact (hlt g hg).le
  · exact Nat.le_refl _

theorem readAt_of_admits (h : Admits chain (snapshot + 1)) :
    readAt chain snapshot = latest chain := by
  rcases eq_nil_or_concat chain with rfl | ⟨init, last, rfl⟩
  · rfl
  · rw [concat_eq_append] at h hwf ⊢
    have hlt := entries_lt_of_admits hwf h
    have hsorted := hwf.sorted
    rw [entries_append, pairwise_append] at hsorted
    have hmem : (last.createdLsn, last.value) ∈ entries (init ++ [last]) := by simp
    have hlast := hlt _ hmem
    rw [hwf.readAt_newest hmem (by simp only at hlast ⊢; omega)]
    · simp [latest]
    · intro g hg _
      rw [entries_append, mem_append] at hg
      rcases hg with hg | hg
      · exact (hsorted.2.2 g hg _ (by simp)).le
      · simp only [entries_cons, entries_nil, mem_singleton] at hg
        rw [hg]

end

/-! ## The writes of one commit -/

variable (writes : List KeyWrite)

/-- The write that counts for a key: the first one. -/
def firstWrite (k : VersionKey) : Option (Option Bytes) :=
  (writes.find? (·.1 = k)).map (·.2)

theorem firstWrite_append (ws ds : List KeyWrite) (k : VersionKey) :
    firstWrite (ws ++ ds) k = (firstWrite ws k).or (firstWrite ds k) := by
  rw [firstWrite, find?_append, map_or]
  rfl

/-- What a write does to a chain; `none` is no write. -/
def writeChain (lsn : Nat) (write : Option (Option Bytes)) (chain : VersionChain) : VersionChain :=
  match write with
  | some value => replayWrite lsn value chain
  | none => chain

theorem replayWrites_apply (vs : Versions) (k : VersionKey) :
    replayWrites lsn writes vs k = writeChain lsn (firstWrite writes k) (vs k) := by
  induction writes generalizing vs with
  | nil => rfl
  | cons w rest ih =>
    have hstep : replayWrites lsn (w :: rest) vs k =
        replayWrites lsn rest (vs.update w.1 (replayWrite lsn w.2)) k := rfl
    rw [hstep, ih]
    by_cases hk : w.1 = k
    · have hfirst : firstWrite (w :: rest) k = some w.2 := by simp [firstWrite, hk]
      have hchain : vs.update w.1 (replayWrite lsn w.2) k = replayWrite lsn w.2 (vs k) := by
        rw [← hk]
        exact update_self ..
      rw [hfirst, hchain]
      -- whatever the rest writes to `k` comes too late
      cases hrest : firstWrite rest k with
      | none => rfl
      | some v => exact replayWrite_replayWrite v w.2
    · have hfirst : firstWrite (w :: rest) k = firstWrite rest k := by simp [firstWrite, hk]
      have hchain : vs.update w.1 (replayWrite lsn w.2) k = vs k :=
        update_of_ne (.symm hk) ..
      rw [hfirst, hchain]

theorem wellFormed_writeChain (hwf : WellFormed chain) (write : Option (Option Bytes)) :
    WellFormed (writeChain lsn write chain) := by
  cases write with
  | none => exact hwf
  | some value => exact wellFormed_replayWrite hwf value

theorem readAt_writeChain_of_lt (hwf : WellFormed chain) (write : Option (Option Bytes))
    (hlt : snapshot < lsn) :
    readAt (writeChain lsn write chain) snapshot = readAt chain snapshot := by
  cases write with
  | none => rfl
  | some value => exact readAt_replayWrite_of_lt hwf value hlt

theorem admits_writeChain_iff (hlt : lsn < lsn') (write : Option (Option Bytes)) :
    Admits (writeChain lsn write chain) lsn' ↔ Admits chain lsn' := by
  cases write with
  | none => exact .rfl
  | some value =>
    by_cases h : Admits chain lsn
    · have hpush : writeChain lsn (some value) chain = chain.install lsn value :=
        replayWrite_of_admits h value
      rw [hpush, admits_install_iff]
      exact ⟨fun _ => h.mono hlt.le, fun _ => hlt⟩
    · have hkeep : writeChain lsn (some value) chain = chain := replayWrite_of_not_admits h value
      rw [hkeep]

/-! ## Bundles and their variants -/

namespace DecodedCommitBundle

def Variant (b b' : DecodedCommitBundle) : Prop := b' = b ∨ b' = b.reencoded

variable {b : DecodedCommitBundle}

theorem Variant.commitLsn (h : b.Variant b') : b'.commitLsn = b.commitLsn := by
  rcases h with rfl | rfl <;> rfl

def explicitWrite (b : DecodedCommitBundle) (k : VersionKey) : Option (Option Bytes) :=
  firstWrite b.explicitWrites k

theorem explicitWrite_reencoded (b : DecodedCommitBundle) (k : VersionKey) :
    b.reencoded.explicitWrite k = b.explicitWrite k := by
  have hside : firstWrite ((sortBy entryKey b.sidechannelWrites).map
      fun w => (w.versionKey, w.value)) k =
        firstWrite (b.sidechannelWrites.map fun w => (w.versionKey, w.value)) k := by
    simp only [firstWrite, find?_map]
    rw [find?_sortBy]
    intro x y hx hy
    simp only [comp_apply, decide_eq_true_eq, SideChannelWrite.versionKey] at hx hy
    have hxy : entryKey x = entryKey y := by
      simp only [entryKey, Prod.ext_iff] at hx hy ⊢
      rw [hx.1, hx.2, hy.1, hy.2]
    exact hxy.le
  rw [explicitWrite, explicitWrite, explicitWrites, explicitWrites, firstWrite_append,
    firstWrite_append]
  exact congrArg _ hside

theorem replayedWrites_of_deltaWrites {ds : List KeyWrite} (h : b.deltaWrites = .ok ds) :
    b.replayedWrites = .ok (b.explicitWrites ++ ds) := by
  rw [replayedWrites, h]
  rfl

theorem deltaWrites_of_replayedWrites {ws : List KeyWrite} (h : b.replayedWrites = .ok ws) :
    ∃ ds, b.deltaWrites = .ok ds ∧ ws = b.explicitWrites ++ ds := by
  obtain ⟨ds, hds, h⟩ := bind_eq_ok.mp h
  cases h
  exact ⟨ds, hds, rfl⟩

end DecodedCommitBundle

open DecodedCommitBundle

/-! ## One bundle -/

variable {τ : Type} {t : ReplayTarget τ} {s s' s₁ s₁' : ReplayExecutor τ}
  {b b' : DecodedCommitBundle}

/-- What applying a bundle does to the executor. -/
theorem applyBundle_cases (h : applyBundle t s b = .ok s₁) : (skipsBundle s b = true ∧ s₁ = s) ∨
    (skipsBundle s b = false ∧ ∃ ds target, b.deltaWrites = .ok ds ∧
      applyToTarget t s b = .ok target ∧
      s₁ = { s with
        versions := replayWrites b.commitLsn (b.explicitWrites ++ ds) s.versions
        target
        appliedHighWater := b.commitLsn }) := by
  unfold applyBundle at h
  cases hskip : skipsBundle s b with
  | true =>
    rw [hskip, if_pos rfl] at h
    cases h
    exact .inl ⟨rfl, rfl⟩
  | false =>
    rw [hskip] at h
    obtain ⟨_, hw, h⟩ := bind_eq_ok.mp h
    obtain ⟨ds, hds, rfl⟩ :=
      deltaWrites_of_replayedWrites (mapError_eq_ok.mp hw)
    obtain ⟨target, htarget, h⟩ := bind_eq_ok.mp h
    cases h
    exact .inr ⟨rfl, ds, target, hds, htarget, rfl⟩

theorem applyBundle_of_skips (h : skipsBundle s b = true) : applyBundle t s b = .ok s := by
  rw [applyBundle, if_pos h]

variable {ds : List KeyWrite} {f' : ReplayExecutor τ}

/-- Two executors that will treat every further bundle alike, reads apart. -/
structure Aligned (s s' : ReplayExecutor τ) : Prop where
  applied : s'.appliedHighWater = s.appliedHighWater
  counter : s'.counter = s.counter
  visible : s'.visible = s.visible
  installOrder : s'.installOrder = s.installOrder
  checkpoint : s'.checkpointFloor = s.checkpointFloor
  redoFloor : s'.incrementalRedoFloor = s.incrementalRedoFloor
  wellFormed : ∀ k, WellFormed (s.versions k)
  wellFormed' : ∀ k, WellFormed (s'.versions k)
  admits : ∀ k lsn, s.appliedHighWater < lsn →
    (Admits (s.versions k) lsn ↔ Admits (s'.versions k) lsn)

theorem Aligned.skipsBundle (h : Aligned s s') (hv : b.Variant b') :
    skipsBundle s' b' = skipsBundle s b := by
  simp only [Wal.skipsBundle, belowRedoFloor, h.applied, h.redoFloor, h.checkpoint, hv.commitLsn]

theorem lt_of_not_skipsBundle (h : skipsBundle s b = false) : s.appliedHighWater < b.commitLsn := by
  simp only [skipsBundle, Bool.or_eq_false_iff, decide_eq_false_iff_not] at h
  omega

theorem DecodedCommitBundle.Variant.deltaWrites (hv : b.Variant b') (h : b.deltaWrites = .ok ds) :
    b'.deltaWrites = .ok ds ∨ b'.deltaWrites = .ok [] := by
  rcases hv with rfl | rfl
  · exact .inl h
  · exact .inr rfl

theorem DecodedCommitBundle.Variant.explicitWrite (hv : b.Variant b') (k : VersionKey) :
    b'.explicitWrite k = b.explicitWrite k := by
  rcases hv with rfl | rfl
  · rfl
  · exact b.explicitWrite_reencoded k

/-- A write that only the deltas carry repeats the value the key has. -/
def Redundant (s : ReplayExecutor τ) (b : DecodedCommitBundle) : Prop :=
  skipsBundle s b = false → ∀ ds k v, b.deltaWrites = .ok ds → b.explicitWrite k = none →
    firstWrite ds k = some v → Admits (s.versions k) b.commitLsn → latest (s.versions k) = v

def SameReads (s s' : ReplayExecutor τ) : Prop :=
  ∀ k snapshot, readAt (s.versions k) snapshot = readAt (s'.versions k) snapshot

theorem readAt_eq_latest_of_le (hwf : WellFormed chain) (h : Admits chain lsn)
    (hle : lsn ≤ snapshot) : readAt chain snapshot = latest chain :=
  readAt_of_admits hwf (h.mono (by omega))

/-- The effect of the two variants on one chain, when the write that gets lost is
redundant. -/
theorem readAt_writeChain_congr {c c' : VersionChain} (hwf : WellFormed c) (hwf' : WellFormed c')
    (hreads : ∀ snapshot, readAt c snapshot = readAt c' snapshot)
    (hadmits : Admits c lsn ↔ Admits c' lsn) {write write' : Option (Option Bytes)}
    (hwrite : write' = write ∨ write' = none ∧ ∀ v, write = some v → Admits c lsn → latest c = v)
    (snapshot : Nat) :
    readAt (writeChain lsn write c) snapshot = readAt (writeChain lsn write' c') snapshot := by
  rcases Nat.lt_or_ge snapshot lsn with hlt | hle
  · rw [readAt_writeChain_of_lt hwf _ hlt, readAt_writeChain_of_lt hwf' _ hlt]
    exact hreads snapshot
  · cases hw : write with
    | none =>
      have hnone : write' = none := by
        rcases hwrite with h | h
        · rw [h, hw]
        · exact h.1
      rw [hnone]
      exact hreads snapshot
    | some v =>
      by_cases ha : Admits c lsn
      · have hread : readAt (writeChain lsn (some v) c) snapshot = v :=
          readAt_replayWrite_of_le hwf ha v hle
        rw [hread]
        rcases hwrite with h | ⟨h, hlatest⟩
        · rw [h, hw]
          exact (readAt_replayWrite_of_le hwf' (hadmits.mp ha) v hle).symm
        · rw [h]
          show v = readAt c' snapshot
          rw [← hreads, readAt_eq_latest_of_le hwf ha hle, hlatest v hw ha]
      · -- neither chain takes the write
        have hkeep : writeChain lsn (some v) c = c := replayWrite_of_not_admits ha v
        have hkeep' : writeChain lsn write' c' = c' := by
          cases write' with
          | none => rfl
          | some v' => exact replayWrite_of_not_admits (fun h => ha (hadmits.mpr h)) v'
        rw [hkeep, hkeep']
        exact hreads snapshot

/-- Variants of a bundle leave the executors aligned, and with the same reads if what gets
lost is redundant. -/
theorem Aligned.step (h : Aligned s s') (hv : b.Variant b') (hb : applyBundle t s b = .ok s₁)
    (hb' : applyBundle t s' b' = .ok s₁') :
    Aligned s₁ s₁' ∧ (SameReads s s' → Redundant s b → SameReads s₁ s₁') := by
  rcases applyBundle_cases hb with ⟨hskip, rfl⟩ | ⟨hskip, ds, _, hds, _, rfl⟩
  · rw [applyBundle_of_skips ((h.skipsBundle hv).trans hskip)] at hb'
    cases hb'
    exact ⟨h, fun hreads _ => hreads⟩
  · have hskip' := (h.skipsBundle hv).trans hskip
    rcases applyBundle_cases hb' with ⟨hs, -⟩ | ⟨-, _, _, hds', _, rfl⟩
    · rw [hskip'] at hs
      cases hs
    have hlt := lt_of_not_skipsBundle hskip
    refine ⟨{ h with applied := hv.commitLsn, wellFormed := ?_, wellFormed' := ?_, admits := ?_ },
      fun hreads hred k snapshot => ?_⟩
    · intro k
      simp only [replayWrites_apply]
      exact wellFormed_writeChain (h.wellFormed k) _
    · intro k
      simp only [replayWrites_apply]
      exact wellFormed_writeChain (h.wellFormed' k) _
    · intro k lsn hlsn
      simp only [replayWrites_apply, hv.commitLsn] at hlsn ⊢
      rw [admits_writeChain_iff hlsn, admits_writeChain_iff hlsn]
      exact h.admits k lsn (hlt.trans hlsn)
    · simp only [replayWrites_apply, hv.commitLsn, firstWrite_append]
      refine readAt_writeChain_congr (h.wellFormed k) (h.wellFormed' k) (hreads k)
        (h.admits k _ hlt) ?_ snapshot
      have hexp : firstWrite b'.explicitWrites k = firstWrite b.explicitWrites k :=
        hv.explicitWrite k
      rw [hexp]
      rcases hv.deltaWrites hds with hd | hd
      · -- the operations are still there
        rw [hd] at hds'
        cases hds'
        exact .inl rfl
      · rw [hd] at hds'
        cases hds'
        cases he : firstWrite b.explicitWrites k with
        | some => exact .inl rfl
        | none => exact .inr ⟨rfl, fun v hv' ha => hred hskip ds k v hds he hv' ha⟩

/-! ## Lists of bundles -/

variable (t) in
def applyAll (s : ReplayExecutor τ) (bs : List DecodedCommitBundle) :
    Except ReplayError (ReplayExecutor τ) := bs.foldlM (applyBundle t) s

theorem applyAll_cons (b : DecodedCommitBundle) (bs : List DecodedCommitBundle) :
    applyAll t s (b :: bs) = applyBundle t s b >>= fun s => applyAll t s bs := by
  rw [applyAll, foldlM_cons]
  rfl

variable {bs : List DecodedCommitBundle} {f : ReplayExecutor τ}

theorem applyAll_cons_ok (h : applyAll t s (b :: bs) = .ok f) :
    ∃ s₁, applyBundle t s b = .ok s₁ ∧ applyAll t s₁ bs = .ok f := by
  rw [applyAll_cons] at h
  exact bind_eq_ok.mp h

theorem applyAll_cons_of_ok (h : applyBundle t s b = .ok s₁) :
    applyAll t s (b :: bs) = applyAll t s₁ bs := by
  rw [applyAll_cons, h]
  rfl

variable (t) in
/-- Every bundle is redundant where the replay of the list reaches it. -/
def RedundantAll : ReplayExecutor τ → List DecodedCommitBundle → Prop
  | _, [] => True
  | s, b :: rest =>
    Redundant s b ∧ ∀ s₁, applyBundle t s b = .ok s₁ → RedundantAll s₁ rest

/-- Replays of variants that get through end aligned, and with the same reads if what gets
lost is redundant. -/
theorem applyAll_variants {bs' : List DecodedCommitBundle}
    (hv : Forall₂ DecodedCommitBundle.Variant bs bs') (h : Aligned s s')
    (hf : applyAll t s bs = .ok f) (hf' : applyAll t s' bs' = .ok f') : Aligned f f' ∧
      (SameReads s s' → RedundantAll t s bs → SameReads f f') := by
  induction hv generalizing s s' with
  | nil =>
    cases hf
    cases hf'
    exact ⟨h, fun hreads _ => hreads⟩
  | cons hb _ ih =>
    obtain ⟨s1, hs1, hf⟩ := applyAll_cons_ok hf
    obtain ⟨_, hs1', hf'⟩ := applyAll_cons_ok hf'
    obtain ⟨hal1, hsame1⟩ := h.step hb hs1 hs1'
    obtain ⟨hal, hsame⟩ := ih hal1 hf hf'
    exact ⟨hal, fun hreads hred => hsame (hsame1 hreads hred.1) (hred.2 s1 hs1)⟩

section
variable (hwf : ∀ k, WellFormed (s.versions k))
include hwf

theorem wellFormed_applyBundle
    (h : applyBundle t s b = .ok s₁) (k : VersionKey) : WellFormed (s₁.versions k) := by
  rcases applyBundle_cases h with ⟨-, rfl⟩ | ⟨-, _, _, -, -, rfl⟩
  · exact hwf k
  · simp only [replayWrites_apply]
    exact wellFormed_writeChain (hwf k) _

theorem readAt_applyBundle_of_lt (h : applyBundle t s b = .ok s₁) (hlt : snapshot < b.commitLsn)
    (k : VersionKey) : readAt (s₁.versions k) snapshot = readAt (s.versions k) snapshot := by
  rcases applyBundle_cases h with ⟨-, rfl⟩ | ⟨-, _, _, -, -, rfl⟩
  · rfl
  · simp only [replayWrites_apply]
    exact readAt_writeChain_of_lt (hwf k) _ hlt

/-- Bundles above a snapshot do not change reads at it. -/
theorem readAt_applyAll_of_lt (h : applyAll t s bs = .ok f)
    (hlt : ∀ b ∈ bs, snapshot < b.commitLsn) (k : VersionKey) :
    readAt (f.versions k) snapshot = readAt (s.versions k) snapshot := by
  induction bs generalizing s with
  | nil =>
    cases h
    rfl
  | cons b _ ih =>
    obtain ⟨_, hs1, h⟩ := applyAll_cons_ok h
    rw [ih (wellFormed_applyBundle hwf hs1) h fun x hx => hlt x (mem_cons_of_mem _ hx)]
    exact readAt_applyBundle_of_lt hwf hs1 (hlt b mem_cons_self) k

end

/-- If the replay of the re-encoded bundles reads the same, then what each bundle
lost was redundant: reads at its commit LSN and just below it show the values. -/
theorem redundant_of_sameReads (hlt : ∀ x ∈ bs, b.commitLsn < x.commitLsn) (h : Aligned s s')
    (hf : applyAll t s (b :: bs) = .ok f)
    (hf' : applyAll t s' (b.reencoded :: bs.map reencoded) = .ok f')
    (hreads : SameReads f f') : Redundant s b := by
  intro hskip ds k v hds hexp hfirst ha
  obtain ⟨s1, hs1, hrest⟩ := applyAll_cons_ok hf
  obtain ⟨s1', hs1', hrest'⟩ := applyAll_cons_ok hf'
  have hv : b.Variant b.reencoded := .inr rfl
  have happlied := lt_of_not_skipsBundle hskip
  have ha' := (h.admits k _ happlied).mp ha
  have hwf1 := wellFormed_applyBundle h.wellFormed hs1
  have hwf1' := wellFormed_applyBundle h.wellFormed' hs1'
  have hlt' : ∀ x ∈ bs.map reencoded, b.commitLsn < x.commitLsn := forall_mem_map.mpr hlt
  -- the chain of `k` after the bundle, in the two replays
  have hchain : s1.versions k = replayWrite b.commitLsn v (s.versions k) := by
    rcases applyBundle_cases hs1 with ⟨hs, -⟩ | ⟨-, ds2, target, hds2, -, rfl⟩
    · rw [hskip] at hs
      cases hs
    · rw [hds] at hds2
      cases hds2
      have hnone : firstWrite b.explicitWrites k = none := hexp
      simp only [replayWrites_apply, firstWrite_append, hnone, none_or, hfirst]
      rfl
  have hchain' : s1'.versions k = s'.versions k := by
    rcases applyBundle_cases hs1' with ⟨-, rfl⟩ | ⟨-, ds2, target, hds2, -, rfl⟩
    · rfl
    · cases hds2
      have hnone : firstWrite b.reencoded.explicitWrites k = none :=
        (hv.explicitWrite k).trans hexp
      simp only [replayWrites_apply, firstWrite_append, hnone, none_or]
      rfl
  have hbelow : b.commitLsn - 1 < b.commitLsn := by omega
  have hpred : b.commitLsn - 1 + 1 = b.commitLsn := by omega
  calc latest (s.versions k)
      = readAt (s.versions k) (b.commitLsn - 1) :=
        (readAt_of_admits (h.wellFormed k) (hpred ▸ ha)).symm
    _ = readAt (s1.versions k) (b.commitLsn - 1) :=
        (readAt_applyBundle_of_lt h.wellFormed hs1 hbelow k).symm
    _ = readAt (f.versions k) (b.commitLsn - 1) :=
        (readAt_applyAll_of_lt hwf1 hrest (fun x hx => hbelow.trans (hlt x hx)) k).symm
    _ = readAt (f'.versions k) (b.commitLsn - 1) := hreads k _
    _ = readAt (s1'.versions k) (b.commitLsn - 1) :=
        readAt_applyAll_of_lt hwf1' hrest' (fun x hx => hbelow.trans (hlt' x hx)) k
    _ = latest (s'.versions k) := by
        rw [hchain']
        exact readAt_of_admits (h.wellFormed' k) (hpred ▸ ha')
    _ = readAt (s1'.versions k) b.commitLsn := by
        rw [hchain']
        exact (readAt_eq_latest_of_le (h.wellFormed' k) ha' (Nat.le_refl _)).symm
    _ = readAt (f'.versions k) b.commitLsn :=
        (readAt_applyAll_of_lt hwf1' hrest' hlt' k).symm
    _ = readAt (f.versions k) b.commitLsn := (hreads k _).symm
    _ = readAt (s1.versions k) b.commitLsn := readAt_applyAll_of_lt hwf1 hrest hlt k
    _ = v := by
        rw [hchain]
        exact readAt_replayWrite_of_le (h.wellFormed k) ha v (Nat.le_refl _)

theorem redundantAll_of_sameReads (hsorted : bs.Pairwise fun a b => a.commitLsn < b.commitLsn)
    (h : Aligned s s') (hf : applyAll t s bs = .ok f)
    (hf' : applyAll t s' (bs.map reencoded) = .ok f')
    (hreads : SameReads f f') : RedundantAll t s bs := by
  induction bs generalizing s s' with
  | nil => trivial
  | cons _ _ ih =>
    obtain ⟨hlt, hrest⟩ := pairwise_cons.mp hsorted
    refine ⟨redundant_of_sameReads hlt h hf hf' hreads, fun s1 hs1 => ?_⟩
    obtain ⟨_, hs1', hf'⟩ := applyAll_cons_ok hf'
    rw [applyAll_cons_of_ok hs1] at hf
    exact ih hrest (h.step (.inr rfl) hs1 hs1').1 hf hf'

end ArcGraph.Wal
