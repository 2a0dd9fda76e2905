import ArcGraph.Mvcc.Order

/-!
# The chains and the commits that wrote them

Every entry of a chain belongs to a commit that still has its versions placed,
and every placed write is found in its chain, or lies below a published entry
once garbage collection has run. The version of a commit in flight is the last
of its chain, so that rollback finds it there.
-/

namespace ArcGraph.Mvcc
open VersionChain Function List Prod

namespace Commit

def primary (c : Commit) : List (VersionKey × Option Bytes) :=
  c.values.entries.map fun w => ((c.tenant, w.1), w.2)

def sidechannelEntries (ws : List SideChannelWrite) : List (VersionKey × Option Bytes) :=
  ws.map fun w => (w.versionKey, w.value)

def placedWrites (c : Commit) : Phase → List (VersionKey × Option Bytes)
  | .applying applied _ => c.primary ++ sidechannelEntries applied
  | .published | .advanced none | .returned none => c.primary ++ sidechannelEntries c.sidechannel
  | .rolledBack _ | .advanced (some _) | .returned (some _) => []
  | _ => c.primary

theorem mem_primary {c : Commit} {k : VersionKey} {v : Option Bytes} :
    (k, v) ∈ c.primary ↔ ∃ key, k = (c.tenant, key) ∧ (key, v) ∈ c.values.entries := by
  simp only [primary, mem_map, Prod.mk.injEq]
  constructor
  · rintro ⟨⟨key, _⟩, hm, rfl, rfl⟩
    exact ⟨key, rfl, hm⟩
  · rintro ⟨key, rfl, hm⟩
    exact ⟨(key, v), hm, rfl, rfl⟩

end Commit

def Phase.inFlight (phase : Phase) : Bool := !phase.committed && !phase.failed

theorem Phase.pending_of_inFlight {phase : Phase} (h : phase.inFlight = true) :
    phase.handedOver = false ∧ phase.committed = false := by
  cases phase with
  | advanced err | returned err => cases err <;> simp [inFlight, committed, failed] at h
  | published => simp [inFlight, committed] at h
  | rolledBack => simp [inFlight, failed] at h
  | _ => exact ⟨rfl, rfl⟩

/-- `lost` says that garbage collection may have reclaimed published versions. -/
structure Chained (lost : Prop) (s : State) : Prop where
  wellFormed : ∀ k, WellFormed (s.versions k)
  keys : ∀ t c phase, s.calls t = .commit c phase →
    c.values.entries.map Prod.fst = c.writes.entries.map Prod.fst
  split : ∀ t c applied todo, s.calls t = .commit c (.applying applied todo) →
    c.sidechannel = applied ++ todo
  sound : ∀ k e, e ∈ entries (s.versions k) → ∃ t c phase, s.calls t = .commit c phase ∧
    c.commitLsn = e.1 ∧ (k, e.2) ∈ c.placedWrites phase
  covered : ∀ t c phase k v, s.calls t = .commit c phase → (k, v) ∈ c.placedWrites phase →
    ∃ e ∈ entries (s.versions k), c.commitLsn ≤ e.1 ∧
      (e = (c.commitLsn, v) ∨ (lost ∧ e.1 ≤ s.visible))
  top : ∀ t c phase k v, s.calls t = .commit c phase → phase.inFlight = true →
    (k, v) ∈ c.primary → ∀ e ∈ entries (s.versions k), e.1 ≤ c.commitLsn

variable {lost left : Prop} {s s' : State}

theorem chained_new : Chained lost .new where
  wellFormed _ := wellFormed_nil
  keys _ _ _ h := by simp [State.new] at h
  split _ _ _ _ h := by simp [State.new] at h
  sound _ _ h := by simp [State.new] at h
  covered _ _ _ _ _ h := by simp [State.new] at h
  top _ _ _ _ _ h := by simp [State.new] at h

variable {c c' : Commit} {t : CallId} {k : VersionKey} {e : Entry} {vs : Versions}
  {phase phase' : Phase} {chain : VersionChain} {v : Option Bytes} {key : MvccKey} {lsn : Nat}
  {call : Call} {values : WriteSet} {deltas : List Wal.DeltaOp} {w : SideChannelWrite}
  {err : CommitError}

open Phase

theorem Commit.primary_subset (h : phase.failed = false)
    {x : VersionKey × Option Bytes} (hx : x ∈ c.primary) : x ∈ c.placedWrites phase := by
  cases phase with
  | advanced err | returned err => cases err <;> simp_all [placedWrites, failed]
  | rolledBack => simp [failed] at h
  | _ => simp [placedWrites, hx]

theorem Phase.failed_of_inFlight (h : phase.inFlight = true) : phase.failed = false := by
  simp only [inFlight, Bool.and_eq_true, Bool.not_eq_true'] at h
  exact h.2

theorem Chained.mem_of_inFlight (h : Chained lost s) (ho : Ordered s)
    (hc : s.calls t = .commit c phase) (hf : phase.inFlight = true)
    (hk : (k, v) ∈ c.placedWrites phase) : (c.commitLsn, v) ∈ entries (s.versions k) := by
  obtain ⟨_, he, _, heq | ⟨-, _⟩⟩ := h.covered t c phase k v hc hk
  · exact heq ▸ he
  · obtain ⟨hpend, hcom⟩ := pending_of_inFlight hf
    have h1 := (ho.placed t c phase hc).unpublished hpend hcom
    have h2 := base_le_commitLsn c
    omega

theorem Chained.le_counter (h : Chained lost s) (ho : Ordered s) (he : e ∈ entries (s.versions k)) :
    e.1 ≤ s.counter := by
  obtain ⟨t, c, phase, hc, _, -⟩ := h.sound k e he
  have := (ho.placed t c phase hc).le_counter
  omega

theorem entry_le_last (h : WellFormed chain) {v : Version}
    (hv : chain.getLast? = some v) (he : e ∈ entries chain) : e.1 ≤ v.createdLsn := by
  obtain ⟨c, rfl⟩ := getLast?_eq_some_iff.mp hv
  have hs := h.sorted
  rw [entries_append] at he hs
  rcases mem_append.mp he with he | he
  · exact Nat.le_of_lt ((pairwise_append.mp hs).2.2 e he (v.createdLsn, v.value) (by simp))
  · simp only [entries_cons, entries_nil, mem_singleton] at he
    rw [he]

theorem getLast?_of_mem_entries (he : e ∈ entries chain) : ∃ v, chain.getLast? = some v := by
  obtain ⟨v, hv, -⟩ := mem_entries.mp he
  cases hl : chain.getLast? with
  | none => simp [getLast?_eq_none_iff.mp hl] at hv
  | some v => exact ⟨v, rfl⟩

/-- Validation puts every entry of a written chain at or below the snapshot. -/
theorem Chained.le_of_validates (h : Chained lost s) {tenant : TenantId} {snapshot : Nat}
    {writes : WriteSet} (hv : s.versions.validates tenant snapshot writes = true)
    {val : Option Bytes} (hw : (key, val) ∈ writes.entries)
    (he : e ∈ entries (s.versions (tenant, key))) : e.1 ≤ snapshot := by
  obtain ⟨v, hlast⟩ := getLast?_of_mem_entries he
  have hle := entry_le_last (h.wellFormed _) hlast he
  have hall := all_eq_true.mp hv _ hw
  simp only [hlast, Option.all_some, decide_eq_true_eq] at hall
  omega

theorem entries_eq_append (h : WellFormed chain)
    (hm : (lsn, v) ∈ entries chain) (hmax : ∀ e ∈ entries chain, e.1 ≤ lsn) :
    ∃ es, entries chain = es ++ [(lsn, v)] ∧ ∀ e ∈ es, e.1 < lsn := by
  obtain ⟨l1, l2, hl⟩ := append_of_mem hm
  have hs := h.sorted
  rw [hl] at hs hmax
  obtain ⟨-, hs2, hs12⟩ := pairwise_append.mp hs
  have hnil : l2 = [] := by
    cases l2 with
    | nil => rfl
    | cons f =>
      have h1 := (pairwise_cons.mp hs2).1 f mem_cons_self
      have h2 := hmax f (by simp)
      omega
  subst hnil
  exact ⟨l1, hl, fun e he => hs12 e he _ mem_cons_self⟩

/-! ## Preservation -/

/-- What `Chained` asks of one commit. -/
structure Kept (lost : Prop) (s : State) (c : Commit) (phase : Phase) : Prop where
  keys : c.values.entries.map Prod.fst = c.writes.entries.map Prod.fst
  split : ∀ applied todo, phase = .applying applied todo → c.sidechannel = applied ++ todo
  covered : ∀ k v, (k, v) ∈ c.placedWrites phase → ∃ e ∈ entries (s.versions k),
    c.commitLsn ≤ e.1 ∧ (e = (c.commitLsn, v) ∨ (lost ∧ e.1 ≤ s.visible))
  top : phase.inFlight = true → ∀ k v, (k, v) ∈ c.primary →
    ∀ e ∈ entries (s.versions k), e.1 ≤ c.commitLsn

theorem Chained.kept (h : Chained lost s) (hc : s.calls t = .commit c phase) :
    Kept lost s c phase where
  keys := h.keys t c phase hc
  split applied todo heq := h.split t c applied todo (heq ▸ hc)
  covered k v := h.covered t c phase k v hc
  top hf k v := h.top t c phase k v hc hf

theorem Kept.of_chains (h : Kept lost s c phase) (hvis : s.visible ≤ s'.visible)
    (hkeep : ∀ k, ∀ e ∈ entries (s.versions k), e.1 = c.commitLsn ∨ e.1 ≤ s.visible →
      e ∈ entries (s'.versions k)) (htop : phase.inFlight = true → ∀ k v, (k, v) ∈ c.primary →
      ∀ e ∈ entries (s'.versions k), e.1 ≤ c.commitLsn) : Kept lost s' c phase := by
  refine ⟨h.keys, h.split, fun k v hk => ?_, htop⟩
  obtain ⟨e, he, hle, rfl | ⟨hl, hev⟩⟩ := h.covered k v hk
  · exact ⟨_, hkeep k _ he (.inl rfl), hle, .inl rfl⟩
  · exact ⟨e, hkeep k e he (.inr hev), hle, .inr ⟨hl, hev.trans hvis⟩⟩

/-- One call goes on as the commit `c'`: what its chains gain, and what it had
placed before, is placed by `c'`. -/
theorem Chained.of_update (h : Chained lost s)
    (hcalls : s'.calls = update s.calls t (.commit c' phase'))
    (hwf : ∀ k, WellFormed (s'.versions k)) (hplaced : ∀ k, ∀ e ∈ entries (s'.versions k),
      (e ∈ entries (s.versions k) → ∃ d ph, s.calls t = .commit d ph ∧ d.commitLsn = e.1 ∧
        (k, e.2) ∈ d.placedWrites ph) → c'.commitLsn = e.1 ∧ (k, e.2) ∈ c'.placedWrites phase')
    (hown : Kept lost s' c' phase')
    (hothers : ∀ t' d ph, t' ≠ t → s.calls t' = .commit d ph → Kept lost s d ph →
      Kept lost s' d ph) : Chained lost s' := by
  have hkept : ∀ t' d ph, s'.calls t' = .commit d ph → Kept lost s' d ph := by
    intro t' d ph hd
    rw [hcalls] at hd
    rcases commit_of_update hd with ⟨rfl, heq⟩ | ⟨hne, hd⟩
    · cases heq
      exact hown
    · exact hothers t' d ph hne hd (h.kept hd)
  refine ⟨hwf, fun t' d ph hd => (hkept t' d ph hd).keys,
    fun t' d applied todo hd => (hkept t' d _ hd).split applied todo rfl, fun k e he => ?_,
    fun t' d ph k v hd => (hkept t' d ph hd).covered k v,
    fun t' d ph k v hd hf => (hkept t' d ph hd).top hf k v⟩
  by_cases hx : e ∈ entries (s.versions k) → ∃ d ph, s.calls t = .commit d ph ∧
      d.commitLsn = e.1 ∧ (k, e.2) ∈ d.placedWrites ph
  · exact ⟨t, c', phase', by simp [hcalls], hplaced k e he hx⟩
  · obtain ⟨hold, hnot⟩ := Classical.not_imp.mp hx
    obtain ⟨t', d, ph, hd, hk⟩ := h.sound k e hold
    have ht : t' ≠ t := by
      rintro rfl
      exact hnot ⟨d, ph, hd, hk⟩
    exact ⟨t', d, ph, by simpa [hcalls, ht] using hd, hk⟩

theorem Chained.of_replace (h : Chained lost s) (hc : s.calls t = .commit c phase)
    (hcalls : s'.calls = update s.calls t (.commit c' phase'))
    (hversions : s'.versions = s.versions) (hvis : s.visible ≤ s'.visible)
    (hlsn : c'.commitLsn = c.commitLsn) (hprimary : c'.primary = c.primary)
    (hkeys : c'.values.entries.map fst = c'.writes.entries.map fst)
    (hsplit : ∀ applied todo, phase' = .applying applied todo → c'.sidechannel = applied ++ todo)
    (hplaced : c'.placedWrites phase' = c.placedWrites phase)
    (hflight : phase'.inFlight = true → phase.inFlight = true) : Chained lost s' := by
  have hkept : ∀ d ph, Kept lost s d ph → Kept lost s' d ph := fun d ph hd =>
    hd.of_chains hvis (fun k e he _ => hversions ▸ he) (hversions ▸ hd.top)
  have hown := hkept c phase (h.kept hc)
  refine h.of_update hcalls (hversions ▸ h.wellFormed) (fun k e he hx => ?_)
    ⟨hkeys, hsplit, ?_, fun hf => ?_⟩ fun _ d ph _ _ => hkept d ph
  · obtain ⟨d, ph, hd, hdl, hk⟩ := hx (hversions ▸ he)
    rw [hc] at hd
    cases hd
    exact ⟨hlsn.trans hdl, hplaced ▸ hk⟩
  · rw [hplaced, hlsn]
    exact hown.covered
  · rw [hprimary, hlsn]
    exact hown.top (hflight hf)

theorem commit_iff_of_quiet (hold : ¬ (s.calls t).IsCommit) (hnew : ¬ call.IsCommit)
    (hcalls : s'.calls = update s.calls t call) (t' : CallId) (c : Commit) (phase : Phase) :
    s'.calls t' = .commit c phase ↔ s.calls t' = .commit c phase := by
  rw [hcalls]
  by_cases ht : t' = t
  · subst ht
    simp only [update_self]
    constructor
    · rintro rfl
      simp [Call.IsCommit] at hnew
    · intro hc
      simp [hc, Call.IsCommit] at hold
  · simp [ht]

theorem Chained.of_quiet (h : Chained lost s) (hold : ¬ (s.calls t).IsCommit)
    (hnew : ¬ call.IsCommit) (hcalls : s'.calls = update s.calls t call) (hframe : Frame s s') :
    Chained lost s' := by
  have hsame := commit_iff_of_quiet hold hnew hcalls
  constructor
  · rw [hframe.versions]
    exact h.wellFormed
  · simpa only [hsame] using h.keys
  · simpa only [hsame] using h.split
  · simpa only [hsame, hframe.versions] using h.sound
  · simpa only [hsame, hframe.versions, hframe.visible] using h.covered
  · simpa only [hsame, hframe.versions] using h.top

open Commit Versions

theorem Move.chained (h : Chained lost s)
    (hc : s.calls t = .commit c phase) (hm : Move left s c phase c' phase')
    (hcalls : s'.calls = update s.calls t (.commit c' phase')) (hframe : Frame s s') :
    Chained lost s' := by
  have hkeys := h.keys t c phase hc
  have hvis : s.visible ≤ s'.visible := hframe.visible.ge
  cases hm with
  | apply =>
    exact h.of_replace hc hcalls hframe.versions hvis rfl rfl hkeys
      (fun applied todo heq => by cases heq; rfl)
      (by simp [placedWrites, sidechannelEntries]) fun _ => rfl
  | finish err =>
    refine h.of_replace hc hcalls hframe.versions hvis rfl rfl hkeys (by simp) ?_ ?_
    · cases err <;> rfl
    · cases err <;> simp [inFlight, committed, failed]
  | stage | builderError | abandon | append | unwind =>
    exact h.of_replace hc hcalls hframe.versions hvis rfl rfl hkeys (by simp) rfl fun _ => rfl

theorem applyWrites_cases (vs : Versions) (f : Option Bytes → VersionChain → VersionChain)
    (tenant : TenantId) (writes : WriteSet) (k : VersionKey) :
    (∃ key val, k = (tenant, key) ∧ (key, val) ∈ writes.entries ∧
        applyWrites f tenant writes.entries vs k = f val (vs k)) ∨
      ((∀ key val, (key, val) ∈ writes.entries → k ≠ (tenant, key)) ∧
        applyWrites f tenant writes.entries vs k = vs k) := by
  by_cases hk : ∃ key val, k = (tenant, key) ∧ (key, val) ∈ writes.entries
  · obtain ⟨key, val, rfl, hm⟩ := hk
    exact .inl ⟨key, val, rfl, hm, applyWrites_of_mem writes.nodup hm⟩
  · have hnot : ∀ key val, (key, val) ∈ writes.entries → k ≠ (tenant, key) :=
      fun key val hm heq => hk ⟨key, val, heq, hm⟩
    exact .inr ⟨hnot, applyWrites_of_notMem hnot⟩

theorem mem_entries_installWrites (hvalues : c.values = c.writes) :
    e ∈ entries (vs.installWrites c.tenant c.commitLsn c.writes k) ↔
      e ∈ entries (vs k) ∨ (e.1 = c.commitLsn ∧ (k, e.2) ∈ c.primary) := by
  rw [mem_primary, hvalues, installWrites]
  rcases applyWrites_cases vs (install c.commitLsn) c.tenant c.writes k with
    ⟨key, val, rfl, hm, heq⟩ | ⟨hnot, heq⟩
  · have hval : ∀ v, (key, v) ∈ c.writes.entries ↔ v = val := fun v =>
      ⟨fun hv => congrArg Prod.snd (inj_on_of_nodup_map c.writes.nodup hv hm rfl),
        fun hv => hv ▸ hm⟩
    simp [heq, Prod.ext_iff, hval]
  · rw [heq, or_iff_left]
    rintro ⟨-, key, hk, hm⟩
    exact hnot key e.2 hm hk

theorem Chained.of_opened (h : Chained lost s) (ho : Ordered s) (hold : ¬ (s.calls t).IsCommit)
    (hphase : phase = .installed ∨ phase = .staged ∨ ∃ e, phase = .abandoned e ∧ left)
    (hbase : c.range.base = s.counter + 1) (hvalues : c.values = c.writes)
    (hsnapshot : c.snapshot ≤ s.visible)
    (hvalid : s.versions.validates c.tenant c.snapshot c.writes = true)
    (hcalls : s'.calls = update s.calls t (.commit c phase)) (hvisible : s'.visible = s.visible)
    (hversions : s'.versions = s.versions.installWrites c.tenant c.commitLsn c.writes) :
    Chained lost s' := by
  have hbl := base_le_commitLsn c
  have hplaced : c.placedWrites phase = c.primary := by
    rcases hphase with rfl | rfl | ⟨e, rfl, -⟩ <;> rfl
  have hmem : ∀ k e, e ∈ entries (s'.versions k) ↔ e ∈ entries (s.versions k) ∨
      (e.1 = c.commitLsn ∧ (k, e.2) ∈ c.primary) := by
    intro k e
    rw [hversions]
    exact mem_entries_installWrites hvalues
  refine h.of_update hcalls (fun k => ?_) (fun k e he hx => ?_)
    ⟨by rw [hvalues], ?_, fun k v hk => ?_, fun hf k v hk e he => ?_⟩ fun t' d ph hne hd hdk =>
      hdk.of_chains hvisible.ge (fun k e he _ => (hmem k e).mpr (.inl he))
        fun hf k v hk e he => ?_
  · rw [hversions, installWrites]
    rcases applyWrites_cases s.versions (install c.commitLsn) c.tenant c.writes k with
      ⟨key, _, -, -, heq⟩ | ⟨-, heq⟩ <;> rw [heq]
    · refine (h.wellFormed k).install fun e he => ?_
      have := h.le_counter ho he
      omega
    · exact h.wellFormed k
  · rcases (hmem k e).mp he with he | ⟨hl, hk⟩
    · obtain ⟨d, ph, hd, -⟩ := hx he
      simp [hd, Call.IsCommit] at hold
    · exact ⟨hl.symm, hplaced ▸ hk⟩
  · rintro applied todo rfl
    simp at hphase
  · exact ⟨(c.commitLsn, v), (hmem _ _).mpr (.inr ⟨rfl, hplaced ▸ hk⟩), le_rfl, .inl rfl⟩
  · rcases (hmem k e).mp he with he | ⟨hl, -⟩
    · have := h.le_counter ho he
      omega
    · exact hl.le
  · rcases (hmem k e).mp he with he | ⟨-, hk'⟩
    · exact hdk.top hf k v hk e he
    · -- the validated chain ends at or below `visible`, an in-flight version above it
      obtain ⟨key, rfl, hm⟩ := mem_primary.mp hk'
      have hin := h.mem_of_inFlight ho hd hf
        (primary_subset (failed_of_inFlight hf) hk)
      have h1 := h.le_of_validates hvalid (hvalues ▸ hm) hin
      obtain ⟨hpend, hcom⟩ := pending_of_inFlight hf
      have h2 := (ho.placed t' d ph hd).unpublished hpend hcom
      have h3 := base_le_commitLsn d
      omega

theorem Chained.holds (h : Chained lost s) (ho : Ordered s)
    (hc : s.calls t = .commit c .installed) :
    Versions.Holds c.tenant c.commitLsn c.values s.versions := by
  refine ⟨h.wellFormed, fun k v => ?_⟩
  rw [← mem_primary]
  constructor
  · intro he
    obtain ⟨_, d, _, hd, hdl, hk⟩ := h.sound k _ he
    have hle := base_le_commitLsn c
    have hle' := base_le_commitLsn d
    simp only at hdl hk
    obtain rfl := ho.call_unique hd hc hle' le_rfl (by omega) (by omega)
    rw [hc] at hd
    cases hd
    exact hk
  · exact fun hk => h.mem_of_inFlight ho hc rfl hk

theorem exists_value_of_keys {ws ws' : WriteSet}
    (h : ws.entries.map fst = ws'.entries.map fst) (hm : (key, v) ∈ ws.entries) :
    ∃ v', (key, v') ∈ ws'.entries := by
  have hin : key ∈ ws.entries.map fst := mem_map.mpr ⟨_, hm, rfl⟩
  rw [h] at hin
  obtain ⟨⟨_, v'⟩, hm', rfl⟩ := mem_map.mp hin
  exact ⟨v', hm'⟩

theorem Chained.normalized_back (h : Chained lost s) (ho : Ordered s)
    (hc : s.calls t = .commit c .installed)
    (hn : normalize c.tenant c.commitLsn deltas (c.values, s.versions) = .ok (values, vs))
    (he : e ∈ entries (vs k)) : ∃ e0 ∈ entries (s.versions k), e0.1 = e.1 := by
  obtain ⟨hholds, hagree, hkeys⟩ := (h.holds ho hc).normalize hn
  by_cases hl : e.1 = c.commitLsn
  · obtain ⟨key, rfl, hm⟩ := (hholds.mem_iff k e.2).mp (hl ▸ he)
    obtain ⟨v0, hm0⟩ := exists_value_of_keys hkeys hm
    exact ⟨_, ((h.holds ho hc).mem_iff _ v0).mpr ⟨key, rfl, hm0⟩, hl.symm⟩
  · exact ⟨e, (hagree k e hl).mp he, rfl⟩

/-- The entries that keep another commit covered carry another LSN. -/
theorem Ordered.ne_commitLsn (ho : Ordered s) {d : Commit} {t' : CallId} {ph : Phase}
    (hc : s.calls t = .commit c phase) (hpend : phase.handedOver = false)
    (hcom : phase.committed = false) (hd : s.calls t' = .commit d ph) (hne : t' ≠ t)
    (h : e.1 = d.commitLsn ∨ e.1 ≤ s.visible) : e.1 ≠ c.commitLsn := by
  have hunp := (ho.placed t c _ hc).unpublished hpend hcom
  have hbl := base_le_commitLsn c
  have hbl' := base_le_commitLsn d
  intro heq
  rcases h with h | h
  · exact hne (ho.call_unique hd hc hbl' le_rfl (by omega) (by omega))
  · omega

theorem Chained.of_normalized (h : Chained lost s) (ho : Ordered s)
    {sidechannel : List SideChannelWrite} (hc : s.calls t = .commit c .installed)
    (hn : normalize c.tenant c.commitLsn deltas (c.values, s.versions) = .ok (values, vs))
    (hcalls : s'.calls = update s.calls t
      (.commit { c with values := values, sidechannel := sidechannel } .staged))
    (hvisible : s'.visible = s.visible) (hversions : s'.versions = vs) : Chained lost s' := by
  obtain ⟨hholds, hagree, hkeys⟩ := (h.holds ho hc).normalize hn
  subst hversions
  have hown := h.kept hc
  refine h.of_update hcalls hholds.wellFormed (fun k e he hx => ?_)
    ⟨hkeys.trans hown.keys, by simp, fun k v hk => ?_, fun hf k v hk e he => ?_⟩
    fun t' d ph hne hd hdk => hdk.of_chains hvisible.ge
      (fun k e he hor => (hagree k e (ho.ne_commitLsn hc rfl rfl hd hne hor)).mpr he)
      fun hf k v hk e he => ?_
  · by_cases hl : e.1 = c.commitLsn
    · exact ⟨hl.symm, mem_primary.mpr ((hholds.mem_iff k e.2).mp (hl ▸ he))⟩
    · obtain ⟨d, ph, hd, hdl, -⟩ := hx ((hagree k e hl).mp he)
      rw [hc] at hd
      cases hd
      exact absurd hdl.symm hl
  · exact ⟨(c.commitLsn, v), (hholds.mem_iff k v).mpr (mem_primary.mp hk), le_rfl, .inl rfl⟩
  · obtain ⟨e0, he0, heq0⟩ := h.normalized_back ho hc hn he
    obtain ⟨key, rfl, hm⟩ := mem_primary.mp hk
    obtain ⟨v0, hm0⟩ := exists_value_of_keys hkeys hm
    rw [← heq0]
    exact hown.top rfl _ v0 (mem_primary.mpr ⟨key, rfl, hm0⟩) e0 he0
  · obtain ⟨e0, he0, heq0⟩ := h.normalized_back ho hc hn he
    rw [← heq0]
    exact hdk.top hf k v hk e0 he0

theorem mem_entries_sidechannel : e ∈ entries (vs.update w.versionKey (install lsn w.value) k) ↔
      e ∈ entries (vs k) ∨ (k = w.versionKey ∧ e = (lsn, w.value)) := by
  by_cases hk : k = w.versionKey
  · subst hk
    simp
  · simp [Versions.update_of_ne _ _ hk, hk]

variable (h : Chained lost s)
include h

namespace Chained

theorem of_sidechannel (ho : Ordered s) {applied rest : List SideChannelWrite}
    (hc : s.calls t = .commit c (.applying applied (w :: rest)))
    (hlast : ∀ v, (s.versions w.versionKey).getLast? = some v → v.createdLsn < c.commitLsn)
    (hcalls : s'.calls = update s.calls t (.commit c (.applying (applied ++ [w]) rest)))
    (hvisible : s'.visible = s.visible) (hversions : s'.versions =
      s.versions.update w.versionKey (install c.commitLsn w.value)) : Chained lost s' := by
  have hbelow : ∀ e ∈ entries (s.versions w.versionKey), e.1 < c.commitLsn := by
    intro e he
    obtain ⟨v, hv⟩ := getLast?_of_mem_entries he
    have h1 := entry_le_last (h.wellFormed _) hv he
    have h2 := hlast v hv
    omega
  have hmem : ∀ k e, e ∈ entries (s'.versions k) ↔ e ∈ entries (s.versions k) ∨
      (k = w.versionKey ∧ e = (c.commitLsn, w.value)) := by
    intro k e
    rw [hversions]
    exact mem_entries_sidechannel
  have hplaced : ∀ x, x ∈ c.placedWrites (.applying (applied ++ [w]) rest) ↔
      x ∈ c.placedWrites (.applying applied (w :: rest)) ∨ x = (w.versionKey, w.value) := by
    intro x
    simp [placedWrites, sidechannelEntries, or_assoc]
  have hown := h.kept hc
  have hold : ∀ k, ∀ e ∈ entries (s.versions k), e ∈ entries (s'.versions k) :=
    fun k e he => (hmem k e).mpr (.inl he)
  refine h.of_update hcalls (fun k => ?_) (fun k e he hx => ?_)
    ⟨hown.keys, ?_, fun k v hk => ?_, fun hf k v hk e he => ?_⟩
    fun t' d ph hne hd hdk => hdk.of_chains hvisible.ge (fun k e he _ => hold k e he)
      fun hf k v hk e he => ?_
  · rw [hversions]
    by_cases hk : k = w.versionKey
    · subst hk
      rw [Versions.update_self]
      exact (h.wellFormed _).install hbelow
    · rw [Versions.update_of_ne _ _ hk]
      exact h.wellFormed k
  · rcases (hmem k e).mp he with he | ⟨rfl, rfl⟩
    · obtain ⟨d, ph, hd, hdl, hk⟩ := hx he
      rw [hc] at hd
      cases hd
      exact ⟨hdl, (hplaced _).mpr (.inl hk)⟩
    · exact ⟨rfl, (hplaced _).mpr (.inr rfl)⟩
  · rintro done todo heq
    cases heq
    simpa using hown.split _ _ rfl
  · rcases (hplaced _).mp hk with hk | heq
    · obtain ⟨e, he, hle, _⟩ := hown.covered k v hk
      exact ⟨e, hold k e he, hle, by rwa [hvisible]⟩
    · cases heq
      exact ⟨(c.commitLsn, w.value), (hmem _ _).mpr (.inr ⟨rfl, rfl⟩), le_rfl, .inl rfl⟩
  · rcases (hmem k e).mp he with he | ⟨-, rfl⟩
    · exact hown.top rfl k v hk e he
    · exact le_rfl
  · rcases (hmem k e).mp he with he | ⟨rfl, rfl⟩
    · exact hdk.top hf k v hk e he
    · -- a chain with an in-flight version does not end below the commit in turn
      have hin := h.mem_of_inFlight ho hd hf
        (primary_subset (failed_of_inFlight hf) hk)
      have h1 := hbelow _ hin
      have h2 := ho.lt_of_turn hc hd hne rfl (pending_of_inFlight hf).1
      have h3 := base_le_commitLsn d
      simp only at h1 ⊢
      omega

theorem rolledBack_entries (ho : Ordered s)
    (hc : s.calls t = .commit c (.unwinding err)) (k : VersionKey) :
    WellFormed (s.versions.rollbackWrites c.tenant c.commitLsn c.writes k) ∧
      ∀ e, e ∈ entries (s.versions.rollbackWrites c.tenant c.commitLsn c.writes k) ↔
        e ∈ entries (s.versions k) ∧ e.1 ≠ c.commitLsn := by
  have hbl := base_le_commitLsn c
  by_cases hk : ∃ key v, k = (c.tenant, key) ∧ (key, v) ∈ c.writes.entries
  · obtain ⟨key, v, rfl, hm⟩ := hk
    obtain ⟨val, hm'⟩ := exists_value_of_keys (h.keys t c _ hc).symm hm
    have hp : ((c.tenant, key), val) ∈ c.primary := mem_primary.mpr ⟨key, rfl, hm'⟩
    obtain ⟨_, hes, hlt⟩ := entries_eq_append (h.wellFormed _) (h.mem_of_inFlight ho hc rfl hp)
      (h.top t c _ _ val hc rfl hp)
    obtain ⟨hwf, hent⟩ := (h.wellFormed (c.tenant, key)).rollback hes
    rw [rollbackWrites, applyWrites_of_mem c.writes.nodup hm]
    refine ⟨hwf, fun e => ?_⟩
    rw [hent, hes]
    constructor
    · intro he
      have := hlt e he
      exact ⟨mem_append_left _ he, by omega⟩
    · rintro ⟨he, hne⟩
      rcases mem_append.mp he with he | he
      · exact he
      · rw [mem_singleton.mp he] at hne
        exact absurd rfl hne
  · rw [rollbackWrites, applyWrites_of_notMem
      fun key v hm heq => hk ⟨key, v, heq, hm⟩]
    refine ⟨h.wellFormed k, fun e => ⟨fun he => ⟨he, fun hl => ?_⟩, And.left⟩⟩
    obtain ⟨_, d, _, hd, _, hdk⟩ := h.sound k e he
    have := base_le_commitLsn d
    obtain rfl := ho.call_unique hd hc this le_rfl (by omega) (by omega)
    rw [hc] at hd
    cases hd
    obtain ⟨key, rfl, hm⟩ := mem_primary.mp hdk
    obtain ⟨val, hm'⟩ := exists_value_of_keys (h.keys _ c _ hc) hm
    exact hk ⟨key, val, rfl, hm'⟩

theorem of_rolledBack (ho : Ordered s) (hc : s.calls t = .commit c (.unwinding err))
    (hcalls : s'.calls = update s.calls t (.commit c (.rolledBack err)))
    (hvisible : s'.visible = s.visible)
    (hversions : s'.versions = s.versions.rollbackWrites c.tenant c.commitLsn c.writes) :
    Chained lost s' := by
  have hchain := h.rolledBack_entries ho hc
  rw [← hversions] at hchain
  refine h.of_update hcalls (fun k => (hchain k).1) (fun k e he hx => ?_)
    ⟨(h.kept hc).keys, by simp, by simp [placedWrites], by simp [inFlight, failed]⟩
    fun t' d ph hne hd hdk => hdk.of_chains hvisible.ge
      (fun k e he hor => ((hchain k).2 e).mpr ⟨he, ho.ne_commitLsn hc rfl rfl hd hne hor⟩)
      fun hf k v hk e he => hdk.top hf k v hk e (((hchain k).2 e).mp he).1
  obtain ⟨he, hl⟩ := ((hchain k).2 e).mp he
  obtain ⟨d, ph, hd, hdl, -⟩ := hx he
  rw [hc] at hd
  cases hd
  exact absurd hdl.symm hl

theorem of_retained (hlost : lost) {key : VersionKey} {anchor : Nat}
    (hanchor : anchor ≤ s.visible) (hcalls : s'.calls = s.calls) (hvisible : s'.visible = s.visible)
    (hversions : s'.versions = s.versions.update key (retain anchor)) : Chained lost s' := by
  have hret := (h.wellFormed key).retain anchor
  have hsub : ∀ k e, e ∈ entries (s'.versions k) → e ∈ entries (s.versions k) := by
    intro k e he
    rw [hversions] at he
    by_cases hk : k = key
    · subst hk
      rw [Versions.update_self] at he
      exact hret.2.1 e he
    · rwa [Versions.update_of_ne _ _ hk] at he
  refine ⟨fun k => ?_, by rw [hcalls]; exact h.keys, by rw [hcalls]; exact h.split, ?_, ?_, ?_⟩
  · rw [hversions]
    by_cases hk : k = key
    · subst hk
      rw [Versions.update_self]
      exact hret.1
    · rw [Versions.update_of_ne _ _ hk]
      exact h.wellFormed k
  · intro k e he
    rw [hcalls]
    exact h.sound k e (hsub k e he)
  · intro t c phase k v hc hk
    rw [hcalls] at hc
    obtain ⟨e, he, hle, hor⟩ := h.covered t c phase k v hc hk
    rw [hversions, hvisible]
    by_cases hkey : k = key
    · subst hkey
      rw [Versions.update_self]
      rcases hret.2.2 e he with hkept | ⟨f, hf, hlt, hfa⟩
      · exact ⟨e, hkept, hle, hor⟩
      · exact ⟨f, hf, by omega, .inr ⟨hlost, by omega⟩⟩
    · rw [Versions.update_of_ne _ _ hkey]
      exact ⟨e, he, hle, hor⟩
  · intro t c phase k v hc hf hk e he
    rw [hcalls] at hc
    exact h.top t c phase k v hc hf hk e (hsub k e he)

theorem of_effect (ho : Ordered s) (he : Effect lost True left s s') : Chained lost s' := by
  have hmono := ho.visible_mono he
  cases he with
  | quiet _ _ hold hnew calls frame => exact h.of_quiet hold hnew calls frame
  | opened _ _ _ hold hphase hbase hvalues _ hsnapshot hvalid calls _ visible _ versions =>
      exact h.of_opened ho hold hphase hbase hvalues hsnapshot hvalid calls visible versions
  | moved _ _ _ _ _ call move calls frame => exact move.chained h call calls frame
  | normalized _ _ _ _ _ _ call hn calls _ visible _ versions =>
      exact h.of_normalized ho call hn calls visible versions
  | sidechannel _ _ _ _ _ call hlast calls _ visible _ versions =>
    exact h.of_sidechannel ho call (hlast trivial) calls visible versions
  | published t c applied call calls _ _ _ versions =>
    have hsplit := h.split t c applied [] call
    refine h.of_replace call calls versions hmono rfl rfl (h.keys t c _ call) (by simp) ?_
      (by simp [inFlight, committed])
    simp [placedWrites, hsplit]
  | rolledBack _ _ _ call calls _ visible _ versions =>
    exact h.of_rolledBack ho call calls visible versions
  | advanced t c _ _ call hphase calls _ _ _ versions =>
    refine h.of_replace call calls versions hmono rfl rfl (h.keys t c _ call) (by simp) ?_ ?_
    · rcases hphase with ⟨rfl, rfl⟩ | ⟨e, rfl, rfl⟩ <;> rfl
    · rcases hphase with ⟨rfl, rfl⟩ | ⟨e, rfl, rfl⟩ <;>
        simp [inFlight, committed, failed]
  | retained hgc _ _ hanchor calls _ visible _ versions =>
    exact h.of_retained hgc hanchor calls visible versions

end Chained
end ArcGraph.Mvcc
