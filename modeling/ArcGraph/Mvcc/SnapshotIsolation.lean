import ArcGraph.Mvcc.Chains

/-!
# Snapshot isolation

Reads at a snapshot return the newest committed write at or below it, and two
transactions that write one key and do not see each other never both commit.
-/

namespace ArcGraph.Mvcc
open VersionChain Phase

structure Inv (lost : Prop) (s : State) : Prop where
  bounded : Bounded s
  ordered : Ordered s
  chained : Chained lost s

theorem inv_new (lost : Prop) : Inv lost .new where
  bounded := ⟨fun _ => trivial, fun _ _ h => by simp [State.new] at h⟩
  ordered := ordered_new
  chained := chained_new

variable {lost left gc : Prop} {s s' : State} {t : CallId} {c c' : Commit} {phase' phase : Phase}
  {snapshot : Nat} {k : VersionKey}

theorem Ordered.step {a : Action} (hb : Bounded s) (ho : Ordered s) (hs : s.step a = some s') :
    s.visible ≤ s'.visible ∧ Bounded s' ∧ Ordered s' := by
  have he : Effect True False True s s' :=
    step_effect hb (fun h => h.elim) (fun _ => trivial) (fun _ => trivial) hs
  have hv := ho.visible_mono he
  exact ⟨hv, bounded_step hb hv hs, ho.of_effect he⟩

theorem ordered_of_reach (h : system.Reach (fun _ _ => True) s) : Bounded s ∧ Ordered s :=
  h.invariant (P := fun s => Bounded s ∧ Ordered s) ⟨(inv_new True).bounded, ordered_new⟩
    fun _ _ _ hi _ hs => (hi.2.step hi.1 hs).2

theorem Inv.step {a : Action} (h : Inv lost s) (hd : s.sidechannelOrdered a = true)
    (hgc : a.isRetain = true → lost) (hs : s.step a = some s') : Inv lost s' := by
  have he : Effect lost True True s s' :=
    step_effect h.bounded (fun _ => hd) hgc (fun _ => trivial) hs
  exact ⟨bounded_step h.bounded (h.ordered.visible_mono he) hs, h.ordered.of_effect he,
    h.chained.of_effect h.ordered he⟩

/-- The callers keep their promise about side-channel writes. -/
def disciplined (s : State) (a : Action) : Prop := s.sidechannelOrdered a = true

/-- The same without garbage collection. -/
def disciplinedNoGc (s : State) (a : Action) : Prop :=
  s.sidechannelOrdered a = true ∧ a.isRetain = false

instance (s : State) (a : Action) : Decidable (disciplined s a) :=
  inferInstanceAs (Decidable (_ = _))

instance (s : State) (a : Action) : Decidable (disciplinedNoGc s a) :=
  inferInstanceAs (Decidable (_ ∧ _))

theorem inv_of_reach_noGc (h : system.Reach disciplinedNoGc s) : Inv False s :=
  h.invariant (inv_new _) fun _ _ _ hi hd hs =>
    hi.step hd.1 (fun hr => by rw [hd.2] at hr; cases hr) hs

/-- The snapshot of a transaction that has loaded it and has not ended. -/
def Call.snapshot? : Call → Option Nat
  | .beginning _ (.loaded snapshot) => some snapshot
  | .active _ snapshot => some snapshot
  | .conflicted _ snapshot => some snapshot
  | .commit c phase =>
    match c.txn, phase with
    | none, _ | _, .returned _ | _, .abandoned _ => none
    | some _, _ => some c.snapshot
  | _ => none

theorem Bounded.snapshot_le (h : Bounded s)
    (hs : (s.calls t).snapshot? = some snapshot) : snapshot ≤ s.visible := by
  have hb := h.calls t
  unfold Call.snapshot? at hs
  split at hs
  · rename_i hc
    cases hs
    simpa [hc, Call.Below] using hb
  · rename_i hc
    cases hs
    simpa [hc, Call.Below] using hb
  · rename_i hc
    cases hs
    simpa [hc, Call.Below] using hb
  · rename_i hc
    split at hs <;> cases hs
    simpa [hc, Call.Below] using hb
  · cases hs

def Commit.allWrites (c : Commit) : List (VersionKey × Option Bytes) :=
  c.primary ++ Commit.sidechannelEntries c.sidechannel

/-- A commit that succeeded wrote `v` to `k` at `lsn`. -/
def Wrote (s : State) (k : VersionKey) (lsn : Nat) (v : Option Bytes) : Prop :=
  ∃ t c phase, s.calls t = .commit c phase ∧ phase.committed = true ∧ c.commitLsn = lsn ∧
    (k, v) ∈ c.allWrites

theorem Commit.placedWrites_of_committed (h : phase.committed = true) :
    c.placedWrites phase = c.allWrites := by
  cases phase with
  | advanced err | returned err => cases err <;> simp_all [committed, placedWrites, allWrites]
  | published => rfl
  | _ => simp [committed] at h

open Commit

/-- A placed write at or below `visible` belongs to a commit that succeeded. -/
theorem Ordered.committed_of_placed (h : Ordered s)
    (hc : s.calls t = .commit c phase) {x : VersionKey × Option Bytes}
    (hx : x ∈ c.placedWrites phase) (hle : c.commitLsn ≤ s.visible) : phase.committed = true := by
  by_contra hcom
  rw [Bool.not_eq_true] at hcom
  cases hh : phase.handedOver with
  | false =>
    have h1 := (h.placed t c phase hc).unpublished hh hcom
    have h2 := base_le_commitLsn c
    omega
  | true =>
    cases phase with
    | advanced err | returned err => cases err <;> simp_all [committed, placedWrites]
    | _ => simp [handedOver] at hh

theorem Inv.wrote_of_mem (h : Inv lost s) {e : Entry}
    (he : e ∈ entries (s.versions k)) (hle : e.1 ≤ s.visible) : Wrote s k e.1 e.2 := by
  obtain ⟨t, c, phase, hc, hlsn, hk⟩ := h.chained.sound k e he
  have hcom := h.ordered.committed_of_placed hc hk (by omega)
  exact ⟨t, c, phase, hc, hcom, hlsn, by rwa [← placedWrites_of_committed hcom]⟩

theorem Inv.mem_of_wrote (h : Inv False s) {lsn : Nat} {v : Option Bytes}
    (hw : Wrote s k lsn v) : (lsn, v) ∈ entries (s.versions k) := by
  obtain ⟨t, c, phase, hc, hcom, rfl, hk⟩ := hw
  rw [← placedWrites_of_committed hcom] at hk
  obtain ⟨e, he, -, heq | ⟨hf, -⟩⟩ := h.chained.covered t c phase k v hc hk
  · exact heq ▸ he
  · exact hf.elim

/-- A read of `k` at `snapshot` returns what the newest committed write at or
below the snapshot wrote, and nothing if there is none. -/
def ReadsLatest (s : State) (snapshot : Nat) (k : VersionKey) : Prop :=
  (∃ lsn, lsn ≤ snapshot ∧ (∃ v, Wrote s k lsn v) ∧
      (∀ lsn' v', Wrote s k lsn' v' → lsn' ≤ snapshot → lsn' ≤ lsn) ∧
      ∀ v, Wrote s k lsn v → readAt (s.versions k) snapshot = v) ∨
    ((∀ lsn v, Wrote s k lsn v → snapshot < lsn) ∧ readAt (s.versions k) snapshot = none)

theorem Inv.readsLatest (h : Inv False s) (hs : snapshot ≤ s.visible)
    (k : VersionKey) : ReadsLatest s snapshot k := by
  have hwf := h.chained.wellFormed k
  cases hr : readVersion (s.versions k) snapshot with
  | none =>
    refine .inr ⟨fun lsn v hw => ?_, by simp [readAt, hr]⟩
    exact readVersion_none hwf hr _ (h.mem_of_wrote hw)
  | some v =>
    obtain ⟨hmem, hle, hmax⟩ := readVersion_some hwf hr
    refine .inl ⟨v.createdLsn, hle, ⟨v.value, h.wrote_of_mem hmem (by simp only; omega)⟩, ?_, ?_⟩
    · intro lsn' v' hw hle'
      exact hmax _ (h.mem_of_wrote hw) hle'
    · intro v' hw
      simp only [readAt, hr, Option.bind_some]
      exact hwf.entry_unique hmem (h.mem_of_wrote hw)

/-- The LSN of the version a read finds lies outside the range of a commit. -/
def Unseen (s : State) (snapshot : Nat) (c : Commit) : Prop :=
  ∀ k v, readVersion (s.versions k) snapshot = some v →
    v.createdLsn < c.range.base ∨ c.commitLsn < v.createdLsn

/-- Every write of a commit is covered by what a read of its key finds. -/
def Seen (s : State) (snapshot : Nat) (c : Commit) : Prop :=
  ∀ k v, (k, v) ∈ c.allWrites →
    ∃ w, readVersion (s.versions k) snapshot = some w ∧ c.commitLsn ≤ w.createdLsn

theorem Inv.unseen (h : Inv lost s) (hs : snapshot ≤ s.visible)
    (hc : s.calls t = .commit c phase) (hcom : phase.committed = false ∨ snapshot < c.commitLsn) :
    Unseen s snapshot c := by
  intro k v hr
  obtain ⟨hmem, _, -⟩ := readVersion_some (h.chained.wellFormed k) hr
  -- the version read belongs to a committed call at or below the snapshot
  obtain ⟨t', d, ph, hd, hdcom, hdl, -⟩ := h.wrote_of_mem hmem (by simp only; omega)
  simp only at hdl
  have hne : t' ≠ t := by
    rintro rfl
    rw [hc] at hd
    cases hd
    rcases hcom with hcom | hlt
    · rw [hcom] at hdcom
      cases hdcom
    · omega
  have hbl := base_le_commitLsn d
  rcases h.ordered.disjoint t' t d c ph phase hne hd hc with h1 | h1
  · exact .inl (by omega)
  · exact .inr (by omega)

theorem Inv.seen (h : Inv False s)
    (hc : s.calls t = .commit c phase) (hcom : phase.committed = true)
    (hle : c.commitLsn ≤ snapshot) : Seen s snapshot c := by
  intro k v hk
  have hmem : (c.commitLsn, v) ∈ entries (s.versions k) :=
    h.mem_of_wrote ⟨t, c, phase, hc, hcom, rfl, hk⟩
  cases hr : readVersion (s.versions k) snapshot with
  | none =>
    have := readVersion_none (h.chained.wellFormed k) hr _ hmem
    simp only at this
    omega
  | some w =>
    exact ⟨w, rfl, (readVersion_some (h.chained.wellFormed k) hr).2.2 _ hmem hle⟩

/-! ## First committer wins -/

def Commit.writesKey (c : Commit) (k : VersionKey) : Prop :=
  ∃ key v, k = (c.tenant, key) ∧ (key, v) ∈ c.writes.entries

/-- Of two commits that write one key and have not been rolled back, the later
one began after the earlier one was published. -/
def FirstCommitter (s : State) : Prop :=
  ∀ t₁ t₂ c₁ c₂ phase₁ phase₂ k, s.calls t₁ = .commit c₁ phase₁ → s.calls t₂ = .commit c₂ phase₂ →
    phase₁.failed = false → phase₂.failed = false → c₁.writesKey k → c₂.writesKey k →
      c₁.commitLsn < c₂.commitLsn → c₁.commitLsn ≤ c₂.snapshot

/-- What a later state keeps of a commit in progress. -/
structure Continues (c c' : Commit) (phase phase' : Phase) : Prop where
  tenant : c'.tenant = c.tenant
  writes : c'.writes = c.writes
  snapshot : c'.snapshot = c.snapshot
  range : c'.range = c.range
  superseded : c'.superseded = c.superseded
  failed : phase'.failed = false → phase.failed = false
  committed : phase'.committed = false → phase.committed = false

theorem Move.continues (h : Move left s c phase c' phase') : Continues c c' phase phase' := by
  cases h with
  | finish err =>
    exact ⟨rfl, rfl, rfl, rfl, rfl, by cases err <;> simp [failed],
      by cases err <;> simp [committed]⟩
  | _ => exact ⟨rfl, rfl, rfl, rfl, rfl, fun _ => rfl, fun _ => rfl⟩

theorem Continues.refl (c : Commit) (phase : Phase) : Continues c c phase phase :=
  ⟨rfl, rfl, rfl, rfl, rfl, id, id⟩

theorem continues_of_update (hc : s.calls t = .commit c phase)
    (hcalls : s'.calls = Function.update s.calls t (.commit c' phase'))
    (h : Continues c c' phase phase') :
    ∀ t' d' q', s'.calls t' = .commit d' q' → ∃ d q, s.calls t' = .commit d q ∧
      Continues d d' q q' := by
  intro t' d' q' hd
  rw [hcalls] at hd
  rcases commit_of_update hd with ⟨rfl, heq⟩ | ⟨-, hd⟩
  · cases heq
    exact ⟨c, phase, hc, h⟩
  · exact ⟨d', q', hd, .refl d' q'⟩

theorem Inv.le_snapshot (h : Inv lost s) {tenant : TenantId} {writes : WriteSet}
    (hv : s.versions.validates tenant snapshot writes = true) {key : MvccKey} {val : Option Bytes}
    (hw : (key, val) ∈ writes.entries) (hc : s.calls t = .commit c phase)
    (hf : phase.failed = false) (hk : c.writesKey (tenant, key)) : c.commitLsn ≤ snapshot := by
  obtain ⟨_, _, heq, hm⟩ := hk
  cases heq
  obtain ⟨_, hm'⟩ := exists_value_of_keys (h.chained.keys t c phase hc).symm hm
  have hp := primary_subset hf (mem_primary.mpr ⟨key, rfl, hm'⟩)
  obtain ⟨_, he, hle, -⟩ := h.chained.covered t c phase _ _ hc hp
  exact hle.trans (h.chained.le_of_validates hv hw he)

/-- A commit that has been opened by the step from `s` to `s'`. -/
structure Fresh (s s' : State) (c : Commit) : Prop where
  base : c.range.base = s.counter + 1
  superseded : c.superseded = s.versions.superseded c.tenant c.writes
  snapshot : c.snapshot ≤ s.visible
  valid : s.versions.validates c.tenant c.snapshot c.writes = true
  visible : s'.visible = s.visible
  versions : s'.versions = s.versions.installWrites c.tenant c.commitLsn c.writes

/-- Every commit of the later state goes back to one of the earlier state or has
just been opened. -/
theorem continues_of_effect {asserted : Prop} (he : Effect gc asserted left s s')
    (hc : s'.calls t = .commit c' phase') :
    (∃ c phase, s.calls t = .commit c phase ∧ Continues c c' phase phase') ∨ Fresh s s' c' := by
  cases he with
  | quiet _ _ _ hnew calls =>
    rw [calls] at hc
    rcases commit_of_update hc with ⟨-, rfl⟩ | ⟨-, hc⟩
    · simp [Call.IsCommit] at hnew
    · exact .inl ⟨c', phase', hc, .refl c' phase'⟩
  | opened _ _ _ _ _ hbase _ hsup hsnapshot hvalid calls _ visible _ versions =>
      rw [calls] at hc
      rcases commit_of_update hc with ⟨-, heq⟩ | ⟨-, hc⟩
      · cases heq
        exact .inr ⟨hbase, hsup, hsnapshot, hvalid, visible, versions⟩
      · exact .inl ⟨c', phase', hc, .refl c' phase'⟩
  | moved _ _ _ _ _ call move calls =>
    exact .inl (continues_of_update call calls move.continues t c' phase' hc)
  | normalized _ _ _ _ _ _ call _ calls
  | sidechannel _ _ _ _ _ call _ calls
  | published _ _ _ call calls
  | rolledBack _ _ _ call calls =>
    exact .inl (continues_of_update call calls
      ⟨rfl, rfl, rfl, rfl, rfl, fun _ => rfl, fun _ => rfl⟩ t c' phase' hc)
  | advanced _ _ _ _ call hphase calls =>
    refine .inl (continues_of_update call calls ⟨rfl, rfl, rfl, rfl, rfl, ?_, ?_⟩ t c' phase' hc)
    all_goals
      rcases hphase with ⟨rfl, rfl⟩ | ⟨_, rfl, rfl⟩ <;> simp [failed, committed]
  | retained _ _ _ _ calls =>
    rw [calls] at hc
    exact .inl ⟨c', phase', hc, .refl c' phase'⟩

theorem FirstCommitter.of_effect {asserted : Prop} (hi : Inv lost s)
    (h : FirstCommitter s) (he : Effect gc asserted left s s') : FirstCommitter s' := by
  intro t1 t2 c1 c2 ph1 ph2 k h1 h2 hf1 hf2 hk1 hk2 hlt
  have hbl1 := base_le_commitLsn c1
  rcases continues_of_effect he h1 with ⟨d1, q1, hd1, hr1⟩ | hn1
  · simp only [writesKey, commitLsn, hr1.tenant, hr1.writes, hr1.range] at hk1 hlt ⊢
    rcases continues_of_effect he h2 with ⟨d2, q2, hd2, hr2⟩ | hn2
    · simp only [writesKey, hr2.tenant, hr2.writes, hr2.range, hr2.snapshot]
        at hk2 hlt ⊢
      exact h t1 t2 d1 d2 q1 q2 k hd1 hd2 (hr1.failed hf1) (hr2.failed hf2) hk1 hk2 hlt
    · obtain ⟨_, _, rfl, hm⟩ := hk2
      exact hi.le_snapshot hn2.valid hm hd1 (hr1.failed hf1) hk1
  · -- a commit opened last has the largest LSN
    exfalso
    rcases continues_of_effect he h2 with ⟨d2, q2, hd2, hr2⟩ | hn2
    · have hle := (hi.ordered.placed t2 d2 q2 hd2).le_counter
      have hbase := hn1.base
      simp only [commitLsn, hr2.range] at hlt hle hbl1
      omega
    · have hbl2 := base_le_commitLsn c2
      have hbase1 := hn1.base
      have hbase2 := hn2.base
      obtain rfl := (hi.ordered.of_effect he).call_unique h1 h2
        hbase1.le (by omega) (by omega) (by omega)
      rw [h1] at h2
      cases h2
      omega

theorem firstCommitter_of_reach (h : system.Reach disciplined s) : FirstCommitter s := by
  refine (h.invariant (P := fun s => Inv True s ∧ FirstCommitter s) ⟨inv_new _, ?_⟩ ?_).2
  · intro t1 t2 c1 c2 ph1 ph2 k h1
    cases h1
  · rintro s a s' ⟨hi, hf⟩ hd hs
    have he : Effect True True True s s' :=
      step_effect hi.bounded (fun _ => hd) (fun _ => trivial) (fun _ => trivial) hs
    exact ⟨hi.step hd (fun _ => trivial) hs, hf.of_effect hi he⟩

/-! ## The two theorems -/

/-- As long as the side-channel writes of every key come in the order of their LSNs
(`sidechannelOrdered`), every read of every transaction that holds a snapshot returns
the newest committed write at or below it. Each commit's writes are seen all together, if
it succeeded at or below the snapshot, or not at all; in particular no read finds
a version of a commit that failed. -/
theorem read_at_snapshot {s : State} (h : system.Reach disciplinedNoGc s) {t : CallId}
    {snapshot : Nat} (hs : (s.calls t).snapshot? = some snapshot) :
    (∀ k, ReadsLatest s snapshot k) ∧ ∀ t' c phase, s.calls t' = .commit c phase →
        (phase.committed = true ∧ c.commitLsn ≤ snapshot ∧ Seen s snapshot c) ∨
          Unseen s snapshot c := by
  have hi := inv_of_reach_noGc h
  have hle := hi.bounded.snapshot_le hs
  refine ⟨fun k => hi.readsLatest hle k, fun t' c phase hc => ?_⟩
  cases hcom : phase.committed with
  | false => exact .inr (hi.unseen hle hc (.inl hcom))
  | true =>
    by_cases hlsn : c.commitLsn ≤ snapshot
    · exact .inl ⟨rfl, hlsn, hi.seen hc hcom hlsn⟩
    · exact .inr (hi.unseen hle hc (.inr (by omega)))

def putRequest (key : MvccKey) (value : UInt8) : CommitRequest where
  tenant := 7
  format := none
  writes := ⟨[(key, some [value])], by simp⟩
  sidechannel := []
  hasAclGrants := false
  intents := []
  built := none

def beginRun (t : CallId) : List Action := List.replicate 5 (.begin t)

def commitRun (t : CallId) (req : CommitRequest) : List Action :=
  [.commit t req, .build t (some []), .append t true, .turn t, .publish t, .advance t, .finish t]

/-- One writer commits, a reader begins, and a second writer overwrites the key. -/
def readerRun : List Action :=
  beginRun 0 ++ commitRun 0 (putRequest 1 42) ++ beginRun 1 ++ beginRun 2 ++
    commitRun 2 (putRequest 1 43)

theorem read_at_snapshot_readerRun :
    readAt ((system.after disciplinedNoGc readerRun).versions (7, 1)) 1 = some [42] ∧
      ∀ k, ReadsLatest (system.after disciplinedNoGc readerRun) 1 k :=
  ⟨by decide +kernel,
    (read_at_snapshot (.after (by decide +kernel)) (t := 1) (by decide +kernel)).1⟩

/-- Two transactions that both write a key and both return success saw each
other: the later one's snapshot covers the earlier commit. Side-channel writes are
`sidechannelOrdered`; garbage collection may run at any time. -/
theorem first_committer_wins {s : State} (h : system.Reach disciplined s) {t₁ t₂ : CallId}
    {c₁ c₂ : Commit} (h₁ : s.calls t₁ = .commit c₁ (.returned none))
    (h₂ : s.calls t₂ = .commit c₂ (.returned none)) {k : VersionKey} (hk₁ : c₁.writesKey k)
    (hk₂ : c₂.writesKey k) (hlt : c₁.commitLsn < c₂.commitLsn) : c₁.commitLsn ≤ c₂.snapshot :=
  firstCommitter_of_reach h t₁ t₂ c₁ c₂ _ _ k h₁ h₂ rfl rfl hk₁ hk₂ hlt

/-- The commit of `putRequest key value` by the transaction `id`. -/
def putCommit (id : TxnId) (snapshot lsn : Nat) (key : MvccKey) (value : UInt8)
    (superseded : List (VersionKey × Version)) : Commit where
  txn := some id
  tenant := 7
  snapshot := snapshot
  format := none
  writes := (putRequest key value).writes
  values := (putRequest key value).writes
  intents := []
  sidechannel := []
  range := RedoLsnRange.allocate (lsn - 1) 1
  superseded := superseded

theorem first_committer_wins_readerRun :
    (putCommit 1 0 1 1 42 []).commitLsn ≤
      (putCommit 3 1 2 1 43 [((7, 1), ⟨1, none, some [42]⟩)]).snapshot := by
  have h : system.Reach disciplined (system.after disciplined readerRun) :=
    .after (by decide +kernel)
  have h1 : (system.after disciplined readerRun).calls 0 =
      .commit (putCommit 1 0 1 1 42 []) (.returned none) := by decide +kernel
  have h2 : (system.after disciplined readerRun).calls 2 =
      .commit (putCommit 3 1 2 1 43 [((7, 1), ⟨1, none, some [42]⟩)]) (.returned none) := by
    decide +kernel
  exact first_committer_wins h h1 h2 ⟨1, some [42], rfl, by decide⟩ ⟨1, some [43], rfl, by decide⟩
    (by decide)

end ArcGraph.Mvcc
