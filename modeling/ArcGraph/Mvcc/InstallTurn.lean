import ArcGraph.Mvcc.SnapshotIsolation

/-!
# The install turn is handed over

Every LSN above `install_order` belongs to a commit that is still on its way, a
commit that returns has moved `install_order` past its range, and one that
returns an error has left nothing behind. Two exits break this: they return with
the range allocated and nobody left to hand the turn over.
-/

namespace ArcGraph.Mvcc
open VersionChain List State Option Commit Versions

/-- `left` says that some call has left the function with its turn. -/
structure Handed (left : Prop) (s : State) : Prop where
  passed : ∀ t c phase, s.calls t = .commit c phase → phase.handedOver = true →
    c.commitLsn ≤ s.installOrder
  owned : ∀ lsn, s.installOrder < lsn → lsn ≤ s.counter → ∃ t c phase,
    s.calls t = .commit c phase ∧ phase.handedOver = false ∧ c.range.base ≤ lsn ∧
      lsn ≤ c.commitLsn
  abandoned : ∀ t c e, s.calls t = .commit c (.abandoned e) → left

variable {left : Prop} {s s' : State}

theorem handed_new : Handed left .new where
  passed := fun _ _ _ h => by cases h
  owned := fun lsn h1 h2 => by
    simp only [new] at h1 h2
    omega
  abandoned := fun _ _ _ h => by cases h

variable {t : CallId} {c c' : Commit} {k : VersionKey} {v : Version} {phase phase' : Phase}

/-- The call holds a commit whose range contains `lsn` and is not handed over. -/
def Call.Owns (call : Call) (lsn : Nat) : Prop :=
  ∃ c phase, call = .commit c phase ∧ phase.handedOver = false ∧ c.range.base ≤ lsn ∧
    lsn ≤ c.commitLsn

theorem Handed.of_update (h : Handed left s) {call : Call}
    (hcalls : s'.calls = Function.update s.calls t call) (horder : s.installOrder ≤ s'.installOrder)
    (hpassed : ∀ d phase, call = .commit d phase → phase.handedOver = true →
      d.commitLsn ≤ s'.installOrder)
    (howned : ∀ lsn, s'.installOrder < lsn → lsn ≤ s'.counter → call.Owns lsn ∨
      (lsn ≤ s.counter ∧ ¬(s.calls t).Owns lsn))
    (hleft : ∀ d e, call = .commit d (.abandoned e) → left) : Handed left s' := by
  refine ⟨fun t' d ph hd hh => ?_, fun lsn h1 h2 => ?_, fun t' d e hd => ?_⟩
  · rw [hcalls] at hd
    rcases commit_of_update hd with ⟨-, heq⟩ | ⟨-, hd'⟩
    · exact hpassed d ph heq hh
    · exact (h.passed t' d ph hd' hh).trans horder
  · rcases howned lsn h1 h2 with ⟨d, ph, heq, hrest⟩ | ⟨hle, hnot⟩
    · exact ⟨t, d, ph, by simp [hcalls, heq], hrest⟩
    · obtain ⟨t', d, ph, hd, hrest⟩ := h.owned lsn (by omega) hle
      have ht : t' ≠ t := by
        rintro rfl
        exact hnot ⟨d, ph, hd, hrest⟩
      exact ⟨t', d, ph, by simpa [hcalls, ht] using hd, hrest⟩
  · rw [hcalls] at hd
    rcases commit_of_update hd with ⟨-, heq⟩ | ⟨-, hd'⟩
    · exact hleft d e heq
    · exact h.abandoned t' d e hd'

theorem Handed.of_replace (h : Handed left s) (hc : s.calls t = .commit c phase)
    (hcalls : s'.calls = Function.update s.calls t (.commit c' phase'))
    (hrange : c'.range = c.range) (hcounter : s'.counter = s.counter)
    (horder : s'.installOrder = s.installOrder) (hover : phase'.handedOver = phase.handedOver)
    (hleft : ∀ e, phase' = .abandoned e → left) : Handed left s' := by
  have hlsn : c'.commitLsn = c.commitLsn := by simp only [commitLsn, hrange]
  refine h.of_update hcalls horder.ge (fun d ph heq hh => ?_) (fun lsn _ h2 => ?_)
    fun d e heq => ?_
  · cases heq
    rw [hlsn, horder]
    exact h.passed t c phase hc (hover ▸ hh)
  · by_cases hown : (s.calls t).Owns lsn
    · obtain ⟨d, ph, hd, hh, hlo, hhi⟩ := hown
      rw [hc] at hd
      cases hd
      exact .inl ⟨c', phase', rfl, hover.trans hh, hrange ▸ hlo, hlsn ▸ hhi⟩
    · exact .inr ⟨hcounter ▸ h2, hown⟩
  · cases heq
    exact hleft e rfl

theorem Move.handed (h : Move left s c phase c' phase') :
    c'.range = c.range ∧ phase'.handedOver = phase.handedOver ∧
      ∀ e, phase' = .abandoned e → left := by
  cases h with
  | abandon e hleft => exact ⟨rfl, rfl, fun _ _ => hleft⟩
  | stage | builderError | append | apply | unwind | finish =>
    exact ⟨rfl, rfl, fun _ h => by cases h⟩

theorem Handed.of_effect {gc asserted : Prop} (h : Handed left s) (ho : Ordered s)
    (he : Effect gc asserted left s s') : Handed left s' := by
  cases he with
  | quiet _ _ hold hnew calls frame =>
    refine h.of_update calls frame.installOrder.ge (fun d ph heq _ => ?_)
      (fun lsn _ h2 => .inr ⟨frame.counter ▸ h2, ?_⟩) fun d e heq => ?_
    · simp [heq, Call.IsCommit] at hnew
    · rintro ⟨d, ph, hd, -⟩
      simp [hd, Call.IsCommit] at hold
    · simp [heq, Call.IsCommit] at hnew
  | opened _ c phase hold hphase _ _ _ _ _ calls _ _ installOrder =>
    have hnot : phase.handedOver = false := by
      rcases hphase with rfl | rfl | ⟨e, rfl, -⟩ <;> rfl
    refine h.of_update calls installOrder.ge (fun d ph heq hh => ?_) (fun lsn h1 h2 => ?_)
      fun d e heq => ?_
    · cases heq
      rw [hnot] at hh
      cases hh
    · by_cases hnew : lsn ≤ s.counter
      · refine .inr ⟨hnew, ?_⟩
        rintro ⟨d, ph, hd, -⟩
        simp [hd, Call.IsCommit] at hold
      · exact .inl ⟨c, phase, rfl, hnot, by omega, by omega⟩
    · cases heq
      rcases hphase with h1 | h1 | ⟨e', -, hleft⟩
      · cases h1
      · cases h1
      · exact hleft
  | moved _ _ _ _ _ call move calls frame =>
    obtain ⟨hrange, hover, hleft⟩ := move.handed
    exact h.of_replace call calls hrange frame.counter frame.installOrder hover hleft
  | normalized _ _ _ _ _ _ call _ calls counter _ installOrder
  | sidechannel _ _ _ _ _ call _ calls counter _ installOrder
  | published _ _ _ call calls counter _ installOrder
  | rolledBack _ _ _ call calls counter _ installOrder =>
    exact h.of_replace call calls rfl counter installOrder rfl fun _ h => by cases h
  | advanced t c phase _ call hphase calls =>
    have hlt : s.installOrder < c.range.base := by
      refine (ho.placed t c phase call).pending ?_
      rcases hphase with ⟨rfl, -⟩ | ⟨e, rfl, -⟩ <;> rfl
    have hbl := base_le_commitLsn c
    refine h.of_update calls (by omega) (fun d ph heq _ => ?_)
      (fun lsn h1 h2 => .inr ⟨by omega, ?_⟩) fun d e heq => by cases heq
    · cases heq
      omega
    · -- what lies above the range just handed over belongs to other calls
      rintro ⟨d, ph, hd, -, -, _⟩
      rw [call] at hd
      cases hd
      omega
  | retained _ _ _ _ calls counter _ installOrder =>
    refine ⟨?_, ?_, ?_⟩
    · rw [calls, installOrder]
      exact h.passed
    · rw [calls, installOrder, counter]
      exact h.owned
    · rw [calls]
      exact h.abandoned

/-! ## The versions a commit has expired -/

variable {lost : Prop} {phase : Phase}

/-- A version that commit `c` expired and that it has to reopen on failure: still
in its chain with nothing between it and the range of `c`, or reclaimed behind a
later published version. -/
structure Shadowed (lost : Prop) (s : State) (c : Commit) (k : VersionKey) (v : Version) :
    Prop where
  below : v.createdLsn < c.range.base
  published : v.createdLsn ≤ s.visible
  gap : ∀ e ∈ entries (s.versions k), e.1 ≤ v.createdLsn ∨ c.range.base ≤ e.1
  present : (v.createdLsn, v.value) ∈ entries (s.versions k) ∨
    (lost ∧ ∃ e ∈ entries (s.versions k), c.commitLsn < e.1 ∧ e.1 ≤ s.visible)

def Undoable (lost : Prop) (s : State) : Prop :=
  ∀ t c phase k v, s.calls t = .commit c phase → phase.committed = false →
    (k, v) ∈ c.superseded → c.writesKey k ∧ Shadowed lost s c k v

theorem undoable_new : Undoable lost .new := fun _ _ _ _ _ h => by cases h

/-- New entries come above the base of `c`; a published entry that matters stays
or is reclaimed. -/
theorem Shadowed.of_chain (h : Shadowed lost s c k v) (hvis : s.visible ≤ s'.visible)
    (hback : ∀ e ∈ entries (s'.versions k),
      (∃ e0 ∈ entries (s.versions k), e0.1 = e.1) ∨ c.range.base ≤ e.1)
    (hkeep : ∀ e ∈ entries (s.versions k), e.1 ≤ s.visible →
      e.1 = v.createdLsn ∨ c.commitLsn < e.1 → e ∈ entries (s'.versions k) ∨
        (lost ∧ ∃ f ∈ entries (s'.versions k), c.commitLsn < f.1 ∧ f.1 ≤ s'.visible)) :
    Shadowed lost s' c k v := by
  refine ⟨h.below, h.published.trans hvis, fun e he => ?_, ?_⟩
  · rcases hback e he with ⟨e0, he0, heq⟩ | hle
    · rw [← heq]
      exact h.gap e0 he0
    · exact .inr hle
  · rcases h.present with hm | ⟨hl, e, he, hlt, hev⟩
    · exact hkeep _ hm h.published (.inl rfl)
    · rcases hkeep e he hev (.inr hlt) with hm | hr
      · exact .inr ⟨hl, e, hm, hlt, hev.trans hvis⟩
      · exact .inr hr

theorem Shadowed.of_same (h : Shadowed lost s c k v) (hvis : s.visible ≤ s'.visible)
    (hversions : s'.versions = s.versions) : Shadowed lost s' c k v := by
  refine h.of_chain hvis (fun e he => .inl ⟨e, ?_, rfl⟩) fun e he _ _ => .inl ?_
  · rwa [hversions] at he
  · rwa [hversions]

theorem Fresh.shadowed (hi : Inv lost s) (hf : Fresh s s' c) (hv : (k, v) ∈ c.superseded) :
    c.writesKey k ∧ Shadowed lost s' c k v := by
  rw [hf.superseded] at hv
  obtain ⟨⟨key, val⟩, hw, hlast⟩ := mem_filterMap.mp hv
  obtain ⟨_, hlast', heq⟩ := map_eq_some_iff.mp hlast
  cases heq
  obtain ⟨hlast', -⟩ := filter_eq_some_iff.mp hlast'
  have hbl := base_le_commitLsn c
  have hbase := hf.base
  have hmem : (v.createdLsn, v.value) ∈ entries (s.versions (c.tenant, key)) :=
    mem_entries.mpr ⟨v, mem_of_getLast? hlast', rfl, rfl⟩
  have hsnap := hi.chained.le_of_validates hf.valid hw hmem
  have hcounter := hi.chained.le_counter hi.ordered hmem
  have hsv := hf.snapshot
  have hchain : s'.versions (c.tenant, key) =
      install c.commitLsn val (s.versions (c.tenant, key)) := by
    rw [hf.versions, installWrites, applyWrites_of_mem c.writes.nodup hw]
  have hvis := hf.visible
  simp only at hsnap hcounter
  refine ⟨⟨key, val, rfl, hw⟩, by omega, by omega, fun e he => ?_, .inl ?_⟩
  · rw [hchain, entries_install] at he
    rcases mem_append.mp he with he | he
    · exact .inl (entry_le_last (hi.chained.wellFormed _) hlast' he)
    · rw [mem_singleton.mp he]
      exact .inr hbl
  · rw [hchain, entries_install]
    exact mem_append_left _ hmem

theorem Inv.outside_of_failed (hi : Inv lost s) (hc : s.calls t = .commit c phase)
    (hf : phase.failed = true) {e : Entry} (he : e ∈ entries (s.versions k)) :
    e.1 < c.range.base ∨ c.commitLsn < e.1 := by
  by_contra hin
  obtain ⟨_, d, _, hd, _, hk⟩ := hi.chained.sound k e he
  have hbl := base_le_commitLsn d
  obtain rfl := hi.ordered.call_unique hd hc hbl le_rfl (by omega) (by omega)
  rw [hc] at hd
  cases hd
  cases phase with
  | rolledBack => simp [placedWrites] at hk
  | advanced err | returned err => cases err <;> simp_all [placedWrites, Phase.failed]
  | _ => simp [Phase.failed] at hf

theorem Phase.cases_uncommitted (h : phase.committed = false) :
    (phase.inFlight = true ∧ phase.handedOver = false) ∨
      (phase.failed = true ∧ (phase.handedOver = true ∨ phase.holdsTurn = true)) := by
  cases phase with
  | rolledBack => exact .inr ⟨rfl, .inr rfl⟩
  | advanced err | returned err => cases err <;> simp_all [committed, failed, handedOver]
  | published => cases h
  | installed | staged | decided | applying | unwinding | abandoned =>
    exact .inl ⟨rfl, rfl⟩

/-- The side-channel write of a commit in turn lands above the range of every
other commit that has written its key and is not published. -/
theorem Inv.base_le_sidechannel (hi : Inv lost s) (hh : Handed left s) {t' : CallId} {d : Commit}
    {applied rest : List SideChannelWrite} {w : SideChannelWrite}
    (hc : s.calls t = .commit c phase) (hcom : phase.committed = false)
    (hk : c.writesKey w.versionKey) (hd : s.calls t' = .commit d (.applying applied (w :: rest)))
    (hlast : ∀ v, (s.versions w.versionKey).getLast? = some v → v.createdLsn < d.commitLsn) :
    c.range.base ≤ d.commitLsn := by
  have hblc := base_le_commitLsn c
  have hbld := base_le_commitLsn d
  by_cases ht : t = t'
  · subst ht
    rw [hc] at hd
    cases hd
    exact hblc
  have hpend := (hi.ordered.placed t' d _ hd).pending rfl
  rcases Phase.cases_uncommitted hcom with ⟨hfl, -⟩ | ⟨-, hover | hturn⟩
  · obtain ⟨key, _, heq, hm⟩ := hk
    obtain ⟨val', hm'⟩ := exists_value_of_keys (hi.chained.keys t c phase hc).symm hm
    have hp : (w.versionKey, val') ∈ c.placedWrites phase :=
      primary_subset (Phase.failed_of_inFlight hfl)
        (mem_primary.mpr ⟨key, heq, hm'⟩)
    have hmem := hi.chained.mem_of_inFlight hi.ordered hc hfl hp
    obtain ⟨v, hv⟩ := getLast?_of_mem_entries hmem
    have h1 := entry_le_last (hi.chained.wellFormed _) hv hmem
    have h2 := hlast v hv
    simp only at h1
    omega
  · have := hh.passed t c phase hc hover
    omega
  · have := hi.ordered.lt_of_turn hc hd (.symm ht) hturn rfl
    omega

theorem Shadowed.of_effect (hi : Inv lost s) (hh : Handed left s)
    (hc : s.calls t = .commit c phase) (hcom : phase.committed = false) (hk : c.writesKey k)
    (h : Shadowed lost s c k v) (he : Effect lost True left s s') : Shadowed lost s' c k v := by
  have hvis := hi.ordered.visible_mono he
  cases he with
  | quiet _ _ _ _ _ frame => exact h.of_same hvis frame.versions
  | moved _ _ _ _ _ _ _ _ frame => exact h.of_same hvis frame.versions
  | published _ _ _ _ _ _ _ _ versions => exact h.of_same hvis versions
  | advanced _ _ _ _ _ _ _ _ _ _ versions => exact h.of_same hvis versions
  | opened _ d _ _ _ _ _ _ _ _ _ _ _ _ versions =>
      have hle := (hi.ordered.placed t c phase hc).le_counter
      have hblc := base_le_commitLsn c
      have hbld := base_le_commitLsn d
      rw [installWrites] at versions
      rcases applyWrites_cases s.versions (install d.commitLsn) d.tenant d.writes k with
        ⟨key, _, -, -, heq⟩ | ⟨-, heq⟩
      · refine h.of_chain hvis (fun e he => ?_) fun e he _ _ => .inl ?_
        · rw [versions, heq, entries_install] at he
          rcases mem_append.mp he with he | he
          · exact .inl ⟨e, he, rfl⟩
          · rw [mem_singleton.mp he]
            exact .inr (by simp only; omega)
        · rw [versions, heq, entries_install]
          exact mem_append_left _ he
      · refine h.of_chain hvis (fun e he => .inl ⟨e, ?_, rfl⟩) fun e he _ _ => .inl ?_
        · rwa [versions, heq] at he
        · rwa [versions, heq]
  | normalized t' d _ _ _ _ call hn _ _ _ _ versions =>
      obtain ⟨-, hagree, -⟩ := (hi.chained.holds hi.ordered call).normalize hn
      have hunp := (hi.ordered.placed t' d _ call).unpublished rfl rfl
      have hbld := base_le_commitLsn d
      subst versions
      exact h.of_chain hvis
        (fun e he => .inl (hi.chained.normalized_back hi.ordered call hn he))
        fun e he hev _ => .inl ((hagree k e (by omega)).mpr he)
  | sidechannel _ _ _ _ _ call hlast _ _ _ _ versions =>
    refine h.of_chain hvis (fun e he => ?_) fun e he _ _ => .inl ?_
    · rw [versions] at he
      rcases mem_entries_sidechannel.mp he with he | ⟨rfl, rfl⟩
      · exact .inl ⟨e, he, rfl⟩
      · exact .inr (hi.base_le_sidechannel hh hc hcom hk call (hlast trivial))
    · rw [versions]
      exact mem_entries_sidechannel.mpr (.inl he)
  | rolledBack t' d e call _ _ _ _ versions =>
    have hchain := (hi.chained.rolledBack_entries hi.ordered call k).2
    have hunp := (hi.ordered.placed t' d _ call).unpublished rfl rfl
    have hbld := base_le_commitLsn d
    rw [← versions] at hchain
    exact h.of_chain hvis (fun e he => .inl ⟨e, ((hchain e).mp he).1, rfl⟩)
      fun e he hev _ => .inl ((hchain e).mpr ⟨he, by omega⟩)
  | retained hgc key anchor _ _ _ _ _ versions =>
    by_cases hkey : k = key
    · subst hkey
      obtain ⟨-, hsub, hcov⟩ := (hi.chained.wellFormed k).retain anchor
      have heq : s'.versions k = retain anchor (s.versions k) := by
        rw [versions, update_self]
      refine h.of_chain hvis (fun e he => .inl ⟨e, hsub e (heq ▸ he), rfl⟩) fun e he hev hor => ?_
      rcases hcov e he with hm | ⟨f, hf, hef, hfa⟩
      · exact .inl (heq ▸ hm)
      · refine .inr ⟨hgc, f, heq ▸ hf, ?_, by omega⟩
        rcases hor with hor | hor
        · -- the successor that covers the version lies behind the range of the commit
          have hbase := (h.gap f (hsub f hf)).resolve_left (by omega)
          rcases Phase.cases_uncommitted hcom with ⟨_, hpend⟩ | ⟨hfail, -⟩
          · have := (hi.ordered.placed t c phase hc).unpublished hpend hcom
            omega
          · have := hi.outside_of_failed hc hfail (hsub f hf)
            omega
        · omega
    · refine h.of_chain hvis (fun e he => .inl ⟨e, ?_, rfl⟩) fun e he _ _ => .inl ?_
      · rwa [versions, update_of_ne _ _ hkey] at he
      · rwa [versions, update_of_ne _ _ hkey]

theorem Shadowed.of_range (h : Shadowed lost s c k v) (hrange : c'.range = c.range) :
    Shadowed lost s c' k v := by
  have hlsn : c'.commitLsn = c.commitLsn := by simp only [commitLsn, hrange]
  exact ⟨hrange ▸ h.below, h.published, hrange ▸ h.gap, hlsn ▸ h.present⟩

theorem Undoable.of_effect (hi : Inv lost s) (hh : Handed left s) (h : Undoable lost s)
    (he : Effect lost True left s s') : Undoable lost s' := by
  intro t c' phase' k v hc hcom hv
  rcases continues_of_effect he hc with ⟨c, phase, hc0, hcont⟩ | hfresh
  · have hcom0 := hcont.committed hcom
    rw [hcont.superseded] at hv
    obtain ⟨hk, hsh⟩ := h t c phase k v hc0 hcom0 hv
    refine ⟨?_, (hsh.of_effect hi hh hc0 hcom0 hk he).of_range hcont.range⟩
    simpa only [writesKey, hcont.tenant, hcont.writes] using hk
  · exact hfresh.shadowed hi hv

/-! ## Runs -/

/-- Side-channel writes meet their assertion and no call leaves with its turn. -/
def turnKept (s : State) (a : Action) : Prop :=
  s.sidechannelOrdered a = true ∧ s.leavesTurn a = false

instance (s : State) (a : Action) : Decidable (turnKept s a) :=
  inferInstanceAs (Decidable (_ ∧ _))

structure Turns (s : State) : Prop where
  inv : Inv True s
  handed : Handed False s
  undoable : Undoable True s

theorem turns_of_reach (h : system.Reach turnKept s) : Turns s := by
  refine h.invariant ⟨inv_new _, handed_new, undoable_new⟩ fun s a s' hi hk hs => ?_
  have he : Effect True True False s s' :=
    step_effect hi.inv.bounded (fun _ => hk.1) (fun _ => trivial)
      (fun hl => by rw [hk.2] at hl; cases hl) hs
  exact ⟨hi.inv.step hk.1 (fun _ => trivial) hs, hi.handed.of_effect hi.inv.ordered he,
    hi.undoable.of_effect hi.inv hi.handed he⟩

theorem enabled_of_turn (hc : s.calls t = .commit c phase)
    (hover : phase.handedOver = false) (habandoned : ∀ e, phase ≠ .abandoned e)
    (hturn : c.range.base = s.installOrder + 1) :
    ∃ a : Action, a.call = t ∧ (system.step s a).isSome = true := by
  have hpred : c.range.predecessor ≤ s.installOrder := by
    simp only [RedoLsnRange.predecessor]
    omega
  cases phase with
  | installed =>
    cases hf : c.format with
    | none => exact ⟨.build t none, rfl, by simp [system, step, stepBuild, hc, hf]⟩
    | some =>
      refine ⟨.assign t, rfl, ?_⟩
      simp only [system, step, stepAssign, hc, hf]
      split
      · rfl
      · split <;> rfl
  | staged => exact ⟨.append t true, rfl, by simp [system, step, stepAppend, hc]⟩
  | decided err =>
    refine ⟨.turn t, rfl, ?_⟩
    cases err <;> simp [system, step, stepTurn, hc, hpred]
  | applying _ todo =>
    cases todo with
    | nil => exact ⟨.publish t, rfl, by simp [system, step, stepPublish, hc]⟩
    | cons =>
      exact ⟨.sidechannel t, rfl, by simp [system, step, stepSidechannel, hc]⟩
  | unwinding => exact ⟨.rollback t, rfl, by simp [system, step, stepRollback, hc]⟩
  | published | rolledBack =>
    exact ⟨.advance t, rfl, by simp [system, step, stepAdvance, hc]⟩
  | advanced | returned => cases hover
  | abandoned e => exact absurd rfl (habandoned e)

/-- As long as ranges are outstanding, the commit whose turn it is exists and is
not blocked. -/
theorem Turns.next_enabled (h : Turns s) (hlt : s.installOrder < s.counter) :
    ∃ t c phase, s.calls t = .commit c phase ∧ phase.handedOver = false ∧
      c.range.base = s.installOrder + 1 ∧ ∃ a : Action, a.call = t ∧
        (system.step s a).isSome = true := by
  obtain ⟨t, c, phase, hc, hover, _, _⟩ := h.handed.owned (s.installOrder + 1) (by omega) hlt
  have hpend := (h.inv.ordered.placed t c phase hc).pending hover
  have hbase : c.range.base = s.installOrder + 1 := by omega
  refine ⟨t, c, phase, hc, hover, hbase, enabled_of_turn hc hover ?_ hbase⟩
  rintro e rfl
  exact h.handed.abandoned t c e hc

/-- Nothing of a commit is left: no version created in its range, and every
version it expired is live again or has been expired by a later commit, whose
version may since have replaced it. -/
structure Undone (s : State) (c : Commit) : Prop where
  versions : ∀ k, ∀ v ∈ s.versions k, v.createdLsn < c.range.base ∨ c.commitLsn < v.createdLsn
  reopened : ∀ k v, (k, v) ∈ c.superseded →
    (∃ v' ∈ s.versions k, v'.createdLsn = v.createdLsn ∧ v'.value = v.value ∧
        ∀ x, v'.expiredLsn = some x → c.commitLsn < x) ∨
      ∃ v' ∈ s.versions k, c.commitLsn < v'.createdLsn ∧ v'.createdLsn ≤ s.visible

theorem Turns.undone (h : Turns s) {e : CommitError}
    (hc : s.calls t = .commit c (.returned (some e))) : Undone s c := by
  have hout : ∀ k, ∀ e ∈ entries (s.versions k), e.1 < c.range.base ∨ c.commitLsn < e.1 :=
    fun k e he => h.inv.outside_of_failed hc rfl he
  refine ⟨fun k v hv => hout k (v.createdLsn, v.value) (mem_entries.mpr ⟨v, hv, rfl, rfl⟩),
    fun k v hv => ?_⟩
  obtain ⟨-, hsh⟩ := h.undoable t c _ k v hc rfl hv
  rcases hsh.present with hm | ⟨-, f, hf, hlt, hvis⟩
  · obtain ⟨v', hv', hcreated, hvalue⟩ := mem_entries.mp hm
    refine .inl ⟨v', hv', hcreated, hvalue, fun x hx => ?_⟩
    -- an expiry stamp is the creation stamp of a later entry
    obtain ⟨f, hf, _, _⟩ := (h.inv.chained.wellFormed k).expired_mem hv' hx
    have h1 := hsh.gap f hf
    have h2 := hout k f hf
    simp only at hcreated
    omega
  · obtain ⟨v', hv', hcreated, -⟩ := mem_entries.mp hf
    exact .inr ⟨v', hv', by omega, by omega⟩

/-- In every run that takes neither of the two exits, a commit that returns has
moved `install_order` past its range and one that fails has left nothing behind.
No call leaves with its turn, and as long as ranges are outstanding the commit
that has the turn can step. -/
theorem install_turn_handed_over {s : State} (h : system.Reach turnKept s) :
    (∀ t c phase, s.calls t = .commit c phase →
      (∀ e, phase ≠ .abandoned e) ∧ (∀ r, phase = .returned r → c.commitLsn ≤ s.installOrder) ∧
        ∀ e, phase = .returned (some e) → Undone s c) ∧
      (s.installOrder < s.counter → ∃ t c phase, s.calls t = .commit c phase ∧
        phase.handedOver = false ∧ c.range.base = s.installOrder + 1 ∧
          ∃ a : Action, a.call = t ∧ (system.step s a).isSome = true) := by
  have ht := turns_of_reach h
  refine ⟨fun t c phase hc => ⟨?_, ?_, ?_⟩, fun hlt => ht.next_enabled hlt⟩
  · rintro e rfl
    exact ht.handed.abandoned t c e hc
  · rintro r rfl
    exact ht.handed.passed t c _ hc rfl
  · rintro e rfl
    exact ht.undone hc

/-- One transaction commits key 1; the WAL append of a second one, which
overwrites it, fails. -/
def failedAppendRun : List Action :=
  beginRun 0 ++ commitRun 0 (putRequest 1 42) ++ beginRun 1 ++
    [.commit 1 (putRequest 1 43), .build 1 (some []), .append 1 false, .turn 1, .rollback 1,
      .advance 1, .finish 1]

theorem install_turn_handed_over_failedAppendRun :
    Undone (system.after turnKept failedAppendRun)
      (putCommit 2 1 2 1 43 [((7, 1), ⟨1, none, some [42]⟩)]) := by
  have h : system.Reach turnKept (system.after turnKept failedAppendRun) :=
    .after (by decide +kernel)
  have hc : (system.after turnKept failedAppendRun).calls 1 =
      .commit (putCommit 2 1 2 1 43 [((7, 1), ⟨1, none, some [42]⟩)])
        (.returned (some .wal)) := by
    decide +kernel
  exact ((install_turn_handed_over h).1 1 _ _ hc).2.2 .wal rfl

/-- A standalone index commit with a write of tenant 7, then an ordinary commit up
to its wait. -/
def foreignIndexRun : List Action :=
  [.indexPages 0 true [⟨7, 1, some [42]⟩]] ++ beginRun 1 ++
    [.commit 1 (putRequest 1 43), .build 1 (some []), .append 1 true]

/-- The index commit has returned its error with `install_order` below its LSN, and
the commit behind it waits for a turn that nobody will hand over. -/
theorem index_commit_keeps_turn :
    ∃ s, system.Reach disciplined s ∧ (∃ c, s.calls 0 = .commit c (.abandoned .nonSystemTenant) ∧
        s.installOrder < c.commitLsn) ∧
      (∃ c, s.calls 1 = .commit c (.decided none)) ∧ system.step s (.turn 1) = none := by
  refine ⟨system.after disciplined foreignIndexRun, .after (by decide +kernel), ?_, ?_, ?_⟩
  · exact ⟨new.indexCommit [⟨7, 1, some [42]⟩], by decide +kernel, by decide +kernel⟩
  · exact ⟨putCommit 1 0 2 1 43 [], by decide +kernel⟩
  · exact isNone_iff_eq_none.mp (by decide +kernel)

theorem pending_of_turn (h : phase.holdsTurn = true) : phase.handedOver = false := by
  cases phase <;> first | rfl | cases h

/-- In every run one commit at a time has the turn. -/
theorem turn_exclusive {t' : CallId} (h : system.Reach (fun _ _ => True) s)
    (hc : s.calls t = .commit c phase) (hturn : phase.holdsTurn = true)
    (hc' : s.calls t' = .commit c' phase') (hne : t' ≠ t) : phase'.holdsTurn = false := by
  have ho := (ordered_of_reach h).2
  by_contra hheld
  rw [Bool.not_eq_false] at hheld
  -- each of the two ranges would lie below the other
  have hlt := ho.lt_of_turn hc hc' hne hturn (pending_of_turn hheld)
  have hgt := ho.lt_of_turn hc' hc hne.symm hheld (pending_of_turn hturn)
  have hle := base_le_commitLsn c
  have hle' := base_le_commitLsn c'
  omega

/-- A commit takes its turn, and a second one installs its writes. -/
def secondInstallRun : List Action :=
  beginRun 0 ++ (commitRun 0 (putRequest 1 42)).take 4 ++ beginRun 1 ++
    [.commit 1 (putRequest 2 43)]

theorem turn_exclusive_installed :
    ∃ s c c' phase phase', s = system.after (fun _ _ => True) secondInstallRun ∧
      system.Reach (fun _ _ => True) s ∧ s.calls 0 = .commit c phase ∧ phase.holdsTurn = true ∧
      s.calls 1 = .commit c' phase' ∧ phase'.holdsTurn = false := by
  let s := system.after (fun _ _ => True) secondInstallRun
  have h : system.Reach (fun _ _ => True) s := .after rfl
  have hc : s.calls 0 = .commit (putCommit 1 0 1 1 42 []) (.applying [] []) := by decide +kernel
  have hc' : s.calls 1 = .commit (putCommit 2 0 2 2 43 []) .installed := by decide +kernel
  exact ⟨s, _, _, _, _, rfl, h, hc, rfl, hc', turn_exclusive h hc rfl hc' (by decide)⟩

end ArcGraph.Mvcc
