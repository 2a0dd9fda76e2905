import ArcGraph.Mvcc.Effect

/-!
# The order of the watermarks

Commits receive disjoint LSN ranges and finish in the order of their ranges:
`installOrder` lies below every range whose turn has not been handed over, and
`visible` lies below every range that is not published.
-/

namespace ArcGraph.Mvcc
open Function Nat

namespace Phase

/-- The store to `visible` has happened. -/
def committed : Phase → Bool
  | .published | .advanced none | .returned none => true
  | _ => false

def failed : Phase → Bool
  | .rolledBack _ | .advanced (some _) | .returned (some _) => true
  | _ => false

def handedOver : Phase → Bool
  | .advanced _ | .returned _ => true
  | _ => false

def holdsTurn : Phase → Bool
  | .applying _ _ | .unwinding _ | .published | .rolledBack _ => true
  | _ => false

end Phase

variable {s s' : State} {t t' : CallId} {c c' : Commit} {phase' phase : Phase} {call : Call}
  {lsn : Nat} {id : TxnId} {a : Action} {gc left : Prop}

theorem Bounded.of_update (hb : Bounded s) (hv : s.visible ≤ s'.visible)
    (hc : s'.calls = update s.calls t call) (hcall : call.Below s'.visible)
    (ha : ∀ id lsn, s'.active id = some (.snapshot lsn) →
      s.active id = some (.snapshot lsn) ∨ lsn ≤ s'.visible) : Bounded s' := by
  refine ⟨fun t' => ?_, fun id lsn h => ?_⟩
  · rw [hc]
    by_cases ht : t' = t
    · subst ht
      simpa using hcall
    · simpa [ht] using (hb.calls t').mono hv
  · rcases ha id lsn h with h | h
    · exact le_trans (hb.active id lsn h) hv
    · exact h

theorem active_of_setActive {id' : TxnId} {e : Option ActiveEntry}
    (h : (s.setActive id e).active id' = some (.snapshot lsn)) :
    s.active id' = some (.snapshot lsn) ∨ e = some (.snapshot lsn) := by
  rcases Foundation.of_update_eq h with ⟨-, he⟩ | ⟨-, hold⟩
  · exact .inr he
  · exact .inl hold

theorem active_of_release {txn : Option TxnId}
    (h : (s.release txn).active id = some (.snapshot lsn)) :
    s.active id = some (.snapshot lsn) := by
  cases txn with
  | none => exact h
  | some => exact (active_of_setActive h).resolve_right (by simp)

theorem Bounded.of_commit (hb : Bounded s) (hv : s.visible ≤ s'.visible)
    (hc : s.calls t = .commit c phase) (hcalls : s'.calls = update s.calls t (.commit c' phase'))
    (hsnap : c'.snapshot = c.snapshot)
    (ha : ∀ id lsn, s'.active id = some (.snapshot lsn) → s.active id = some (.snapshot lsn)) :
    Bounded s' := by
  refine hb.of_update hv hcalls ?_ fun id lsn h => .inl (ha id lsn h)
  have hle : c.snapshot ≤ s.visible := by simpa [hc, Call.Below] using hb.calls t
  simp only [Call.Below, hsnap]
  omega

theorem Collects.below {old : Call} (h : Collects s a old call)
    (hb : Bounded s) (hold : old.Below s.visible) : call.Below s.visible := by
  cases h with
  | fence | nothing | done => trivial
  | scan => exact fun _ hf => by cases hf
  | sentinel | scanned => exact hold
  | @snapshot _ id _ _ _ floor _ lsn hactive =>
    have hlsn := hb.active id lsn hactive
    intro f hf
    cases floor with cases hf
    | none =>
      exact hlsn
    | some =>
      exact le_trans (min_le_right ..) hlsn
  | clamp => exact zero_le _
  | anchor => exact hold _ rfl
  | load => exact le_rfl (a := s.visible)

theorem bounded_step (hb : Bounded s) (hv : s.visible ≤ s'.visible)
    (h : s.step a = some s') : Bounded s' := by
  cases stepped_of_step h with
  | allocate | bump | noPages => exact hb.of_update hv rfl trivial fun _ _ h => .inl h
  | announce | quit =>
    exact hb.of_update hv rfl trivial fun _ _ h =>
      .inl ((active_of_setActive h).resolve_right (by simp))
  | load => exact hb.of_update hv rfl (le_refl s.visible) fun _ _ h => .inl h
  | @enter t _ snapshot hc =>
    have hle : snapshot ≤ s.visible := by simpa [hc, Call.Below] using hb.calls t
    refine hb.of_update hv rfl hle fun id' lsn h => ?_
    rcases active_of_setActive h with h | h
    · exact .inl h
    · cases h
      exact .inr hle
  | @conflict t _ _ snapshot hc | @install t _ _ snapshot _ _ _ hc =>
    have hle : snapshot ≤ s.visible := by simpa [hc, Call.Below] using hb.calls t
    exact hb.of_update hv rfl hle fun _ _ h => .inl h
  | move hc hmove =>
    refine hb.of_commit hv hc rfl ?_ fun _ _ h => h
    cases hmove False <;> rfl
  | normalize hc | sidechannel hc | publish hc | rollback hc | advance hc =>
    exact hb.of_commit hv hc rfl rfl fun _ _ h => h
  | abandon hc | finish hc =>
    exact hb.of_commit hv hc (calls_release ..) rfl fun _ _ h => active_of_release h
  | indexPages => exact hb.of_update hv rfl (zero_le _) fun _ _ h => .inl h
  | collect hc hmove =>
    exact hb.of_update hv rfl (hmove.below hb (hc ▸ hb.calls _)) fun _ _ h => .inl h
  | retain => exact ⟨hb.calls, hb.active⟩

/-! ## Ranges and turns -/

/-- Where the range of one commit lies with respect to the watermarks. -/
structure Placed (s : State) (c : Commit) (phase : Phase) : Prop where
  le_counter : c.commitLsn ≤ s.counter
  pending : phase.handedOver = false → s.installOrder < c.range.base
  turn : phase.holdsTurn = true → c.range.base ≤ s.installOrder + 1
  unpublished : phase.handedOver = false → phase.committed = false → s.visible < c.range.base
  published : phase.committed = true → c.commitLsn ≤ s.visible

structure Ordered (s : State) : Prop where
  visible_le : s.visible ≤ s.counter
  order_le : s.installOrder ≤ s.counter
  placed : ∀ t c phase, s.calls t = .commit c phase → Placed s c phase
  disjoint : ∀ t t' c c' phase phase', t ≠ t' → s.calls t = .commit c phase →
    s.calls t' = .commit c' phase' →
      c.commitLsn < c'.range.base ∨ c'.commitLsn < c.range.base

theorem base_le_commitLsn (c : Commit) : c.range.base ≤ c.commitLsn := c.range.base_le_end

theorem ordered_new : Ordered .new :=
  ⟨le_rfl, le_rfl, fun _ _ _ h => by simp [State.new] at h,
    fun _ _ _ _ _ _ _ h => by simp [State.new] at h⟩

theorem Ordered.lt_of_turn (h : Ordered s) (hc : s.calls t = .commit c phase)
    (hc' : s.calls t' = .commit c' phase') (hne : t' ≠ t) (hturn : phase.holdsTurn = true)
    (hpend : phase'.handedOver = false) : c.commitLsn < c'.range.base := by
  have h1 := (h.placed t c phase hc).turn hturn
  have h2 := (h.placed t' c' phase' hc').pending hpend
  have h3 := base_le_commitLsn c'
  rcases h.disjoint t t' c c' phase phase' hne.symm hc hc' with h4 | h4
  · exact h4
  · omega

theorem commit_of_update {calls : CallId → Call} (h : update calls t call t' = .commit c phase) :
    (t' = t ∧ call = .commit c phase) ∨ (t' ≠ t ∧ calls t' = .commit c phase) :=
  Foundation.of_update_eq h

/-- One commit moves on with its range unchanged; the others keep their places. -/
theorem Ordered.of_update (h : Ordered s)
    (hcalls : s'.calls = update s.calls t call) (hvis : s'.visible ≤ s'.counter)
    (hord : s'.installOrder ≤ s'.counter)
    (hnew : ∀ d phase, call = .commit d phase → Placed s' d phase ∧
      ∀ t' d' phase', t' ≠ t → s.calls t' = .commit d' phase' →
        d.commitLsn < d'.range.base ∨ d'.commitLsn < d.range.base)
    (hothers : ∀ t' d phase, t' ≠ t → s.calls t' = .commit d phase → Placed s d phase →
      Placed s' d phase) : Ordered s' := by
  refine ⟨hvis, hord, fun t' d ph hd => ?_, fun t1 t2 d1 d2 ph1 ph2 hne h1 h2 => ?_⟩
  · rw [hcalls] at hd
    rcases commit_of_update hd with ⟨-, heq⟩ | ⟨hne, hd⟩
    · exact (hnew d ph heq).1
    · exact hothers t' d ph hne hd (h.placed t' d ph hd)
  · rw [hcalls] at h1 h2
    rcases commit_of_update h1 with ⟨rfl, heq1⟩ | ⟨hne1, h1'⟩ <;>
      rcases commit_of_update h2 with ⟨rfl, heq2⟩ | ⟨hne2, h2'⟩
    · exact absurd rfl hne
    · exact (hnew d1 ph1 heq1).2 t2 d2 ph2 hne2 h2'
    · exact ((hnew d2 ph2 heq2).2 t1 d1 ph1 hne1 h1').symm
    · exact h.disjoint _ _ _ _ _ _ hne h1' h2'

theorem Ordered.of_replace (h : Ordered s) (hc : s.calls t = .commit c phase)
    (hcalls : s'.calls = update s.calls t (.commit c' phase'))
    (hrange : c'.range = c.range) (hvis : s'.visible ≤ s'.counter)
    (hord : s'.installOrder ≤ s'.counter) (hplaced : Placed s' c' phase')
    (hothers : ∀ t' d phase', t' ≠ t → s.calls t' = .commit d phase' → Placed s d phase' →
      Placed s' d phase') : Ordered s' := by
  refine h.of_update hcalls hvis hord (fun d ph heq => ?_) hothers
  cases heq
  refine ⟨hplaced, fun t' d ph hne hd => ?_⟩
  have hapart := h.disjoint _ _ _ _ _ _ hne.symm hc hd
  rwa [Commit.commitLsn, hrange]

theorem Placed.of_frame (h : Placed s c phase) (hcounter : s'.counter = s.counter)
    (hvis : s'.visible = s.visible) (hord : s'.installOrder = s.installOrder) : Placed s' c phase :=
  ⟨by rw [hcounter]; exact h.le_counter, by rw [hord]; exact h.pending,
    by rw [hord]; exact h.turn, by rw [hvis]; exact h.unpublished,
    by rw [hvis]; exact h.published⟩

open Phase

/-- A move keeps the place of the commit; taking the turn is what `turn` records. -/
theorem Move.placed (hm : Move left s c phase c' phase') (h : Placed s c phase) :
    Placed s c' phase' ∧ c'.range = c.range ∧ c'.snapshot = c.snapshot := by
  have hpos := c.range.base_pos
  cases hm with
  | finish err =>
    refine ⟨⟨h.le_counter, by simp [handedOver], by simp [holdsTurn],
      by simp [handedOver], fun hc => h.published ?_⟩, rfl, rfl⟩
    cases err <;> simp_all [committed]
  | apply hturn | unwind _ hturn =>
    refine ⟨⟨h.le_counter, fun _ => h.pending rfl, fun _ => ?_, fun _ _ => h.unpublished rfl rfl,
      by simp [committed]⟩, rfl, rfl⟩
    simp only [RedoLsnRange.predecessor] at hturn
    omega
  | stage | builderError | abandon | append =>
    exact ⟨⟨h.le_counter, fun _ => h.pending rfl, by simp [holdsTurn],
      fun _ _ => h.unpublished rfl rfl, by simp [committed]⟩, rfl, rfl⟩

theorem Ordered.of_kept (h : Ordered s) (hc : s.calls t = .commit c phase)
    (hcalls : s'.calls = update s.calls t (.commit c' phase'))
    (hrange : c'.range = c.range) (counter : s'.counter = s.counter)
    (visible : s'.visible = s.visible) (installOrder : s'.installOrder = s.installOrder)
    (hplaced : Placed s c' phase') : Ordered s' :=
  h.of_replace hc hcalls hrange (by rw [visible, counter]; exact h.visible_le)
    (by rw [installOrder, counter]; exact h.order_le)
    (hplaced.of_frame counter visible installOrder)
    fun _ _ _ _ _ hd => hd.of_frame counter visible installOrder

theorem Ordered.of_effect {asserted : Prop} (h : Ordered s)
    (he : Effect gc asserted left s s') : Ordered s' := by
  cases he with
  | quiet _ _ _ hnew calls frame =>
    refine h.of_update calls (by rw [frame.visible, frame.counter]; exact h.visible_le)
      (by rw [frame.installOrder, frame.counter]; exact h.order_le) (fun d phase heq => ?_)
      fun _ _ _ _ _ hd => hd.of_frame frame.counter frame.visible frame.installOrder
    simp [heq, Call.IsCommit] at hnew
  | opened _ c _ _ hphase _ _ _ _ _ calls _ visible installOrder =>
    have hle := base_le_commitLsn c
    have hvis := h.visible_le
    have hord := h.order_le
    refine h.of_update calls (by omega) (by omega) (fun d ph heq => ?_) fun t' d ph _ _ hp => ?_
    · cases heq
      refine ⟨⟨by omega, fun _ => by omega, ?_, fun _ _ => by omega, ?_⟩, fun t' d ph _ hd => ?_⟩
      · rcases hphase with rfl | rfl | ⟨e, rfl, -⟩ <;> simp [holdsTurn]
      · rcases hphase with rfl | rfl | ⟨e, rfl, -⟩ <;> simp [committed]
      · have := (h.placed t' d ph hd).le_counter
        omega
    · have hgrow : s.counter ≤ s'.counter := by omega
      exact ⟨le_trans hp.le_counter hgrow, by rw [installOrder]; exact hp.pending,
        by rw [installOrder]; exact hp.turn, by rw [visible]; exact hp.unpublished,
        by rw [visible]; exact hp.published⟩
  | moved t c _ phase _ call move calls frame =>
    obtain ⟨hp, hrange, -⟩ := move.placed (h.placed t c phase call)
    exact h.of_kept call calls hrange frame.counter frame.visible frame.installOrder hp
  | normalized t c _ _ _ _ call _ calls counter visible installOrder =>
    have hp := h.placed t c _ call
    exact h.of_kept call calls rfl counter visible installOrder
      ⟨hp.le_counter, fun _ => hp.pending rfl, by simp [holdsTurn],
        fun _ _ => hp.unpublished rfl rfl, by simp [committed]⟩
  | sidechannel t c _ _ _ call _ calls counter visible installOrder
  | rolledBack t c _ call calls counter visible installOrder =>
    have hp := h.placed t c _ call
    exact h.of_kept call calls rfl counter visible installOrder
      ⟨hp.le_counter, fun _ => hp.pending rfl, fun _ => hp.turn rfl,
        fun _ _ => hp.unpublished rfl rfl, by simp [committed]⟩
  | published t c _ call calls counter visible installOrder =>
    have hp := h.placed t c _ call
    have hunp := hp.unpublished rfl rfl
    have hle := base_le_commitLsn c
    refine h.of_replace call calls rfl (by rw [visible, counter]; exact hp.le_counter)
      (by rw [installOrder, counter]; exact h.order_le) ?_ ?_
    · exact ⟨by rw [counter]; exact hp.le_counter, by rw [installOrder]; exact fun _ => hp.pending rfl,
        by rw [installOrder]; exact fun _ => hp.turn rfl, by simp [committed],
        by rw [visible]; exact fun _ => le_rfl⟩
    · intro t' d ph hne hd hdp
      refine ⟨by rw [counter]; exact hdp.le_counter, by rw [installOrder]; exact hdp.pending,
        by rw [installOrder]; exact hdp.turn, fun hh _ => ?_, fun hc => ?_⟩
      · -- the commit in turn lies below every range still pending
        rw [visible]
        exact h.lt_of_turn call hd hne rfl hh
      · have := hdp.published hc
        omega
  | advanced t c phase _ call hphase calls counter visible installOrder =>
    have hp := h.placed t c _ call
    have hturn : phase.holdsTurn = true := by
      rcases hphase with ⟨rfl, -⟩ | ⟨e, rfl, -⟩ <;> rfl
    have hord := h.order_le
    have hcl := hp.le_counter
    refine h.of_replace call calls rfl (by rw [visible, counter]; exact h.visible_le)
      (by rw [installOrder, counter]; omega) ?_ ?_
    · refine ⟨by rw [counter]; exact hcl, by simp [handedOver], by simp [holdsTurn],
        by simp [handedOver], fun hc => ?_⟩
      rw [visible]
      rcases hphase with ⟨rfl, rfl⟩ | ⟨e, rfl, rfl⟩
      · exact hp.published rfl
      · simp [committed] at hc
    · intro t' d ph hne hd hdp
      refine ⟨by rw [counter]; exact hdp.le_counter, fun hh => ?_, fun hh => ?_,
        by rw [visible]; exact hdp.unpublished, by rw [visible]; exact hdp.published⟩
      · have h1 := h.lt_of_turn call hd hne hturn hh
        have h2 := hdp.pending hh
        omega
      · have h1 := hdp.turn hh
        omega
  | retained _ _ _ _ calls counter visible installOrder =>
    refine ⟨by rw [visible, counter]; exact h.visible_le,
      by rw [installOrder, counter]; exact h.order_le, fun t c phase hc => ?_, ?_⟩
    · rw [calls] at hc
      exact (h.placed t c phase hc).of_frame counter visible installOrder
    · rw [calls]
      exact h.disjoint

theorem Ordered.visible_mono {asserted : Prop} (h : Ordered s) (he : Effect gc asserted left s s') :
    s.visible ≤ s'.visible := by
  cases he with
  | quiet _ _ _ _ _ frame => exact frame.visible.ge
  | moved _ _ _ _ _ _ _ _ frame => exact frame.visible.ge
  | published t c _ call =>
    have hunp := (h.placed t c _ call).unpublished rfl rfl
    have hle := base_le_commitLsn c
    omega
  | opened | normalized | sidechannel | rolledBack | advanced | retained => omega

theorem Ordered.call_unique (h : Ordered s) (hc : s.calls t = .commit c phase)
    (hc' : s.calls t' = .commit c' phase') (h1 : c.range.base ≤ lsn)
    (h2 : lsn ≤ c.commitLsn) (h1' : c'.range.base ≤ lsn) (h2' : lsn ≤ c'.commitLsn) : t = t' := by
  by_contra hne
  rcases h.disjoint t t' c c' phase phase' hne hc hc' with h₃ | h₃ <;> omega

end ArcGraph.Mvcc
