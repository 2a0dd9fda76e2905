import ArcGraph.Foundation.System
import ArcGraph.Redo.DirtyPageTable

/-!
# Marks and flushes

The dirty-page table between the operations that mark pages and the write-behind
passes that clean them. A page is changed before it is marked, both under its latch.
A pass observes entries, copies the pages as they are then, writes the copies home in
the order it took them, and completes each entry with the token it observed; other
operations come in between anywhere. Passes are admitted one at a time. A pass that
fails ends where it is and gives nothing back to the table.

`restore` is for bootstrap, where it puts the table of the last checkpoint into an
empty process and redo brings the pages up to it before any pass may copy them. The
step `restoreObserved` calls it in a running process instead, with what a failed pass
had observed. No run without that step loses an operation (`redo_covers_unflushed`);
a run with it may (`restore_loses_mark`).
-/

namespace ArcGraph.Redo
open Foundation List DirtyPageTable Function

inductive MarkKind
  | dirty
  | covering
deriving DecidableEq

def MarkKind.mark (kind : MarkKind) (t : DirtyPageTable) (key : DirtyPageKey) (opLsn : Nat) :
    DirtyPageTable :=
  match kind with
  | .dirty => (t.markDirty key opLsn).2
  | .covering => (t.markDirtyCovering key opLsn).2

/-- What has happened to a page: the LSNs of the operations marked on it in order, and
how many of them its image in memory and its image last written home contain. -/
structure PageHistory where
  ops : List Nat := []
  memory : Nat := 0
  home : Nat := 0

def PageHistory.unflushed (p : PageHistory) : List Nat := p.ops.drop p.home

structure FlushPass where
  observed : List DirtyPageSnapshot := []
  /-- Copies not yet written, with the number of operations in each. -/
  copied : List (DirtyPageSnapshot × Nat) := []
  written : List DirtyPageSnapshot := []

/-- The table in the metadata of a checkpoint, and how many operations each page had
when it was captured. -/
structure DptCapture where
  dpt : List DirtyPageSnapshot
  ops : DirtyPageKey → Nat

structure FlushState where
  dpt : DirtyPageTable
  pages : DirtyPageKey → PageHistory
  pass : Option FlushPass
  capture : DptCapture

inductive FlushAction
  | mark (kind : MarkKind) (key : DirtyPageKey) (opLsn : Nat)
  | admitPass
  | observe (key : DirtyPageKey)
  | copyPagePinned (token : DirtyPageSnapshot)
  | writePageHome
  | completeFlush (token : DirtyPageSnapshot)
  | endPass
  | metadataDptSnapshot
  /-- A crash, and `restore` in the new process. -/
  | restart
  | redo (kind : MarkKind) (key : DirtyPageKey)
  | restoreObserved
deriving DecidableEq

variable (s : FlushState)

namespace FlushState

def init : FlushState where
  dpt := .new
  pages _ := {}
  pass := none
  capture := ⟨[], fun _ => 0⟩

def touch (kind : MarkKind) (key : DirtyPageKey) (opLsn : Nat)
    (page : PageHistory) : FlushState :=
  { s with
    dpt := kind.mark s.dpt key opLsn
    pages := update s.pages key page }

/-- The operations after the capture are gone with the process, except for those the
home images contain; the log brings them back as new operations. -/
def restarted : FlushState where
  dpt := DirtyPageTable.new.restore s.capture.dpt
  pages key :=
    let p := s.pages key
    { ops := p.ops.take (max p.home (s.capture.ops key)), memory := p.home, home := p.home }
  pass := none
  capture := s.capture

def step : FlushAction → Option FlushState
  | .mark kind key opLsn =>
    let p := s.pages key
    if p.memory = p.ops.length then
      some (s.touch kind key opLsn { p with ops := p.ops ++ [opLsn], memory := p.memory + 1 })
    else none
  | .admitPass => if s.pass.isNone then some { s with pass := some {} } else none
  | .observe key => do
      let pass ← s.pass
      let token ← s.dpt.snapshotKey key
      return { s with pass := some { pass with observed := pass.observed ++ [token] } }
  | .copyPagePinned token => do
      let pass ← s.pass
      let p := s.pages token.key
      if token ∈ pass.observed ∧ p.memory = p.ops.length then
        some { s with pass := some { pass with copied := pass.copied ++ [(token, p.memory)] } }
      else none
  | .writePageHome => do
      let pass ← s.pass
      let (token, image) ← pass.copied.head?
      return { s with
        pages := update s.pages token.key { s.pages token.key with home := image }
        pass := some { pass with
          copied := pass.copied.tail
          written := pass.written ++ [token] } }
  | .completeFlush token => do
      let pass ← s.pass
      if token ∈ pass.written then some { s with dpt := (s.dpt.completeFlush token).2 } else none
  | .endPass => if s.pass.isSome then some { s with pass := none } else none
  | .metadataDptSnapshot =>
    some { s with capture := ⟨s.dpt.snapshot, fun key => (s.pages key).ops.length⟩ }
  | .restart => some s.restarted
  | .redo kind key => do
      let p := s.pages key
      let opLsn ← p.ops[p.memory]?
      return s.touch kind key opLsn { p with memory := p.memory + 1 }
  | .restoreObserved => do
      let pass ← s.pass
      return { s with dpt := s.dpt.restore pass.observed, pass := none }

end FlushState

def flushing : System FlushState FlushAction where
  init := .init
  step := FlushState.step

/-- What `mark_dirty` asserts of its callers: no mark lies below the page's recovery
LSN. `mark_dirty_covering` takes any LSN. -/
def MarksInOrder : FlushAction → Prop
  | .mark .dirty key opLsn => (s.dpt.get key).all (fun e => e.recLsn ≤ opLsn) = true
  | _ => True

instance (s : FlushState) (a : FlushAction) : Decidable (MarksInOrder s a) := by
  unfold MarksInOrder
  split <;> infer_instance

/-- `restore` is called at bootstrap only. -/
def Disciplined (a : FlushAction) : Prop :=
  MarksInOrder s a ∧ a ≠ .restoreObserved

instance (s : FlushState) (a : FlushAction) : Decidable (Disciplined s a) :=
  inferInstanceAs (Decidable (_ ∧ _))

/-! ## One mark -/

namespace MarkKind
variable (kind : MarkKind) (t : DirtyPageTable) {key key' : DirtyPageKey} {opLsn : Nat}

theorem get_mark_ne (h : key' ≠ key) : (kind.mark t key opLsn).get key' = t.get key' := by
  cases kind <;> exact get_markWith_ne _ t opLsn h

@[simp] theorem dirtyGenClock_mark :
    (kind.mark t key opLsn).dirtyGenClock = t.dirtyGenClock + 1 := by
  cases kind <;> rfl

/-- A mark covers its own operation and whatever was covered before. -/
theorem get_mark_self (h : kind = .dirty → ∀ e, t.get key = some e → e.recLsn ≤ opLsn) :
    ∃ e, (kind.mark t key opLsn).get key = some e ∧ e.dirtyGen = t.dirtyGenClock + 1 ∧
      e.recLsn ≤ opLsn ∧ (∀ e', t.get key = some e' → e.recLsn ≤ e'.recLsn) ∧
      (e.recLsn = opLsn ∨ ∃ e', t.get key = some e' ∧ e.recLsn = e'.recLsn) := by
  cases kind with
  | dirty =>
    refine ⟨_, get_markWith_self _ t key opLsn, rfl, ?_⟩
    cases hget : t.get key with
    | none => simp
    | some e => simpa using h rfl e hget
  | covering =>
    refine ⟨_, get_markWith_self _ t key opLsn, rfl, ?_⟩
    cases hget : t.get key with
    | none => simp
    | some =>
      simp only [Option.map_some, Option.getD_some, Option.some.injEq, forall_eq', exists_eq_left']
      exact ⟨min_le_right _ _, min_le_left _ _, (min_choice _ _).symm⟩

end MarkKind

/-! ## The invariant -/

variable {key : DirtyPageKey} {opLsn : Nat}

open PageHistory

namespace FlushState

structure PageSound (dpt : DirtyPageTable) (key : DirtyPageKey) (p : PageHistory) : Prop where
  home_le : p.home ≤ p.memory
  memory_le : p.memory ≤ p.ops.length
  covered : ∀ lsn ∈ p.unflushed, ∃ e, dpt.get key = some e ∧ e.recLsn ≤ lsn
  recLsn_mem : ∀ e, dpt.get key = some e → e.recLsn ∈ p.ops
  dirtyGen_le : ∀ e, dpt.get key = some e → e.dirtyGen ≤ dpt.dirtyGenClock

def Current (dpt : DirtyPageTable) (token : DirtyPageSnapshot) : Prop :=
  ∃ e, dpt.get token.key = some e ∧ e.dirtyGen = token.dirtyGen

/-- A copy holds every operation of its page, unless the page was marked after the
token; a written one has made the home image such a copy. -/
structure PassSound (s : FlushState) (pass : FlushPass) : Prop where
  dirtyGen_le : ∀ token ∈ pass.observed, token.dirtyGen ≤ s.dpt.dirtyGenClock
  copied_observed : ∀ c ∈ pass.copied, c.1 ∈ pass.observed
  written_observed : ∀ token ∈ pass.written, token ∈ pass.observed
  home_le_copied : ∀ c ∈ pass.copied, (s.pages c.1.key).home ≤ c.2
  copied_le : ∀ c ∈ pass.copied, c.2 ≤ (s.pages c.1.key).memory
  copied_ascending : pass.copied.Pairwise fun c c' => c.1.key = c'.1.key → c.2 ≤ c'.2
  copied_complete : ∀ c ∈ pass.copied, Current s.dpt c.1 →
    c.2 = (s.pages c.1.key).ops.length
  written_complete : ∀ token ∈ pass.written, Current s.dpt token →
    (s.pages token.key).home = (s.pages token.key).ops.length

structure CaptureSound (pages : DirtyPageKey → PageHistory) (capture : DptCapture) : Prop where
  nodup : (capture.dpt.map (·.key)).Nodup
  ops_le : ∀ key, capture.ops key ≤ (pages key).ops.length
  covered : ∀ key, ∀ lsn ∈ ((pages key).ops.take (capture.ops key)).drop (pages key).home,
    ∃ snap ∈ capture.dpt, snap.key = key ∧ snap.recLsn ≤ lsn
  recLsn_mem : ∀ snap ∈ capture.dpt,
    snap.recLsn ∈ (pages snap.key).ops.take (capture.ops snap.key)

structure Sound (s : FlushState) : Prop where
  page : ∀ key, PageSound s.dpt key (s.pages key)
  pass : ∀ pass, s.pass = some pass → PassSound s pass
  capture : CaptureSound s.pages s.capture

theorem sound_init : Sound init where
  page key := ⟨le_rfl, le_rfl, by simp [init, unflushed], by simp [init], by simp [init]⟩
  pass pass h := by cases h
  capture := ⟨by simp [init], by simp [init], by simp [init], by simp [init]⟩

/-! ## Marks and redo -/

/-- What a page is after the operation `opLsn` has been applied to it. -/
structure Takes (p : PageHistory) (opLsn : Nat) (p' : PageHistory) : Prop where
  home_eq : p'.home = p.home
  memory_le : p.memory ≤ p'.memory
  memory_le_ops : p'.memory ≤ p'.ops.length
  ops_prefix : p.ops <+: p'.ops
  mem_ops : opLsn ∈ p'.ops
  unflushed : ∀ lsn ∈ p'.unflushed, lsn ∈ p.unflushed ∨ lsn = opLsn

variable {token : DirtyPageSnapshot} {pass : FlushPass}

section
variable {s : FlushState} {kind : MarkKind} {key : DirtyPageKey} {opLsn : Nat} {page : PageHistory}

theorem pages_touch_self : (s.touch kind key opLsn page).pages key = page :=
  update_self ..

theorem pages_touch_ne {key' : DirtyPageKey} (h : key' ≠ key) :
    (s.touch kind key opLsn page).pages key' = s.pages key' :=
  update_of_ne h ..

section
variable (hpage : Takes (s.pages key) opLsn page) (key' : DirtyPageKey)
include hpage key'

theorem home_touch : ((s.touch kind key opLsn page).pages key').home = (s.pages key').home := by
  by_cases hk : key' = key
  · subst hk
    rw [pages_touch_self, hpage.home_eq]
  · rw [pages_touch_ne hk]

theorem memory_le_touch :
    (s.pages key').memory ≤ ((s.touch kind key opLsn page).pages key').memory := by
  by_cases hk : key' = key
  · subst hk
    rw [pages_touch_self]
    exact hpage.memory_le
  · rw [pages_touch_ne hk]

theorem prefix_touch : (s.pages key').ops <+: ((s.touch kind key opLsn page).pages key').ops := by
  by_cases hk : key' = key
  · subst hk
    rw [pages_touch_self]
    exact hpage.ops_prefix
  · simp only [pages_touch_ne hk, prefix_refl]

end

theorem dirtyGenClock_le_touch :
    s.dpt.dirtyGenClock ≤ (s.touch kind key opLsn page).dpt.dirtyGenClock :=
  (Nat.le_succ _).trans (kind.dirtyGenClock_mark s.dpt).ge

theorem PageSound.touch_self (hp : PageSound s.dpt key (s.pages key))
    (horder : kind = .dirty → ∀ e, s.dpt.get key = some e → e.recLsn ≤ opLsn)
    (hpage : Takes (s.pages key) opLsn page) :
    PageSound (s.touch kind key opLsn page).dpt key page := by
  obtain ⟨e, he, hgen, hle, hcover, hfirst⟩ := kind.get_mark_self s.dpt horder
  refine ⟨hpage.home_eq ▸ hp.home_le.trans hpage.memory_le, hpage.memory_le_ops, ?_, ?_, ?_⟩
  · intro lsn hlsn
    refine ⟨e, he, ?_⟩
    rcases hpage.unflushed lsn hlsn with hold | rfl
    · obtain ⟨e', he', hle'⟩ := hp.covered lsn hold
      exact (hcover e' he').trans hle'
    · exact hle
  · intro e1 he1
    cases he.symm.trans he1
    rcases hfirst with heq | ⟨e', he', heq⟩
    · exact heq ▸ hpage.mem_ops
    · exact heq ▸ hpage.ops_prefix.subset (hp.recLsn_mem e' he')
  · intro e1 he1
    cases he.symm.trans he1
    exact hgen.le.trans (kind.dirtyGenClock_mark s.dpt).ge

theorem PageSound.touch_ne {key' : DirtyPageKey} (hp : PageSound s.dpt key' (s.pages key'))
    (hk : key' ≠ key) : PageSound (s.touch kind key opLsn page).dpt key' (s.pages key') := by
  have hget : (s.touch kind key opLsn page).dpt.get key' = s.dpt.get key' :=
    kind.get_mark_ne s.dpt hk
  refine ⟨hp.home_le, hp.memory_le, ?_, ?_, ?_⟩
  · simpa only [hget] using hp.covered
  · simpa only [hget] using hp.recLsn_mem
  · intro e he
    exact (hp.dirtyGen_le e (hget ▸ he)).trans dirtyGenClock_le_touch

/-- The generation of a mark is new, so that no earlier token is current for the page. -/
theorem current_of_touch (hgen : token.dirtyGen ≤ s.dpt.dirtyGenClock)
    (horder : kind = .dirty → ∀ e, s.dpt.get key = some e → e.recLsn ≤ opLsn)
    (h : Current (s.touch kind key opLsn page).dpt token) :
    token.key ≠ key ∧ Current s.dpt token := by
  obtain ⟨e, he, heq⟩ := h
  change (kind.mark s.dpt key opLsn).get token.key = some e at he
  by_cases hk : token.key = key
  · rw [hk] at he
    obtain ⟨_, he', _, -⟩ := kind.get_mark_self s.dpt horder
    rw [he] at he'
    cases he'
    omega
  · rw [kind.get_mark_ne s.dpt hk] at he
    exact ⟨hk, e, he, heq⟩

theorem PassSound.touch (hp : s.PassSound pass)
    (horder : kind = .dirty → ∀ e, s.dpt.get key = some e → e.recLsn ≤ opLsn)
    (hpage : Takes (s.pages key) opLsn page) : (s.touch kind key opLsn page).PassSound pass := by
  refine ⟨?_, hp.copied_observed, hp.written_observed, ?_, ?_, hp.copied_ascending, ?_, ?_⟩
  · intro token htoken
    exact (hp.dirtyGen_le token htoken).trans dirtyGenClock_le_touch
  · intro c hc
    exact (home_touch hpage _).trans_le (hp.home_le_copied c hc)
  · intro c hc
    exact (hp.copied_le c hc).trans (memory_le_touch hpage _)
  · intro c hc hcurrent
    obtain ⟨hk, hold⟩ := current_of_touch
      (hp.dirtyGen_le _ (hp.copied_observed c hc)) horder hcurrent
    rw [pages_touch_ne hk]
    exact hp.copied_complete c hc hold
  · intro token htoken hcurrent
    obtain ⟨hk, hold⟩ := current_of_touch
      (hp.dirtyGen_le _ (hp.written_observed token htoken)) horder hcurrent
    rw [pages_touch_ne hk]
    exact hp.written_complete token htoken hold

theorem CaptureSound.touch (hc : CaptureSound s.pages s.capture)
    (hpage : Takes (s.pages key) opLsn page) :
    CaptureSound (s.touch kind key opLsn page).pages s.capture := by
  have htake : ∀ key', ((s.touch kind key opLsn page).pages key').ops.take (s.capture.ops key') =
      (s.pages key').ops.take (s.capture.ops key') := by
    intro key'
    obtain ⟨_, hmore⟩ := prefix_touch hpage key'
    rw [← hmore, take_append_of_le_length (hc.ops_le key')]
  refine ⟨hc.nodup, ?_, ?_, ?_⟩
  · intro key'
    exact (hc.ops_le key').trans (prefix_touch hpage key').length_le
  · intro key' lsn hlsn
    rw [htake, home_touch hpage] at hlsn
    exact hc.covered key' lsn hlsn
  · intro snap hsnap
    exact (htake snap.key).symm ▸ hc.recLsn_mem snap hsnap

theorem Sound.touch (h : s.Sound)
    (horder : kind = .dirty → ∀ e, s.dpt.get key = some e → e.recLsn ≤ opLsn)
    (hpage : Takes (s.pages key) opLsn page) : (s.touch kind key opLsn page).Sound where
  page key' := by
    by_cases hk : key' = key
    · subst hk
      rw [pages_touch_self]
      exact (h.page key').touch_self horder hpage
    · rw [pages_touch_ne hk]
      exact (h.page key').touch_ne hk
  pass pass hpass := (h.pass pass hpass).touch horder hpage
  capture := h.capture.touch hpage

end

variable {s s' : FlushState} {pages : DirtyPageKey → PageHistory} {image : Nat} {kind : MarkKind}

theorem Sound.mark (h : s.Sound) (horder : MarksInOrder s (.mark kind key opLsn))
    (hstep : s.step (.mark kind key opLsn) = some s') : s'.Sound := by
  simp only [step] at hstep
  split at hstep
  · rename_i hmemory
    cases hstep
    refine h.touch ?_ ⟨rfl, Nat.le_succ _, ?_, prefix_append _ _, by simp, ?_⟩
    · rintro rfl e he
      simpa [MarksInOrder, he] using horder
    · simp [hmemory]
    · intro lsn hlsn
      have hle : (s.pages key).home ≤ (s.pages key).ops.length :=
        (h.page key).home_le.trans (h.page key).memory_le
      simpa [unflushed, drop_append_of_le_length hle] using hlsn
  · cases hstep

/-- Redo marks an operation that the home image lacks, so its LSN is covered already. -/
theorem Sound.redo (h : s.Sound) (hstep : s.step (.redo kind key) = some s') : s'.Sound := by
  obtain ⟨opLsn, hop, hstep⟩ := Option.bind_eq_some_iff.mp hstep
  cases hstep
  have hp := h.page key
  obtain ⟨hlt, _⟩ := List.getElem?_eq_some_iff.mp hop
  have hunflushed : opLsn ∈ (s.pages key).unflushed := by
    refine mem_of_getElem? (i := (s.pages key).memory - (s.pages key).home) ?_
    rw [unflushed, getElem?_drop, Nat.add_sub_cancel' hp.home_le, hop]
  refine h.touch ?_ ⟨rfl, Nat.le_succ _, hlt, prefix_refl _, mem_of_getElem? hop, ?_⟩
  · rintro - e he
    obtain ⟨_, he', hle⟩ := hp.covered opLsn hunflushed
    cases he.symm.trans he'
    exact hle
  · intro lsn hlsn
    exact .inl hlsn

/-! ## The steps of a pass -/

theorem Sound.observe (h : s.Sound) (hstep : s.step (.observe key) = some s') : s'.Sound := by
  obtain ⟨pass, hpass, hstep⟩ := Option.bind_eq_some_iff.mp hstep
  obtain ⟨token, htoken, hstep⟩ := Option.bind_eq_some_iff.mp hstep
  cases hstep
  have hp := h.pass pass hpass
  obtain ⟨rfl, hget⟩ := snapshotKey_eq_some.mp htoken
  refine ⟨h.page, ?_, h.capture⟩
  rintro _ ⟨⟩
  refine { hp with dirtyGen_le := ?_, copied_observed := ?_, written_observed := ?_ }
  · refine forall_mem_append.mpr ⟨hp.dirtyGen_le, forall_mem_singleton.mpr ?_⟩
    exact (h.page token.key).dirtyGen_le _ hget
  · intro c hc
    exact mem_append_left _ (hp.copied_observed c hc)
  · intro token' htoken'
    exact mem_append_left _ (hp.written_observed token' htoken')

theorem Sound.copyPagePinned (h : s.Sound)
    (hstep : s.step (.copyPagePinned token) = some s') : s'.Sound := by
  obtain ⟨pass, hpass, hstep⟩ := Option.bind_eq_some_iff.mp hstep
  have hp := h.pass pass hpass
  dsimp only at hstep
  split at hstep
  · rename_i hguard
    obtain ⟨hobserved, hmemory⟩ := hguard
    cases hstep
    refine ⟨h.page, ?_, h.capture⟩
    rintro _ ⟨⟩
    -- what holds of the old copies, and of the new one, holds of all of them
    have hcons : ∀ {P : DirtyPageSnapshot × Nat → Prop}, (∀ c ∈ pass.copied, P c) →
        P (token, (s.pages token.key).memory) →
        ∀ c ∈ pass.copied ++ [(token, (s.pages token.key).memory)], P c := by
      intro P hold hnew
      exact forall_mem_append.mpr ⟨hold, forall_mem_singleton.mpr hnew⟩
    exact
      { hp with
        copied_observed := hcons hp.copied_observed hobserved
        home_le_copied := hcons hp.home_le_copied (h.page token.key).home_le
        copied_le := hcons hp.copied_le le_rfl
        copied_ascending := pairwise_append.mpr ⟨hp.copied_ascending,
          pairwise_singleton _ _, fun c hc c' hc' hk => by
            cases mem_singleton.mp hc'
            exact (hp.copied_le c hc).trans (hk ▸ le_rfl)⟩
        copied_complete := hcons hp.copied_complete fun _ => hmemory }
  · cases hstep

section
variable {pages : DirtyPageKey → PageHistory} {key : DirtyPageKey} {image : Nat}

def withHome (pages : DirtyPageKey → PageHistory) (key : DirtyPageKey) (image : Nat) :
    DirtyPageKey → PageHistory :=
  update pages key { pages key with home := image }

variable (key' : DirtyPageKey)

@[simp] theorem ops_withHome : (withHome pages key image key').ops = (pages key').ops := by
  by_cases hk : key' = key
  · subst hk
    simp [withHome]
  · simp [withHome, hk]

@[simp] theorem memory_withHome : (withHome pages key image key').memory = (pages key').memory := by
  by_cases hk : key' = key
  · subst hk
    simp [withHome]
  · simp [withHome, hk]

theorem home_withHome_self : (withHome pages key image key).home = image := by
  simp [withHome]

theorem home_withHome_ne {key' : DirtyPageKey} (h : key' ≠ key) :
    (withHome pages key image key').home = (pages key').home := by
  simp [withHome, h]

theorem home_le_withHome (h : (pages key).home ≤ image) (key' : DirtyPageKey) :
    (pages key').home ≤ (withHome pages key image key').home := by
  by_cases hk : key' = key
  · subst hk
    exact h.trans home_withHome_self.ge
  · exact (home_withHome_ne hk).ge

theorem unflushed_withHome (h : (pages key).home ≤ image) (key' : DirtyPageKey) {lsn : Nat}
    (hlsn : lsn ∈ (withHome pages key image key').unflushed) : lsn ∈ (pages key').unflushed := by
  rw [unflushed, ops_withHome] at hlsn
  exact drop_subset_drop_left _ (home_le_withHome h key') hlsn

end

theorem PageSound.withHome {dpt : DirtyPageTable}
    {key' : DirtyPageKey} (hp : PageSound dpt key' (pages key'))
    (hhome : (pages key).home ≤ image) (himage : image ≤ (pages key).memory) :
    PageSound dpt key' (withHome pages key image key') := by
  refine ⟨?_, ?_, ?_, ?_, hp.dirtyGen_le⟩
  · by_cases hk : key' = key
    · subst hk
      rw [home_withHome_self, memory_withHome]
      exact himage
    · rw [home_withHome_ne hk, memory_withHome]
      exact hp.home_le
  · simpa using hp.memory_le
  · intro lsn hlsn
    exact hp.covered lsn (unflushed_withHome hhome key' hlsn)
  · simpa using hp.recLsn_mem

theorem CaptureSound.withHome {capture : DptCapture} (hc : CaptureSound pages capture)
    (hhome : (pages key).home ≤ image) : CaptureSound (withHome pages key image) capture := by
  refine ⟨hc.nodup, ?_, ?_, ?_⟩
  · simpa using hc.ops_le
  · intro key' lsn hlsn
    rw [ops_withHome] at hlsn
    exact hc.covered key' lsn (drop_subset_drop_left _ (home_le_withHome hhome key') hlsn)
  · simpa using hc.recLsn_mem

/-- The oldest copy goes home: the images at home of a page only grow. -/
theorem PassSound.writeHome {rest : List (DirtyPageSnapshot × Nat)} (hp : s.PassSound pass)
    (hmemory : (s.pages token.key).memory ≤ (s.pages token.key).ops.length)
    (hcopied : pass.copied = (token, image) :: rest) (next : Option FlushPass) :
    PassSound { s with pages := withHome s.pages token.key image, pass := next }
      { pass with copied := rest, written := pass.written ++ [token] } := by
  have hmem : (token, image) ∈ pass.copied := hcopied ▸ mem_cons_self
  have hrest : ∀ c ∈ rest, c ∈ pass.copied := fun c hc => hcopied ▸ mem_cons_of_mem _ hc
  obtain ⟨hlater, hascending⟩ := pairwise_cons.mp (hcopied ▸ hp.copied_ascending)
  refine ⟨hp.dirtyGen_le, ?_, ?_, ?_, ?_, hascending, ?_, ?_⟩
  · intro c hc
    exact hp.copied_observed c (hrest c hc)
  · refine forall_mem_append.mpr ⟨hp.written_observed, forall_mem_singleton.mpr ?_⟩
    exact hp.copied_observed _ hmem
  · intro c hc
    by_cases hk : c.1.key = token.key
    · rw [hk, home_withHome_self]
      exact hlater c hc hk.symm
    · rw [home_withHome_ne hk]
      exact hp.home_le_copied c (hrest c hc)
  · intro c hc
    rw [memory_withHome]
    exact hp.copied_le c (hrest c hc)
  · intro c hc hcurrent
    rw [ops_withHome]
    exact hp.copied_complete c (hrest c hc) hcurrent
  · intro token' htoken' hcurrent
    rw [ops_withHome]
    rcases mem_append.mp htoken' with hold | hnew
    · -- an older image of the page cannot come after a complete one
      have hdone := hp.written_complete token' hold hcurrent
      by_cases hk : token'.key = token.key
      · have hhome : (s.pages token.key).home ≤ image := hp.home_le_copied _ hmem
        have himage : image ≤ (s.pages token.key).memory := hp.copied_le _ hmem
        rw [hk] at hdone ⊢
        rw [home_withHome_self]
        omega
      · rw [home_withHome_ne hk]
        exact hdone
    · cases mem_singleton.mp hnew
      rw [home_withHome_self]
      exact hp.copied_complete _ hmem hcurrent

theorem Sound.writePageHome (h : s.Sound) (hstep : s.step .writePageHome = some s') : s'.Sound := by
  obtain ⟨pass, hpass, hstep⟩ := Option.bind_eq_some_iff.mp hstep
  obtain ⟨⟨token, image⟩, hhead, hstep⟩ := Option.bind_eq_some_iff.mp hstep
  cases hstep
  have hp := h.pass pass hpass
  have hcopied := eq_cons_of_mem_head? hhead
  have hmem : (token, image) ∈ pass.copied := mem_of_mem_head? hhead
  have hhome := hp.home_le_copied _ hmem
  refine ⟨?_, ?_, h.capture.withHome hhome⟩
  · intro key
    exact (h.page key).withHome hhome (hp.copied_le _ hmem)
  · rintro _ ⟨⟩
    exact hp.writeHome (h.page token.key).memory_le hcopied _

section
variable {s : FlushState} {token : DirtyPageSnapshot}

theorem get_of_completeFlush (hgone : (s.dpt.completeFlush token).2.get token.key = none)
    {e : DirtyPageEntry}
    (h : (s.dpt.completeFlush token).2.get key = some e) : s.dpt.get key = some e := by
  by_cases hk : key = token.key
  · rw [hk, hgone] at h
    cases h
  · rwa [s.dpt.get_completeFlush_ne hk] at h

theorem PageSound.completeFlush {p : PageHistory} (hp : PageSound s.dpt key p)
    (hgone : (s.dpt.completeFlush token).2.get token.key = none)
    (hclean : key = token.key → p.unflushed = []) :
    PageSound (s.dpt.completeFlush token).2 key p := by
  refine ⟨hp.home_le, hp.memory_le, ?_, ?_, ?_⟩
  · intro lsn hlsn
    by_cases hk : key = token.key
    · rw [hclean hk] at hlsn
      cases hlsn
    · obtain ⟨e, he, hle⟩ := hp.covered lsn hlsn
      exact ⟨e, (s.dpt.get_completeFlush_ne hk).trans he, hle⟩
  · intro e he
    exact hp.recLsn_mem e (get_of_completeFlush hgone he)
  · intro e he
    exact (hp.dirtyGen_le e (get_of_completeFlush hgone he)).trans
      (s.dpt.dirtyGenClock_completeFlush token).ge

theorem PassSound.completeFlush (hp : s.PassSound pass)
    (hgone : (s.dpt.completeFlush token).2.get token.key = none) :
    PassSound { s with dpt := (s.dpt.completeFlush token).2 } pass := by
  have hcurrent : ∀ token', Current (s.dpt.completeFlush token).2 token' →
      Current s.dpt token' := by
    rintro token' ⟨e, he, heq⟩
    exact ⟨e, get_of_completeFlush hgone he, heq⟩
  refine { hp with dirtyGen_le := ?_, copied_complete := ?_, written_complete := ?_ }
  · intro token' htoken'
    exact (hp.dirtyGen_le token' htoken').trans (s.dpt.dirtyGenClock_completeFlush token).ge
  · intro c hc hcur
    exact hp.copied_complete c hc (hcurrent _ hcur)
  · intro token' htoken' hcur
    exact hp.written_complete token' htoken' (hcurrent _ hcur)

/-- An entry that is removed has its generation unchanged since its image was copied,
so that the home image lacks nothing. -/
theorem Sound.completeFlush (h : s.Sound)
    (hstep : s.step (.completeFlush token) = some s') : s'.Sound := by
  obtain ⟨pass, hpass, hstep⟩ := Option.bind_eq_some_iff.mp hstep
  split at hstep
  · rename_i hwritten
    cases hstep
    rcases s.dpt.get_completeFlush_self token with ⟨e, he, hgen, hgone⟩ | hsame
    · have hcomplete := (h.pass pass hpass).written_complete token hwritten ⟨e, he, hgen⟩
      refine ⟨?_, ?_, h.capture⟩
      · intro key
        refine (h.page key).completeFlush hgone ?_
        rintro rfl
        rw [unflushed, hcomplete, drop_length]
      · intro pass' hpass'
        exact (h.pass pass' hpass').completeFlush hgone
    · rw [hsame]
      exact h
  · cases hstep

end

/-! ## Checkpoint and restart -/

theorem Sound.metadataDptSnapshot (h : s.Sound) :
    Sound { s with capture := ⟨s.dpt.snapshot, fun key => (s.pages key).ops.length⟩ } where
  page := h.page
  pass pass hpass := { h.pass pass hpass with }
  capture := by
    refine ⟨s.dpt.nodup_keys_snapshot, fun _ => le_rfl, ?_, ?_⟩
    · intro key lsn hlsn
      rw [take_length] at hlsn
      obtain ⟨e, he, hle⟩ := (h.page key).covered lsn hlsn
      exact ⟨e.snapshot key, mem_snapshot.mpr he, rfl, hle⟩
    · intro snap hsnap
      rw [take_length]
      exact (h.page snap.key).recLsn_mem _ (mem_snapshot.mp hsnap)

theorem Sound.restarted (h : s.Sound) : s.restarted.Sound := by
  have hc := h.capture
  have hget : ∀ key e, s.restarted.dpt.get key = some e ↔ e.snapshot key ∈ s.capture.dpt :=
    fun key e => get_restore .new hc.nodup
  have hhome : ∀ key, (s.pages key).home ≤ (s.pages key).ops.length := fun key =>
    (h.page key).home_le.trans (h.page key).memory_le
  have htake : ∀ key, (s.restarted.pages key).ops.take (s.capture.ops key) =
      (s.pages key).ops.take (s.capture.ops key) := by
    intro key
    change ((s.pages key).ops.take (max _ _)).take _ = _
    rw [take_take, min_eq_left (le_max_right _ _)]
  constructor
  · intro key
    refine ⟨le_rfl, ?_, ?_, ?_, ?_⟩
    · change (s.pages key).home ≤ ((s.pages key).ops.take (max _ _)).length
      rw [length_take]
      exact le_min (le_max_left _ _) (hhome key)
    · intro lsn hlsn
      change lsn ∈ ((s.pages key).ops.take (max _ _)).drop (s.pages key).home at hlsn
      have hold : lsn ∈ ((s.pages key).ops.take (s.capture.ops key)).drop (s.pages key).home := by
        rcases le_total (s.capture.ops key) (s.pages key).home with hle | hle
        · rw [max_eq_left hle, drop_eq_nil_of_le (by simp)] at hlsn
          cases hlsn
        · rwa [max_eq_right hle] at hlsn
      obtain ⟨snap, hsnap, rfl, hle⟩ := hc.covered key lsn hold
      exact ⟨snap.entry, (hget _ _).mpr hsnap, hle⟩
    · intro e he
      have hmem := hc.recLsn_mem _ ((hget key e).mp he)
      exact take_subset_take_left _ (le_max_right _ _) hmem
    · intro e he
      exact dirtyGen_le_restore .new ((hget key e).mp he)
  · rintro pass ⟨⟩
  · refine ⟨hc.nodup, ?_, ?_, ?_⟩
    · intro key
      change s.capture.ops key ≤ ((s.pages key).ops.take (max _ _)).length
      rw [length_take]
      exact le_min (le_max_right _ _) (hc.ops_le key)
    · intro key lsn hlsn
      have hlsn' : lsn ∈ ((s.restarted.pages key).ops.take (s.capture.ops key)).drop
          (s.pages key).home := hlsn
      rw [htake] at hlsn'
      exact hc.covered key lsn hlsn'
    · intro snap hsnap
      exact (htake snap.key).symm ▸ hc.recLsn_mem snap hsnap

theorem Sound.step {a : FlushAction} (h : s.Sound) (hok : Disciplined s a)
    (hstep : s.step a = some s') : s'.Sound := by
  cases a with simp only [FlushState.step] at hstep
  | mark => exact h.mark hok.1 hstep
  | admitPass =>
    split at hstep
    · cases hstep
      refine ⟨h.page, ?_, h.capture⟩
      rintro _ ⟨⟩
      constructor <;> simp
    · cases hstep
  | observe => exact h.observe hstep
  | copyPagePinned => exact h.copyPagePinned hstep
  | writePageHome => exact h.writePageHome hstep
  | completeFlush => exact h.completeFlush hstep
  | endPass =>
    split at hstep
    · cases hstep
      refine ⟨h.page, ?_, h.capture⟩
      rintro _ ⟨⟩
    · cases hstep
  | metadataDptSnapshot =>
    cases hstep
    exact h.metadataDptSnapshot
  | restart =>
    cases hstep
    exact h.restarted
  | redo => exact h.redo hstep
  | restoreObserved => exact absurd rfl hok.2

theorem sound_of_reach (h : flushing.Reach Disciplined s) : s.Sound :=
  h.invariant sound_init fun _ _ _ hs hok hstep => hs.step hok hstep

end FlushState

/-- Marks with ascending LSNs meet the assertion of `mark_dirty`: the recovery LSN of
an entry is the LSN of an operation marked on the page. -/
theorem marksInOrder_of_ascending {s : FlushState} (h : flushing.Reach Disciplined s)
    (hle : ∀ lsn ∈ (s.pages key).ops, lsn ≤ opLsn)
    (kind : MarkKind) : MarksInOrder s (.mark kind key opLsn) := by
  cases kind with
  | covering => trivial
  | dirty =>
    cases hget : s.dpt.get key with
    | none => simp [MarksInOrder, hget]
    | some e =>
      have hmem := ((FlushState.sound_of_reach h).page key).recLsn_mem e hget
      simpa [MarksInOrder, hget] using hle _ hmem

/-- In every run that restores at bootstrap only, a page with an operation that its
home image lacks is in the table, and redo starts at or below the operation. -/
theorem redo_covers_unflushed {s : FlushState} (h : flushing.Reach Disciplined s)
    {key : DirtyPageKey} {lsn : Nat} (hlsn : lsn ∈ (s.pages key).unflushed) (checkpointLsn : Nat) :
    (s.dpt.get key).isSome = true ∧ s.dpt.redoLsn checkpointLsn ≤ lsn := by
  obtain ⟨e, he, hle⟩ := ((FlushState.sound_of_reach h).page key).covered lsn hlsn
  exact ⟨by simp [he], (redoLsn_le he checkpointLsn).trans hle⟩

def page1 : DirtyPageKey := ⟨1, 0, 1⟩

def page2 : DirtyPageKey := ⟨1, 0, 2⟩

/-- A page is marked again while its older image is on the way home. -/
def staleFlush : List FlushAction :=
  [.mark .dirty page1 10, .admitPass, .observe page1, .copyPagePinned ⟨page1, 10, 1⟩,
    .mark .dirty page1 20, .writePageHome, .completeFlush ⟨page1, 10, 1⟩, .endPass]

theorem redo_covers_staleFlush :
    ((flushing.after Disciplined staleFlush).dpt.get page1).isSome = true ∧
      (flushing.after Disciplined staleFlush).dpt.redoLsn 30 ≤ 20 :=
  redo_covers_unflushed (.after (by decide +kernel)) (by decide +kernel) 30

theorem marksInOrder_staleFlush :
    MarksInOrder (flushing.after Disciplined staleFlush) (.mark .dirty page1 20) :=
  marksInOrder_of_ascending (.after (by decide +kernel)) (by decide +kernel) .dirty

/-- A pass that observed one page fails, another page was marked meanwhile, and the
table is set back to what the pass observed; the next pass cleans it out. -/
def failedFlush : List FlushAction :=
  [.mark .dirty page1 10, .admitPass, .observe page1, .mark .dirty page2 20, .restoreObserved,
    .admitPass, .observe page1, .copyPagePinned ⟨page1, 10, 1⟩, .writePageHome,
    .completeFlush ⟨page1, 10, 1⟩]

theorem restore_loses_mark : ∃ s, flushing.Reach MarksInOrder s ∧
    20 ∈ (s.pages page2).unflushed ∧ s.dpt.get page2 = none ∧ 20 < s.dpt.redoLsn 30 :=
  ⟨flushing.after MarksInOrder failedFlush, .after (by decide +kernel), by decide +kernel⟩

end ArcGraph.Redo
