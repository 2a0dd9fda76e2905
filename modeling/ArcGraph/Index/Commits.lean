import ArcGraph.Foundation.System
import ArcGraph.Index.PrimaryRollback

/-!
# Concurrent commits on one primary index

A v8 commit takes its LSN under the commit gate. Its builder then writes to the index
outside of that gate, one index write at a time under the index's own gate, and stages
the images of the pages it changed. The bundle with the images is appended to the WAL,
and the third phase runs in the order of the LSNs. A commit whose append failed drains
its mutation log there.

Between the index writes of one commit there may be writes of any other. `writes` is the
history of the writes that were made; nothing reads it but the statements.
-/

namespace ArcGraph.Index.Primary
open Foundation Function List Option System

/-! ## The system -/

abbrev TxnId := Nat

inductive BuilderOp
  | upsert (key : PrimaryKey) (value : PageSlot)
  | remove (key : PrimaryKey)
deriving DecidableEq

def BuilderOp.run : BuilderOp → PrimaryM (List (Nat × PrimaryPage))
  | .upsert key value => return (← upsertDeferred key value).2
  | .remove key => return (← removeDeferred key).2

def BuilderOp.apply (m : SlotMap) : BuilderOp → SlotMap
  | .upsert key value => update m key (some value)
  | .remove key => update m key none

inductive Phase
  | building
  | durable
  | finished
  | failed
deriving DecidableEq

structure Commit where
  lsn : Nat
  log : TxnMutationLog PrimaryPage
  scWrites : List SideChannelWrite
  staged : List (Nat × PrimaryPage)
  phase : Phase

/-- The page images of a commit in its bundle: of each page the last one. -/
def coalesceStagedPages : List (Nat × PrimaryPage) → List (Nat × PrimaryPage)
  | [] => []
  | image :: rest =>
    if rest.any (·.1 = image.1) then coalesceStagedPages rest
    else image :: coalesceStagedPages rest

structure Shared where
  index : State
  nextLsn : Nat
  installOrder : Nat
  commits : TxnId → Option Commit
  /-- The durable bundles in the order of the appends: commit LSN and page images. -/
  wal : List (Nat × List (Nat × PrimaryPage))
  writes : List (TxnId × BuilderOp)

inductive Action
  | allocate (t : TxnId)
  | write (t : TxnId) (op : BuilderOp)
  | append (t : TxnId)
  | finish (t : TxnId)
  | rollback (t : TxnId)
deriving DecidableEq

namespace Shared
variable (s : Shared)

def view (c : Commit) : State := { s.index with log := c.log, extra := c.scWrites }

def setCommit (t : TxnId) (c : Commit) : Shared :=
  { s with commits := update s.commits t (some c) }

/-- A write that fails is logged and skipped: its images are dropped, what it did to the
pages stays. -/
def write (t : TxnId) (c : Commit) (op : BuilderOp) : Shared :=
  match op.run (s.view c) with
  | .ok images index =>
    { s.setCommit t { c with
        log := index.log, scWrites := index.extra, staged := c.staged ++ images } with
      index := index
      writes := s.writes ++ [(t, op)] }
  | .error _ index =>
    { s.setCommit t { c with log := index.log, scWrites := index.extra } with index := index }

def step : Action → Option Shared
  | .allocate t =>
    match s.commits t with
    | none => some { s.setCommit t ⟨s.nextLsn, {}, [], [], .building⟩ with
        nextLsn := s.nextLsn + 1 }
    | some _ => none
  | .write t op =>
    match s.commits t with
    | some c => if c.phase = .building then some (s.write t c op) else none
    | none => none
  | .append t =>
    match s.commits t with
    | some c =>
      if c.phase = .building then
        some { s.setCommit t { c with phase := .durable } with
          wal := s.wal ++ [(c.lsn, coalesceStagedPages c.staged)] }
      else none
    | none => none
  | .finish t =>
    match s.commits t with
    | some c =>
      if c.phase = .durable ∧ s.installOrder + 1 = c.lsn then
        some { s.setCommit t { c with phase := .finished } with installOrder := c.lsn }
      else none
    | none => none
  | .rollback t =>
    match s.commits t with
    | some c =>
      if c.phase = .building ∧ s.installOrder + 1 = c.lsn then
        some { s.setCommit t { c with phase := .failed } with
          index := Index.rollback id (s.view c)
          installOrder := c.lsn }
      else none
    | none => none

end Shared

def commits : System Shared Action := ⟨⟨new, 1, 0, fun _ => none, [], []⟩, Shared.step⟩

inductive Moves (s : Shared) : Action → Shared → Prop
  | allocate {t : TxnId} (hnew : s.commits t = none) :
      Moves s (.allocate t) { s.setCommit t ⟨s.nextLsn, {}, [], [], .building⟩ with
        nextLsn := s.nextLsn + 1 }
  | write {t : TxnId} {c : Commit} {op : BuilderOp} (hc : s.commits t = some c)
      (hphase : c.phase = .building) : Moves s (.write t op) (s.write t c op)
  | append {t : TxnId} {c : Commit} (hc : s.commits t = some c) (hphase : c.phase = .building) :
      Moves s (.append t) { s.setCommit t { c with phase := .durable } with
        wal := s.wal ++ [(c.lsn, coalesceStagedPages c.staged)] }
  | finish {t : TxnId} {c : Commit} (hc : s.commits t = some c) (hphase : c.phase = .durable)
      (hturn : s.installOrder + 1 = c.lsn) :
      Moves s (.finish t) { s.setCommit t { c with phase := .finished } with
        installOrder := c.lsn }
  | rollback {t : TxnId} {c : Commit} (hc : s.commits t = some c) (hphase : c.phase = .building)
      (hturn : s.installOrder + 1 = c.lsn) :
      Moves s (.rollback t) { s.setCommit t { c with phase := .failed } with
        index := Index.rollback id (s.view c)
        installOrder := c.lsn }

def Action.txn : Action → TxnId
  | .allocate t => t
  | .write t _ => t
  | .append t => t
  | .finish t => t
  | .rollback t => t

variable {s : Shared} {a : Action}

theorem moves_of_step {s' : Shared} (h : s.step a = some s') : Moves s a s' := by
  -- only `allocate` starts without a commit
  cases hc : s.commits a.txn with
  | none =>
    cases a <;> simp only [Action.txn] at hc <;>
      simp only [Shared.step, hc, some.injEq, reduceCtorEq] at h
    exact h ▸ .allocate hc
  | some =>
    cases a <;> simp only [Action.txn] at hc <;> simp only [Shared.step, hc,
      ite_none_right_eq_some, some.injEq, reduceCtorEq] at h <;>
      obtain ⟨hphase, rfl⟩ := h
    · exact .write hc hphase
    · exact .append hc hphase
    · exact .finish hc hphase.1 hphase.2
    · exact .rollback hc hphase.1 hphase.2

theorem commits_of_step {s' : Shared} {t : TxnId} (h : s.step a = some s') (ht : t ≠ a.txn) :
    s'.commits t = s.commits t := by
  cases moves_of_step h with
  | @write t' c op =>
    rw [Shared.write]
    cases op.run (s.view c) <;> exact update_of_ne ht _ _
  | allocate | append | finish | rollback => exact update_of_ne ht _ _

/-! ## One write -/

section
variable {i : State} {m : SlotMap}

/-- A write of a builder on a well-formed index succeeds, and its commit's log knows what
it did. -/
theorem BuilderOp.run_spec (hi : Represents i m) (op : BuilderOp) :
    ∃ images i', op.run i = .ok images i' ∧ Represents i' (op.apply m) ∧
      RootStep config i i' ∧ Tracks i i' := by
  cases op with
  | upsert k v =>
    obtain ⟨i', result, staged, hrun, -, hi', hroots⟩ :=
      writeDeferred_represents hi .upsert k v (some v) (.inr rfl) fun h => by cases h
    refine ⟨staged, i', ?_, hi', hroots, (tracked_writeDeferred _ _ _).of_ok hrun⟩
    simp only [BuilderOp.run, upsertDeferred, bind_apply, hrun, pure_apply]
  | remove k =>
    obtain ⟨i', result, staged, hrun, -, hi', hroots⟩ :=
      writeDeferred_represents hi .remove k ⟨0, 0⟩ none (.inl rfl) fun h => by cases h
    refine ⟨staged, i', ?_, hi', hroots, (tracked_writeDeferred _ _ _).of_ok hrun⟩
    simp only [BuilderOp.run, removeDeferred, bind_apply, hrun, pure_apply]

end

/-! ## Rollback and the other commits -/

namespace Shared

def failed (s : Shared) (t : TxnId) : Bool :=
  match s.commits t with
  | some c => c.phase = .failed
  | none => false

/-- What the writes make of an empty map, without those of the commits that were rolled
back. -/
def valuesOf (s : Shared) (writes : List (TxnId × BuilderOp)) : SlotMap :=
  (writes.filter fun w => !s.failed w.1).foldl (fun m w => w.2.apply m) fun _ => none

def values (s : Shared) : SlotMap := s.valuesOf s.writes

end Shared

/-- A commit that rolls back made the last writes to the index, from its first on, and
its root grew at most once. Writes of others in between, if they leave the pages of its
log alone, would do no harm either. -/
def Isolated (s : Shared) : Action → Prop
  | .write t _ => ∀ c, s.commits t = some c → RootReady config (s.view c)
  | .rollback t => ∃ before mine, s.writes = before ++ mine ∧ (∀ w ∈ before, w.1 ≠ t) ∧
      ∀ w ∈ mine, w.1 = t
  | _ => True

/-- The log of the commit leads back to an index with the values `m`. -/
def LeadsBack (i : State) (m : SlotMap) : Prop :=
  ∃ b, Represents b m ∧ Undo b i ∧ RestoresRoot b.rootCache i ∧ b.nextPage ≤ i.nextPage

/-- The index has the values that its history says, and a commit that made the last writes
has a log that leads back to before them. -/
structure Sound (s : Shared) : Prop where
  represents : Represents s.index s.values
  known : ∀ w ∈ s.writes, s.commits w.1 ≠ none
  silent : ∀ t c, s.commits t = some c → (∀ w ∈ s.writes, w.1 ≠ t) → c.log = {}
  leadsBack : ∀ t c before mine, s.commits t = some c → s.writes = before ++ mine → mine ≠ [] →
    (∀ w ∈ before, w.1 ≠ t) → (∀ w ∈ mine, w.1 = t) → c.phase = .building →
    LeadsBack (s.view c) (s.valuesOf before)

open Shared
variable {s s' : Shared} {t t' : TxnId} {c c' : Commit} {op : BuilderOp} {i i' : State}
  {m : SlotMap} {before mine writes : List (TxnId × BuilderOp)}

theorem LeadsBack.rollback (h : LeadsBack i m) : Represents (Index.rollback id i) m := by
  obtain ⟨_, hb, hundo, hroot, _⟩ := h
  refine hb.same (rollback_pages id hundo) (hroot.rollback id) ?_
  rwa [(rollback_fields id i).2.1]

theorem LeadsBack.step (h : LeadsBack i m) (hready : RootReady config i)
    (hroots : RootStep config i i') (htracks : Tracks i i') : LeadsBack i' m := by
  obtain ⟨b, hb, hundo, hroot, hnext⟩ := h
  exact ⟨b, hb, htracks.undo b hundo, hroot.step hready hroots, hnext.trans htracks.nextPage⟩

theorem LeadsBack.same (h : LeadsBack i m) (hpages : i'.pages = i.pages) (hlog : i'.log = i.log)
    (hroot : i'.rootCache = i.rootCache) (hnext : i'.nextPage = i.nextPage) : LeadsBack i' m := by
  obtain ⟨b, hb, hundo, _, hnext'⟩ := h
  refine ⟨b, hb, hundo.same hpages hlog, ?_, hnext ▸ hnext'⟩
  rwa [RestoresRoot, hlog, hroot]

theorem leadsBack_of_empty (hi : Represents i m) (hlog : i.log = {}) : LeadsBack i m :=
  ⟨i, hi, (Undo.start i).same rfl hlog, .inl ⟨by rw [hlog], rfl⟩, le_rfl⟩

theorem Shared.valuesOf_congr
    (h : ∀ w ∈ writes, s'.failed w.1 = s.failed w.1) : s'.valuesOf writes = s.valuesOf writes := by
  rw [valuesOf, valuesOf, filter_congr fun w hw => by rw [h w hw]]

theorem Shared.valuesOf_append (h : s.failed t = false) :
    s.valuesOf (writes ++ [(t, op)]) = op.apply (s.valuesOf writes) := by
  simp [valuesOf, h]

theorem Shared.failed_setCommit (hc : s.commits t = some c)
    (hphase : c'.phase = .failed ↔ c.phase = .failed) :
    (s.setCommit t c').failed t' = s.failed t' := by
  by_cases ht : t' = t
  · subst ht
    simp [failed, setCommit, hc, hphase]
  · simp [failed, setCommit, update_of_ne ht]

theorem sound_init : Sound commits.init where
  represents := represents_new
  known := by simp [commits]
  silent := by simp [commits]
  leadsBack := by simp [commits]

/-- A move that replaces one commit, which has not written or is no longer building, and
leaves the history as it is. -/
theorem Sound.of_setCommit (h : Sound s)
    (hcommits : s'.commits = update s.commits t (some c')) (hwrites : s'.writes = s.writes)
    (hi : Represents s'.index s'.values) (hsilent : (∀ w ∈ s.writes, w.1 ≠ t) → c'.log = {})
    (hself : c'.phase ≠ .building ∨ ∀ w ∈ s.writes, w.1 ≠ t)
    (hothers : ∀ t' c'' before mine, t' ≠ t → s.writes = before ++ mine → mine ≠ [] →
      (∀ w ∈ mine, w.1 = t') → LeadsBack (s.view c'') (s.valuesOf before) →
      LeadsBack (s'.view c'') (s'.valuesOf before)) : Sound s' where
  represents := hi
  known w hw := by
    rw [hwrites] at hw
    by_cases ht : w.1 = t
    · simp [hcommits, ht]
    · rw [hcommits, update_of_ne ht]
      exact h.known w hw
  silent t' c'' hc hnone := by
    rw [hwrites] at hnone
    rw [hcommits] at hc
    rcases of_update_eq hc with ⟨rfl, ⟨⟩⟩ | ⟨-, hold⟩
    · exact hsilent hnone
    · exact h.silent t' c'' hold hnone
  leadsBack t' c'' before mine hc hsplit hmine hbefore hall hbuild := by
    rw [hwrites] at hsplit
    rw [hcommits] at hc
    rcases of_update_eq hc with ⟨rfl, ⟨⟩⟩ | ⟨ht, hold⟩
    · rcases hself with hself | hself
      · exact absurd hbuild hself
      · obtain ⟨w, hw⟩ := exists_mem_of_ne_nil _ hmine
        exact absurd (hall w hw) (hself w (hsplit ▸ mem_append_right _ hw))
    · exact hothers t' c'' before mine ht hsplit hmine hall
        (h.leadsBack t' c'' before mine hold hsplit hmine hbefore hall hbuild)

theorem Sound.allocate (h : Sound s) (hnew : s.commits t = none) :
    Sound { s.setCommit t ⟨s.nextLsn, {}, [], [], .building⟩ with nextLsn := s.nextLsn + 1 } := by
  have hvalues : ∀ writes, valuesOf { s.setCommit t ⟨s.nextLsn, {}, [], [], .building⟩ with
      nextLsn := s.nextLsn + 1 } writes = s.valuesOf writes := by
    refine fun writes => valuesOf_congr fun w _ => ?_
    by_cases ht : w.1 = t
    · simp [failed, setCommit, ht, hnew]
    · simp [failed, setCommit, update_of_ne ht]
  -- a new commit has not written
  refine h.of_setCommit rfl rfl ?_ (fun _ => rfl)
    (.inr fun w hw heq => h.known w hw (heq ▸ hnew)) fun _ _ _ _ _ _ _ _ hback => ?_
  · rw [values, hvalues]
    exact h.represents
  · rwa [hvalues]

theorem Sound.advance (h : Sound s) (hc : s.commits t = some c) (c' : Commit)
    (wal : List (Nat × List (Nat × PrimaryPage))) (order : Nat) (hlog : c'.log = c.log)
    (hphase : c'.phase = .durable ∨ c'.phase = .finished) (hold : c.phase ≠ .failed) :
    Sound { s.setCommit t c' with wal := wal, installOrder := order } := by
  have hnot : c'.phase ≠ .failed ∧ c'.phase ≠ .building := by
    rcases hphase with hphase | hphase <;> simp [hphase]
  have hvalues : ∀ writes, valuesOf { s.setCommit t c' with wal := wal, installOrder := order }
      writes = s.valuesOf writes := fun writes =>
    valuesOf_congr fun w _ => failed_setCommit hc (iff_of_false hnot.1 hold)
  refine h.of_setCommit rfl rfl ?_ (fun hnone => hlog.trans (h.silent t c hc hnone))
    (.inl hnot.2) fun _ _ _ _ _ _ _ _ hback => ?_
  · rw [values, hvalues]
    exact h.represents
  · rwa [hvalues]

theorem append_singleton_eq {α : Type} {l before mine : List α} {x : α} (hmine : mine ≠ [])
    (h : l ++ [x] = before ++ mine) : ∃ init, mine = init ++ [x] ∧ l = before ++ init := by
  obtain ⟨init, y, rfl⟩ := (eq_nil_or_concat mine).resolve_left hmine
  rw [concat_eq_append, ← append_assoc] at h
  obtain ⟨hl, hx⟩ := append_inj' h rfl
  exact ⟨init, by rw [concat_eq_append, hx], hl⟩

theorem Sound.write (h : Sound s) (hc : s.commits t = some c) (hphase : c.phase = .building)
    (hready : RootReady config (s.view c)) (op : BuilderOp) : Sound (s.write t c op) := by
  have hview : Represents (s.view c) s.values := h.represents.same rfl rfl le_rfl
  obtain ⟨images, i', hrun, hi', hroots, htracks⟩ := op.run_spec hview
  have hwrite : s.write t c op = { s.setCommit t { c with
      log := i'.log, scWrites := i'.extra, staged := c.staged ++ images } with
      index := i', writes := s.writes ++ [(t, op)] } := by
    rw [Shared.write, hrun]
  have hvalues : ∀ writes, (s.write t c op).valuesOf writes = s.valuesOf writes := by
    rw [hwrite]
    exact fun writes => valuesOf_congr fun w _ => failed_setCommit hc .rfl
  have hlive : s.failed t = false := by simp [failed, hc, hphase]
  have hcommits : ∀ t', t' ≠ t → (s.write t c op).commits t' = s.commits t' := by
    intro t' ht
    rw [hwrite]
    exact update_of_ne ht _ _
  have hself : (s.write t c op).commits t = some { c with
      log := i'.log, scWrites := i'.extra, staged := c.staged ++ images } := by
    rw [hwrite]
    exact update_self ..
  have hwrites : (s.write t c op).writes = s.writes ++ [(t, op)] := by rw [hwrite]
  have hindex : (s.write t c op).index = i' := by rw [hwrite]
  refine ⟨?_, fun w hw => ?_, fun t' c' hc' hnone => ?_,
    fun t' c' before mine hc' hsplit hmine hbefore hall hbuild => ?_⟩
  · rw [values, hvalues, hwrites, valuesOf_append hlive, hindex]
    exact hi'
  · by_cases ht : w.1 = t
    · simp [ht, hself]
    · rw [hcommits _ ht]
      rw [hwrites] at hw
      refine h.known w ((mem_append.mp hw).resolve_right fun hw => ht ?_)
      rw [mem_singleton.mp hw]
  · have ht : t' ≠ t := fun ht => hnone (t, op) (by rw [hwrites]; simp) ht.symm
    rw [hcommits t' ht] at hc'
    refine h.silent t' c' hc' fun w hw => hnone w ?_
    rw [hwrites]
    exact mem_append_left _ hw
  · rw [hwrites] at hsplit
    obtain ⟨init, rfl, hinit⟩ := append_singleton_eq hmine hsplit
    obtain rfl : t = t' := hall (t, op) (by simp)
    obtain rfl : _ = c' := some.inj (hself.symm.trans hc')
    rw [hvalues]
    have hback : LeadsBack (s.view c) (s.valuesOf before) := by
      by_cases hfirst : init = []
      · rw [hfirst, append_nil] at hinit
        subst hinit
        exact leadsBack_of_empty hview (h.silent t c hc hbefore)
      · exact h.leadsBack t c before init hc hinit hfirst hbefore
          (fun w hw => hall w (mem_append_left _ hw)) hphase
    refine (hback.step hready hroots htracks).same ?_ ?_ ?_ ?_ <;> simp [view, hindex]

theorem last_writer {before' mine' : List (TxnId × BuilderOp)}
    (h : before ++ mine = before' ++ mine') (hmine : mine ≠ []) (hmine' : mine' ≠ [])
    (hall : ∀ w ∈ mine, w.1 = t) (hall' : ∀ w ∈ mine', w.1 = t') : t = t' := by
  have hlast := congrArg getLast? h
  rw [getLast?_append, getLast?_append, getLast?_eq_some_getLast hmine,
    getLast?_eq_some_getLast hmine', some_or, some_or, some.injEq] at hlast
  rw [← hall _ (getLast_mem hmine), hlast, hall' _ (getLast_mem hmine')]

theorem Sound.rollback (h : Sound s) (hc : s.commits t = some c) (hphase : c.phase = .building)
    (hsplit : s.writes = before ++ mine)
    (hbefore : ∀ w ∈ before, w.1 ≠ t) (hall : ∀ w ∈ mine, w.1 = t) :
    Sound { s.setCommit t { c with phase := .failed } with
      index := Index.rollback id (s.view c)
      installOrder := c.lsn } := by
  have hview : Represents (s.view c) s.values := h.represents.same rfl rfl le_rfl
  have hempty : mine = [] → c.log = {} := by
    rintro rfl
    exact h.silent t c hc (by rwa [hsplit, append_nil])
  have hback : LeadsBack (s.view c) (s.valuesOf before) := by
    by_cases hmine : mine = []
    · rw [hmine, append_nil] at hsplit
      exact hsplit ▸ leadsBack_of_empty hview (hempty hmine)
    · exact h.leadsBack t c before mine hc hsplit hmine hbefore hall hphase
  set s' : Shared := { s.setCommit t { c with phase := .failed } with
    index := Index.rollback id (s.view c)
    installOrder := c.lsn } with hs'
  have hvalues : ∀ writes : List (TxnId × BuilderOp), (∀ w ∈ writes, w.1 ≠ t) →
      s'.valuesOf writes = s.valuesOf writes := by
    intro writes hne
    refine valuesOf_congr fun w hw => ?_
    rw [failed, failed, show s'.commits w.1 = _ from update_of_ne (hne w hw) _ _]
  have hdropped : s'.values = s.valuesOf before := by
    have hmine : mine.filter (fun w => !s'.failed w.1) = [] := by
      refine filter_eq_nil_iff.mpr fun w hw => ?_
      simp [failed, hall w hw, hs', setCommit]
    rw [← hvalues before hbefore, values, valuesOf, valuesOf,
      show s'.writes = before ++ mine from hsplit, filter_append, hmine, append_nil]
  refine h.of_setCommit rfl rfl (hdropped ▸ hback.rollback) (fun hnone => h.silent t c hc hnone)
    (.inl fun hbuild => by cases hbuild) fun t' c' before' mine' ht hsplit' hmine' hall' hlead => ?_
  -- another commit made the last writes, so this one made none
  have hmine : mine = [] := by
    by_contra hmine
    exact ht (last_writer (hsplit'.symm.trans hsplit) hmine' hmine hall' hall)
  have hlog := hempty hmine
  rw [hmine, append_nil] at hsplit
  have hundo : Undo (s.view c) (s.view c) := (Undo.start (s.view c)).same rfl hlog
  obtain ⟨hroot, hnext, -⟩ := rollback_fields id (s.view c)
  rw [hvalues before' fun w hw => hbefore w (by
    rw [← hsplit, hsplit']
    exact mem_append_left _ hw)]
  have hpages := rollback_pages id hundo
  exact hlead.same hpages rfl (hroot.trans (by simp [view, hlog])) hnext

theorem Sound.step (h : Sound s) (ha : Isolated s a) (hstep : s.step a = some s') : Sound s' := by
  cases moves_of_step hstep with
  | allocate hnew => exact h.allocate hnew
  | write hc hphase => exact h.write hc hphase (ha _ hc) _
  | append hc hphase => exact h.advance hc _ _ _ rfl (.inl rfl) (by simp [hphase])
  | finish hc hphase => exact h.advance hc _ _ _ rfl (.inr rfl) (by simp [hphase])
  | rollback hc hphase =>
    obtain ⟨_, _, hsplit, hbefore, hall⟩ := ha
    exact h.rollback hc hphase hsplit hbefore hall

/-- The index is well formed, and a lookup finds what the writes of the commits that were not
rolled back have left under the key. -/
theorem rollback_keeps_other_commits (hs : commits.Reach Isolated s) :
    WellFormed s.index ∧ ∀ k, lookup k s.index = .ok (s.values k) s.index := by
  have hsound : Sound s := hs.invariant sound_init fun s a s' h ha hstep => h.step ha hstep
  obtain ⟨es, hholds, hlive⟩ := hsound.represents
  exact ⟨⟨es, hholds⟩, fun k => by rw [lookup_spec hholds, hlive]⟩

/-- Commit 2 writes first, then commit 1 writes to the same page and is rolled back. -/
theorem rollback_keeps_other_commits_sharedLeaf :
    ∃ s : Shared,
      s.writes = [(2, .upsert ⟨1, .node, 8⟩ ⟨3, 4⟩), (1, .upsert ⟨1, .node, 7⟩ ⟨5, 6⟩)] ∧
      s.failed 1 = true ∧ WellFormed s.index ∧
      ∀ k, lookup k s.index = .ok (s.values k) s.index := by
  let s1 := commits.next commits.init (.allocate 1)
  let s2 := commits.next s1 (.allocate 2)
  let s3 := commits.next s2 (.write 2 (.upsert ⟨1, .node, 8⟩ ⟨3, 4⟩))
  let s4 := commits.next s3 (.write 1 (.upsert ⟨1, .node, 7⟩ ⟨5, 6⟩))
  let s5 := commits.next s4 (.rollback 1)
  have h2 : commits.Reach Isolated s2 :=
    .step (.step .init (a := .allocate 1) trivial (step_next rfl)) (a := .allocate 2) trivial
      (step_next rfl)
  have h3 : commits.Reach Isolated s3 := by
    refine .step h2 (a := .write 2 _) (fun c hc => .inl ?_) (step_next rfl)
    cases hc
    rfl
  have h4 : commits.Reach Isolated s4 := by
    refine .step h3 (a := .write 1 _) (fun c hc => .inl ?_) (step_next rfl)
    cases hc
    rfl
  have h5 : commits.Reach Isolated s5 :=
    .step h4 (a := .rollback 1) ⟨[(2, .upsert ⟨1, .node, 8⟩ ⟨3, 4⟩)],
      [(1, .upsert ⟨1, .node, 7⟩ ⟨5, 6⟩)], by decide +kernel, by simp, by simp⟩
      (step_next (by decide +kernel))
  exact ⟨s5, by decide +kernel, by decide +kernel, rollback_keeps_other_commits h5⟩

/-- Commit 2 writes to the page after commit 1 has captured it. The rollback of commit 1
takes the durable entry of commit 2 away. -/
theorem rollback_loses_other_commit :
    (commits.runIf (fun _ _ => True) commits.init [.allocate 1, .allocate 2,
        .write 1 (.upsert ⟨1, .node, 7⟩ ⟨5, 6⟩), .write 2 (.upsert ⟨1, .node, 8⟩ ⟨3, 4⟩), .append 2,
        .rollback 1, .finish 2]).map (fun s => (s.values ⟨1, .node, 8⟩,
          match lookup ⟨1, .node, 8⟩ s.index with
          | .ok found _ => found
          | .error _ _ => none)) = some (some ⟨3, 4⟩, none) := by
  decide +kernel

end ArcGraph.Index.Primary
