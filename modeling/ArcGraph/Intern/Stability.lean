import ArcGraph.Foundation.System
import ArcGraph.Intern.Table

/-!
# Ids that durable data may refer to

`intern_logged` publishes a binding, looks for a proof that it is durable, appends an
`InternString` record if there is none, and marks the proof when the append has returned.
Other calls, unlogged interns and checkpoints run between these steps. A checkpoint
captures the names of the table and lets the log before it go; a restart installs the
captured names and then the records that are left.

The run keeps every proven binding among the captured names and the log, and these among the
bindings of the table (`Durable`). So an id that was returned keeps its name over all later
restarts, while the allocator has ids left (`returned_ids_stable`). A name without a record
takes another id after a restart, so that few names can use up all ids; then every new name
gets the last one (`exhausted_ids_collide`).
-/

namespace ArcGraph.Intern
open Foundation List InternTable

/-- Where a call of `intern_logged` is. -/
inductive Phase
  | published
  | unproven
  | appended

/-- `returned` keeps what calls have returned, over all epochs. -/
structure World where
  table : InternTable := {}
  log : List Binding := []
  checkpoint : List Binding := []
  /-- The captured names, and the length of the log at the capture. -/
  capture : Option (List Binding × Nat) := none
  calls : Nat → Option (Binding × Phase) := fun _ => none
  returned : List Binding := []

inductive Action
  | intern (tenant : Nat) (name : String)
  | internLogged (thread tenant : Nat) (name : String)
  | testProof (thread : Nat)
  /-- An append that fails ends the call. -/
  | append (thread : Nat) (fails : Bool)
  | markProof (thread : Nat)
  | capture (names : List Binding)
  /-- The captured names become the checkpoint, and this many records are discarded. -/
  | publish (discarded : Nat)
  | restart

variable (s : World)

namespace World

def setCall (thread : Nat) (call : Option (Binding × Phase)) : World :=
  { s with calls := Function.update s.calls thread call }

def finish (thread : Nat) (b : Binding) : World :=
  { s.setCall thread none with returned := b :: s.returned }

def step : Action → Option World
  | .intern tenant name => some { s with table := (s.table.internIsNew tenant name).1 }
  | .internLogged thread tenant name =>
    match s.calls thread with
    | some _ => none
    | none =>
      let (table, id, _) := s.table.internIsNew tenant name
      some ({ s with table }.setCall thread (some (⟨tenant, id, name⟩, .published)))
  | .testProof thread =>
    match s.calls thread with
    | some (b, .published) =>
      if (b.tenant, b.id) ∈ s.table.logged then some (s.finish thread b)
      else some (s.setCall thread (some (b, .unproven)))
    | _ => none
  | .append thread fails =>
    match s.calls thread with
    | some (b, .unproven) =>
      if fails then some (s.setCall thread none)
      else some ({ s with log := s.log ++ [b] }.setCall thread (some (b, .appended)))
    | _ => none
  | .markProof thread =>
    match s.calls thread with
    | some (b, .appended) =>
      some ({ s with
        table := { s.table with logged := (b.tenant, b.id) :: s.table.logged } }.finish
          thread b)
    | _ => none
  | .capture names =>
    if names.Perm s.table.names then some { s with capture := some (names, s.log.length) }
    else none
  | .publish discarded =>
    match s.capture with
    | some (names, covered) =>
      if discarded ≤ covered then
        some { s with checkpoint := names, log := s.log.drop discarded, capture := none }
      else none
    | none => none
  | .restart =>
    some
      { s with
        table := InternTable.restored (s.checkpoint ++ s.log)
        capture := none
        calls := fun _ => none }

/-- The tenant has fewer than `u32Max` ids. -/
def Room : Action → Prop
  | .intern tenant _ | .internLogged _ tenant _ => s.table.nextId tenant + 1 < u32Max
  | _ => True

end World

def interning : System World Action where
  init := {}
  step := World.step

/-! ## The invariant -/

open World

namespace World

def durable : List Binding := s.checkpoint ++ s.log

def CallOk : Binding × Phase → Prop
  | (b, .appended) => b ∈ s.durable
  | (b, _) => b ∈ s.table.bindings

/-- The captured names are those of the table, and have all that was on disk at the
capture. -/
structure Captured (s : World) (names : List Binding) (covered : Nat) : Prop where
  covered_le : covered ≤ s.log.length
  checkpoint : s.checkpoint ⊆ names
  log : s.log.take covered ⊆ names
  names : names ⊆ s.table.bindings

structure Durable (s : World) : Prop where
  table : s.table.Sound
  kept : s.durable ⊆ s.table.bindings
  proven : ∀ p ∈ s.table.logged, ∃ b ∈ s.durable, (b.tenant, b.id) = p
  captured : ∀ names covered, s.capture = some (names, covered) → s.Captured names covered
  calls : ∀ thread call, s.calls thread = some call → s.CallOk call
  returned : s.returned ⊆ s.durable

variable {s s' : World} {a : Action}

theorem CallOk.mono {call : Binding × Phase} (h : s.CallOk call)
    (hbindings : s.table.bindings ⊆ s'.table.bindings) (hdurable : s.durable ⊆ s'.durable) :
    s'.CallOk call := by
  obtain ⟨b, phase⟩ := call
  cases phase with
  | appended => exact hdurable h
  | _ => exact hbindings h

section
variable (h : Durable s) {b : Binding} (thread : Nat)
include h

namespace Durable

theorem setCall {call : Option (Binding × Phase)}
    (hcall : ∀ c, call = some c → s.CallOk c) : Durable (s.setCall thread call) where
  table := h.table
  kept := h.kept
  proven := h.proven
  captured names covered hc := { h.captured names covered hc with }
  calls other c hc := by
    rcases of_update_eq hc with ⟨-, heq⟩ | ⟨-, hold⟩
    · exact hcall c heq
    · exact h.calls other c hold
  returned := h.returned

theorem finish (hb : b ∈ s.durable) : Durable (s.finish thread b) := by
  have hset : Durable (s.setCall thread none) := h.setCall thread (by simp)
  refine ⟨hset.table, hset.kept, hset.proven, ?_, ?_, ?_⟩
  · exact fun names covered hc => { hset.captured names covered hc with }
  · exact fun other c hc => (hset.calls other c hc).mono (fun _ hx => hx) fun _ hx => hx
  · exact cons_subset.mpr ⟨hb, h.returned⟩

theorem setTable {table : InternTable} (htable : table.Sound)
    (hsub : s.table.bindings ⊆ table.bindings) (hlogged : table.logged = s.table.logged) :
    Durable { s with table } where
  table := htable
  kept := Subset.trans h.kept hsub
  proven p hp := h.proven p (hlogged ▸ hp)
  captured names covered hc :=
    { h.captured names covered hc with
      names := Subset.trans (h.captured names covered hc).names hsub }
  calls thread call hc := (h.calls thread call hc).mono hsub fun _ hb => hb
  returned := h.returned

theorem appendLog (hb : b ∈ s.table.bindings) : Durable { s with log := s.log ++ [b] } := by
  have hgrow : s.durable ⊆ durable { s with log := s.log ++ [b] } := by
    intro a ha
    simp only [durable, ← append_assoc]
    exact mem_append_left _ ha
  refine ⟨h.table, ?_, ?_, ?_, ?_, Subset.trans h.returned hgrow⟩
  · simp only [durable, ← append_assoc]
    refine append_subset.mpr ⟨h.kept, ?_⟩
    simpa using hb
  · intro p hp
    obtain ⟨a, ha, hp⟩ := h.proven p hp
    exact ⟨a, hgrow ha, hp⟩
  · intro names covered hc
    have hcapture := h.captured names covered hc
    refine ⟨?_, hcapture.checkpoint, ?_, hcapture.names⟩
    · simpa using Nat.le_succ_of_le hcapture.covered_le
    · simpa only [take_append_of_le_length hcapture.covered_le] using hcapture.log
  · exact fun thread call hc => (h.calls thread call hc).mono (fun _ hx => hx) hgrow

/-- A binding with a proof is on disk: its id has one name. -/
theorem mem_durable_of_logged
    (hb : b ∈ s.table.bindings) (hlogged : (b.tenant, b.id) ∈ s.table.logged) : b ∈ s.durable := by
  obtain ⟨a, ha, heq⟩ := h.proven _ hlogged
  obtain ⟨htenant, hid⟩ := Prod.mk.inj heq
  have hname := (h.table.consistent a (h.kept ha) b hb htenant).mp hid
  cases a
  cases b
  cases htenant
  cases hid
  cases hname
  exact ha

theorem markProof (hb : b ∈ s.durable) :
    Durable { s with
      table := { s.table with logged := (b.tenant, b.id) :: s.table.logged } } where
  table := ⟨h.table.consistent, h.table.allocated⟩
  kept := h.kept
  proven := forall_mem_cons.mpr ⟨⟨b, hb, rfl⟩, h.proven⟩
  captured names covered hc := { h.captured names covered hc with }
  calls thread call hc := (h.calls thread call hc).mono (fun _ hx => hx) fun _ hx => hx
  returned := h.returned

theorem publish {names : List Binding} {covered discarded : Nat}
    (hc : s.capture = some (names, covered)) (hle : discarded ≤ covered) :
    Durable { s with checkpoint := names, log := s.log.drop discarded, capture := none } := by
  have hcapture := h.captured names covered hc
  -- a record is either discarded, and then captured, or still there
  have hmoves : s.durable ⊆ names ++ s.log.drop discarded := by
    intro b hb
    rcases mem_append.mp hb with hb | hb
    · exact mem_append_left _ (hcapture.checkpoint hb)
    · rw [← take_append_drop discarded s.log] at hb
      rcases mem_append.mp hb with hb | hb
      · exact mem_append_left _ (hcapture.log (take_subset_take_left _ hle hb))
      · exact mem_append_right _ hb
  refine ⟨h.table, ?_, ?_, ?_, ?_, Subset.trans h.returned hmoves⟩
  · refine append_subset.mpr ⟨hcapture.names, fun b hb => ?_⟩
    exact h.kept (mem_append_right _ (mem_of_mem_drop hb))
  · intro p hp
    obtain ⟨b, hb, hp⟩ := h.proven p hp
    exact ⟨b, hmoves hb, hp⟩
  · intro names covered hnone
    cases hnone
  · exact fun thread call hcall => (h.calls thread call hcall).mono (fun _ hx => hx) hmoves

theorem restart :
    Durable { s with
      table := restored (s.checkpoint ++ s.log)
      capture := none
      calls := fun _ => none } := by
  have hinstalled : InternTable.Installed (s.checkpoint ++ s.log) _ :=
    restored_spec fun b hb => (h.table.allocated b (h.kept hb)).1
  refine ⟨⟨?_, hinstalled.allocated⟩, ?_, hinstalled.logged, ?_, ?_, h.returned⟩
  · exact h.table.consistent.subset fun b hb => h.kept ((hinstalled.mem_iff b).mp hb)
  · exact fun b hb => (hinstalled.mem_iff b).mpr hb
  · intro names covered hnone
    cases hnone
  · intro thread call hnone
    cases hnone

end Durable
end

theorem durable_init : Durable {} where
  table := ⟨by simp [InternTable.Consistent], by simp⟩
  kept := by simp [durable]
  proven := by simp
  captured := by simp
  calls := by simp
  returned := by simp

theorem Durable.step (h : Durable s) (hroom : s.Room a)
    (hstep : s.step a = some s') : Durable s' := by
  cases a with simp only [step] at hstep
  | intern _ name =>
    cases hstep
    obtain ⟨hsound, -, hsub, hlogged⟩ := internIsNew_spec h.table name hroom
    exact h.setTable hsound hsub hlogged
  | internLogged thread _ name =>
    split at hstep
    · cases hstep
    · cases hstep
      obtain ⟨hsound, hmem, hsub, hlogged⟩ := internIsNew_spec h.table name hroom
      refine (h.setTable hsound hsub hlogged).setCall thread fun c hc => ?_
      cases hc
      exact hmem
  | testProof thread =>
    split at hstep
    · rename_i b hcall
      have hb : b ∈ s.table.bindings := h.calls thread _ hcall
      split at hstep
      · rename_i hlogged
        cases hstep
        exact h.finish thread (h.mem_durable_of_logged hb hlogged)
      · cases hstep
        refine h.setCall thread fun c hc => ?_
        cases hc
        exact hb
    · cases hstep
  | append thread =>
    split at hstep
    · rename_i b hcall
      split at hstep
      · cases hstep
        exact h.setCall thread fun c hc => by cases hc
      · cases hstep
        refine (h.appendLog (h.calls thread _ hcall)).setCall thread fun c hc => ?_
        cases hc
        exact mem_append_right _ (mem_append_right _ (mem_singleton.mpr rfl))
    · cases hstep
  | markProof thread =>
    split at hstep
    · rename_i b hcall
      cases hstep
      have hb : b ∈ s.durable := h.calls thread _ hcall
      exact (h.markProof hb).finish thread hb
    · cases hstep
  | capture names =>
    split at hstep
    · rename_i hperm
      cases hstep
      have hnames : ∀ b, b ∈ names ↔ b ∈ s.table.bindings := fun b =>
        hperm.mem_iff.trans (mem_names h.table.consistent)
      refine ⟨h.table, h.kept, h.proven, ?_, h.calls, h.returned⟩
      intro names' covered hc
      cases hc
      refine ⟨Nat.le_refl _, fun b hb => ?_, fun b hb => ?_, fun b hb => (hnames b).mp hb⟩
      · exact (hnames b).mpr (h.kept (mem_append_left _ hb))
      · exact (hnames b).mpr (h.kept (mem_append_right _ (mem_of_mem_take hb)))
    · cases hstep
  | publish =>
    split at hstep
    · rename_i names covered hc
      split at hstep
      · rename_i hle
        cases hstep
        exact h.publish hc hle
      · cases hstep
    · cases hstep
  | restart =>
    cases hstep
    exact h.restart

theorem returned_subset_of_step (hstep : s.step a = some s') : s.returned ⊆ s'.returned := by
  cases a <;> simp only [step] at hstep <;> (try split at hstep) <;>
    (try split at hstep) <;> cases hstep <;> simp [setCall, finish]

end World

/-- In every run, an id that `intern_logged` has returned for a name resolves to that name,
and interning the name gives that id, over all restarts. No two names of a tenant have one
id at any time. -/
theorem returned_ids_stable {s : World} (h : interning.Reach World.Room s) :
    (∀ b ∈ s.returned, s.table.resolve b.tenant b.id = some b.name ∧
      (s.table.internIsNew b.tenant b.name).2 = (b.id, false)) ∧
    (∀ tenant id name name', s.table.tryProbe tenant name = some id →
      s.table.tryProbe tenant name' = some id → name = name') ∧
    ∀ a s', s.step a = some s' → s.returned ⊆ s'.returned := by
  have hdurable : s.Durable :=
    h.invariant durable_init fun _ _ _ hd hroom hstep => hd.step hroom hstep
  refine ⟨fun b hb => ?_, fun tenant id name name' hp hp' => ?_, fun a s' hstep =>
    returned_subset_of_step hstep⟩
  · have hmem := hdurable.kept (hdurable.returned hb)
    refine ⟨resolve_of_mem hdurable.table.consistent hmem, ?_⟩
    simp only [internIsNew, tryProbe_of_mem hdurable.table.consistent hmem]
  · exact (hdurable.table.consistent _ (mem_of_tryProbe hp) _ (mem_of_tryProbe hp') rfl).mp rfl

instance (s : World) : DecidablePred s.Room
  | .intern .. | .internLogged .. => inferInstanceAs (Decidable (_ < _))
  | .testProof .. | .append .. | .markProof .. | .capture .. | .publish .. | .restart =>
    inferInstanceAs (Decidable True)

/-- Names `a` and `b` are interned, only `b` through the log; then the process restarts and
`a` is interned again. -/
def restartRun : List Action :=
  [.intern 0 "a", .internLogged 0 0 "b", .testProof 0, .append 0 false, .markProof 0,
    .restart, .intern 0 "a"]

theorem returned_ids_stable_restart :
    (interning.after World.Room restartRun).returned = [⟨0, 2, "b"⟩] ∧
      (interning.after World.Room restartRun).table.tryProbe 0 "a" = some 3 ∧
      (interning.after World.Room restartRun).table.resolve 0 2 = some "b" :=
  ⟨by decide +kernel, by decide +kernel,
    ((returned_ids_stable (.after (by decide +kernel))).1 ⟨0, 2, "b"⟩
      (by decide +kernel)).1⟩

/-! ## Exhausted ids -/

/-- The action interns no name but these. -/
def World.Among (names : List String) (_ : World) : Action → Prop
  | .intern _ name | .internLogged _ _ name => name ∈ names
  | _ => True

section
variable {names : List String} {s : World} (h : interning.Reach (World.Among names) s)
include h

variable {name : Nat → String} (hinj : Function.Injective name)
include hinj

/-- Names that the table lacks take one id each. -/
theorem reach_interned {n : Nat} (hnames : ∀ i < n, name i ∈ names)
    (hnew : ∀ i < n, s.table.tryProbe 0 (name i) = none)
    (hroom : s.table.nextId 0 + n ≤ u32Max) :
    ∃ table, interning.Reach (World.Among names) { s with table } ∧
      table.nextId 0 = s.table.nextId 0 + n ∧ table.logged = s.table.logged ∧
      ∀ i, n ≤ i → table.tryProbe 0 (name i) = s.table.tryProbe 0 (name i) := by
  induction n with
  | zero => exact ⟨s.table, h, rfl, rfl, fun _ _ => rfl⟩
  | succ n ih =>
    obtain ⟨table, hreach, hnext, hlogged, hprobe⟩ := ih (fun i hi => hnames i (by omega))
      (fun i hi => hnew i (by omega)) (by omega)
    have hnone := (hprobe n (Nat.le_refl n)).trans (hnew n (by omega))
    have hmod := Nat.mod_eq_of_lt (show table.nextId 0 + 1 < u32Max + 1 by omega)
    refine ⟨(table.internIsNew 0 (name n)).1,
      .step (a := .intern 0 (name n)) hreach (hnames n (by omega)) rfl, ?_⟩
    simp only [internIsNew, hnone, hmod, Function.update_self]
    refine ⟨by omega, hlogged, fun i hi => ?_⟩
    rw [← hprobe i (by omega)]
    simp [tryProbe, hinj.ne (show n ≠ i by omega)]

omit hinj in
theorem reach_logged {name : String} (hname : name ∈ names) (hcalls : s.calls 0 = none)
    (hnew : s.table.tryProbe 0 name = none) (hroom : s.table.nextId 0 + 1 ≤ u32Max)
    (hlogged : (0, s.table.nextId 0 + 1) ∉ s.table.logged) :
    ∃ s', interning.Reach (World.Among names) s' ∧
      s'.returned = ⟨0, s.table.nextId 0 + 1, name⟩ :: s.returned ∧
      s'.checkpoint ++ s'.log = s.checkpoint ++ s.log ++ [⟨0, s.table.nextId 0 + 1, name⟩] ∧
      s'.table.bindings = ⟨0, s.table.nextId 0 + 1, name⟩ :: s.table.bindings ∧
      s'.table.nextId 0 = s.table.nextId 0 + 1 := by
  have hmod := Nat.mod_eq_of_lt (show s.table.nextId 0 + 1 < u32Max + 1 by omega)
  have h1 := h.step (a := Action.internLogged 0 0 name) hname
    (by simp only [interning, step, hcalls, internIsNew, hnew, Nat.min_eq_left hroom, hmod]; rfl)
  have h2 := h1.step (a := Action.testProof 0) trivial
    (by simp [interning, step, setCall, hlogged]; rfl)
  have h3 := h2.step (a := Action.append 0 false) trivial
    (by simp [interning, step, setCall]; rfl)
  have h4 := h3.step (a := Action.markProof 0) trivial (by simp [interning, step]; rfl)
  exact ⟨_, h4, rfl, (append_assoc ..).symm, rfl, by simp [finish, setCall]⟩

end

/-- Half of the ids go to names without a record and one to a name with one; after a restart
the same names take the other half. A name is given the last id and returned, and so is the
next one, which takes its place. -/
theorem exhausted_ids_collide : ∃ names : List String, names.length < u32Max - 1 ∧
    ∃ s name other, interning.Reach (World.Among names) s ∧ name ≠ other ∧
      ⟨0, u32Max, name⟩ ∈ s.returned ∧ s.table.tryProbe 0 name = some u32Max ∧
      s.table.tryProbe 0 other = some u32Max ∧ s.table.resolve 0 u32Max = some other := by
  obtain ⟨k, m, hk, hm, hlt⟩ : ∃ k m, k + 1 + m + 1 = u32Max ∧ m ≤ k ∧ k + 3 < u32Max - 1 :=
    ⟨2147483648, 2147483645, by decide, by decide, by decide⟩
  obtain ⟨name, hinj⟩ : ∃ name : Nat → String, Function.Injective name :=
    ⟨fun i => .ofList (replicate i 'a'), fun i j h => by simpa using congrArg String.length h⟩
  have hnames : ∀ i < k + 3, name i ∈ (range (k + 3)).map name := fun i hi =>
    mem_map_of_mem (mem_range.mpr hi)
  obtain ⟨t1, h1, hnext1, hlogged1, hprobe1⟩ := reach_interned .init hinj (n := k)
    (fun i hi => hnames i (by omega)) (fun _ _ => rfl) (by show 0 + k ≤ _; omega)
  have hnext1 : t1.nextId 0 = k := hnext1.trans (Nat.zero_add k)
  obtain ⟨s2, h2, -, hdisk, -⟩ := reach_logged h1 (hnames k (by omega)) rfl
    (hprobe1 k (Nat.le_refl k)) (by dsimp only; omega) (by rw [hlogged1]; simp [interning])
  -- the restart finds one name, with the id in the middle
  have h3 := h2.step (a := Action.restart) trivial rfl
  have hrestored : restored (s2.checkpoint ++ s2.log) =
      ⟨[⟨0, k + 1, name k⟩], Function.update (fun _ => 0) 0 (k + 1), [(0, k + 1)]⟩ := by
    rw [hdisk, hnext1]
    simp [restored, internInstall, interning]
  rw [hrestored] at h3
  obtain ⟨t4, h4, hnext4, hlogged4, hprobe4⟩ := reach_interned h3 hinj (n := m)
    (fun i hi => hnames i (by omega))
    (fun i hi => by simp [tryProbe, hinj.ne (show k ≠ i by omega)]) (by simp; omega)
  have hnew4 : ∀ i, k < i → t4.tryProbe 0 (name i) = none := by
    intro i hi
    rw [hprobe4 i (by omega)]
    simp [tryProbe, hinj.ne (show k ≠ i by omega)]
  have hnext4 : t4.nextId 0 + 1 = u32Max := by
    simp only [Function.update_self] at hnext4
    omega
  obtain ⟨s5, h5, hreturned5, -, hbindings5, hnext5⟩ := reach_logged h4
    (hnames (k + 1) (by omega)) rfl (hnew4 _ (by omega)) (by simp [hnext4])
    (by rw [hlogged4]; simp [hnext4]; omega)
  simp only [hnext4] at hreturned5 hbindings5 hnext5
  have hne := hinj.ne (show k + 1 ≠ k + 2 by omega)
  have hnew5 : s5.table.tryProbe 0 (name (k + 2)) = none := by
    simpa [tryProbe, hbindings5, hne] using hnew4 (k + 2) (by omega)
  have hbindings6 : (s5.table.internIsNew 0 (name (k + 2))).1.bindings =
      ⟨0, u32Max, name (k + 2)⟩ :: ⟨0, u32Max, name (k + 1)⟩ :: t4.bindings := by
    simp [internIsNew, hnew5, hnext5, hbindings5]
  exact ⟨_, by simpa using hlt, _, name (k + 1), name (k + 2),
    h5.step (a := Action.intern 0 (name (k + 2))) (hnames _ (by omega)) rfl, hne,
    by simp [hreturned5], by simp [tryProbe, hbindings6, hne.symm],
    by simp [tryProbe, hbindings6], by simp [resolve, hbindings6]⟩

end ArcGraph.Intern
