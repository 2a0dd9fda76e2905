import Mathlib.Data.List.Dedup

/-!
# The resident intern table

`InternTable` gives each name of a tenant an id. The forward and the reverse map are kept
as the list of installed bindings, newest first: an insert into either map hides an older
entry with its key and no other.

As long as the bindings are `Consistent`, the two maps are inverse to each other, and
looking up a binding of the list gives that binding.
-/

namespace ArcGraph.Intern
open List Function

def u32Max : Nat := 4294967295

/-- One entry of the maps, and the content of an `InternString` record. -/
structure Binding where
  tenant : Nat
  id : Nat
  name : String
deriving DecidableEq

structure InternTable where
  bindings : List Binding := []
  /-- `next_id`: the last id that was handed out, by tenant. -/
  nextId : Nat → Nat := fun _ => 0
  /-- The durable-proof set. -/
  logged : List (Nat × Nat) := []

namespace InternTable
variable (table : InternTable) (tenant : Nat) (name : String)

def tryProbe : Option Nat :=
  (table.bindings.find? fun b => b.tenant = tenant ∧ b.name = name).map (·.id)

def resolve (id : Nat) : Option String :=
  (table.bindings.find? fun b => b.tenant = tenant ∧ b.id = id).map (·.name)

/-- The counter wraps, the id saturates. -/
def internIsNew : InternTable × Nat × Bool :=
  match table.tryProbe tenant name with
  | some id => (table, id, false)
  | none =>
    let prev := table.nextId tenant
    let fresh := min (prev + 1) u32Max
    ({ table with
        bindings := ⟨tenant, fresh, name⟩ :: table.bindings
        nextId := update table.nextId tenant ((prev + 1) % (u32Max + 1)) },
      fresh, true)

def internInstall (b : Binding) : InternTable :=
  if b.id = 0 then table
  else
    { bindings := b :: table.bindings
      nextId := update table.nextId b.tenant (max (table.nextId b.tenant) b.id)
      logged := (b.tenant, b.id) :: table.logged }

/-- `for_each_name` enumerates the reverse map, in some order. -/
def names : List Binding :=
  (table.bindings.filter fun b => table.resolve b.tenant b.id = some b.name).dedup

def restored (durable : List Binding) : InternTable := durable.foldl internInstall {}

/-! ## Consistent bindings -/

/-- An id stands for one name and a name has one id. -/
def Consistent (bindings : List Binding) : Prop :=
  ∀ a ∈ bindings, ∀ b ∈ bindings, a.tenant = b.tenant → (a.id = b.id ↔ a.name = b.name)

theorem Consistent.subset {small large : List Binding} (h : Consistent large)
    (hsub : small ⊆ large) : Consistent small :=
  fun a ha b hb => h a (hsub ha) b (hsub hb)

variable {table} {b : Binding} {tenant : Nat} {durable : List Binding}

theorem mem_of_tryProbe {id : Nat} {name : String}
    (h : table.tryProbe tenant name = some id) : ⟨tenant, id, name⟩ ∈ table.bindings := by
  obtain ⟨b, hfind, rfl⟩ := Option.map_eq_some_iff.mp h
  have hb := find?_some (p := fun b : Binding => b.tenant = tenant ∧ b.name = name) hfind
  obtain ⟨rfl, rfl⟩ := of_decide_eq_true hb
  exact mem_of_find?_eq_some hfind

section
variable (hc : Consistent table.bindings)
include hc

theorem tryProbe_of_mem (hb : b ∈ table.bindings) : table.tryProbe b.tenant b.name = some b.id := by
  cases hp : table.tryProbe b.tenant b.name with
  | none =>
    have hnone := find?_eq_none.mp (Option.map_eq_none_iff.mp hp) b hb
    simp at hnone
  | some => exact congrArg some ((hc _ (mem_of_tryProbe hp) b hb rfl).mpr rfl)

theorem resolve_of_mem (hb : b ∈ table.bindings) : table.resolve b.tenant b.id = some b.name := by
  unfold resolve
  cases hf : table.bindings.find? fun a => a.tenant = b.tenant ∧ a.id = b.id with
  | none =>
    have hnone := find?_eq_none.mp hf b hb
    simp at hnone
  | some a =>
    have ha := find?_some (p := fun a : Binding => a.tenant = b.tenant ∧ a.id = b.id) hf
    obtain ⟨htenant, hid⟩ := of_decide_eq_true ha
    exact congrArg some ((hc a (mem_of_find?_eq_some hf) b hb htenant).mp hid)

theorem mem_names : b ∈ table.names ↔ b ∈ table.bindings := by
  rw [names, mem_dedup, mem_filter]
  exact ⟨And.left, fun hb => ⟨hb, by simpa using resolve_of_mem hc hb⟩⟩

end

/-! ## What the operations do to the bindings -/

/-- The table's maps agree, and no id is beyond the allocator. -/
structure Sound (table : InternTable) : Prop where
  consistent : Consistent table.bindings
  allocated : ∀ b ∈ table.bindings, 0 < b.id ∧ b.id ≤ table.nextId b.tenant

/-- Interning adds at most the binding that it returns. -/
theorem internIsNew_spec (h : table.Sound) (name : String)
    (hroom : table.nextId tenant + 1 < u32Max) : (table.internIsNew tenant name).1.Sound ∧
      (⟨tenant, (table.internIsNew tenant name).2.1, name⟩ : Binding) ∈
        (table.internIsNew tenant name).1.bindings ∧
      table.bindings ⊆ (table.internIsNew tenant name).1.bindings ∧
      (table.internIsNew tenant name).1.logged = table.logged := by
  unfold internIsNew
  cases hp : table.tryProbe tenant name with
  | some => exact ⟨h, mem_of_tryProbe hp, fun _ hb => hb, rfl⟩
  | none =>
    have hmin : min (table.nextId tenant + 1) u32Max = table.nextId tenant + 1 := by omega
    have hmod : (table.nextId tenant + 1) % (u32Max + 1) = table.nextId tenant + 1 :=
      Nat.mod_eq_of_lt (by omega)
    simp only [hmin, hmod]
    -- the name and the id of the new binding are not in the list yet
    have hnew : ∀ b ∈ table.bindings, b.tenant = tenant →
        b.id ≠ table.nextId tenant + 1 ∧ b.name ≠ name := by
      rintro b hb rfl
      constructor
      · have := (h.allocated b hb).2
        omega
      · rintro rfl
        rw [tryProbe_of_mem h.consistent hb] at hp
        cases hp
    refine ⟨⟨?_, ?_⟩, mem_cons_self, fun _ hb => mem_cons_of_mem _ hb, trivial⟩
    · intro a ha b hb htenant
      rcases mem_cons.mp ha with rfl | ha <;> rcases mem_cons.mp hb with rfl | hb
      · simp
      · have hb := hnew b hb htenant.symm
        exact iff_of_false hb.1.symm hb.2.symm
      · have ha := hnew a ha htenant
        exact iff_of_false ha.1 ha.2
      · exact h.consistent a ha b hb htenant
    · refine forall_mem_cons.mpr ⟨by simp, fun b hb => ?_⟩
      obtain ⟨hpos, hle⟩ := h.allocated b hb
      refine ⟨hpos, ?_⟩
      by_cases htenant : b.tenant = tenant
      · subst htenant
        simp only [update_self]
        omega
      · simpa only [update_of_ne htenant] using hle

structure Installed (durable : List Binding) (table : InternTable) : Prop where
  mem_iff : ∀ b, b ∈ table.bindings ↔ b ∈ durable
  allocated : ∀ b ∈ table.bindings, 0 < b.id ∧ b.id ≤ table.nextId b.tenant
  logged : ∀ p ∈ table.logged, ∃ b ∈ durable, (b.tenant, b.id) = p

theorem Installed.internInstall (h : Installed durable table)
    (hb : 0 < b.id) : Installed (durable ++ [b]) (table.internInstall b) := by
  unfold InternTable.internInstall
  rw [if_neg (Nat.ne_of_gt hb)]
  constructor
  · intro a
    simp [h.mem_iff, or_comm]
  · intro a ha
    by_cases htenant : a.tenant = b.tenant
    · simp only [htenant, update_self]
      rcases mem_cons.mp ha with rfl | ha
      · exact ⟨hb, Nat.le_max_right ..⟩
      · obtain ⟨hpos, hle⟩ := h.allocated a ha
        exact ⟨hpos, Nat.le_trans (htenant ▸ hle) (Nat.le_max_left ..)⟩
    · rcases mem_cons.mp ha with rfl | ha
      · exact absurd rfl htenant
      · simpa only [update_of_ne htenant] using h.allocated a ha
  · refine forall_mem_cons.mpr ⟨⟨b, by simp, rfl⟩, fun p hp => ?_⟩
    obtain ⟨a, ha, rfl⟩ := h.logged p hp
    exact ⟨a, mem_append_left _ ha, rfl⟩

theorem restored_spec (hpos : ∀ b ∈ durable, 0 < b.id) : Installed durable (restored durable) := by
  -- the fold is over the names still to come
  have hfold : ∀ (rest done : List Binding) (table : InternTable), Installed done table →
      (∀ b ∈ rest, 0 < b.id) → Installed (done ++ rest) (rest.foldl internInstall table) := by
    intro rest
    induction rest with
    | nil => exact fun done table h _ => by simpa using h
    | cons b _ ih =>
      intro done table h hpos
      have hnext := ih (done ++ [b]) (table.internInstall b)
        (h.internInstall (hpos b mem_cons_self))
        fun a ha => hpos a (mem_cons_of_mem _ ha)
      rwa [append_assoc, singleton_append] at hnext
  exact hfold durable [] {} ⟨by simp, by simp, by simp⟩ hpos

end InternTable
end ArcGraph.Intern
