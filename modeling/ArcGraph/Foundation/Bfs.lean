import Mathlib.Data.List.Basic

/-!
# Work queues and breadth-first layers

`drain` runs a loop that takes the head of a queue, updates a state and appends to the
queue. A queue that starts with a whole layer is run layer by layer (`drain_layer`), and a
potential that pays for every item appended bounds the fuel (`drain_empty`).

`layers` is what a breadth-first search finds: the nodes of each distance in the order of
their discovery. `mem_layer` says that they are the nodes whose shortest walk has that
length.
-/

namespace ArcGraph.Foundation
open List Nat
namespace Bfs

universe u v

section
variable {σ : Type u} {α : Type v} (body : σ → α → σ × List α) {fuel : Nat} {queue : List α} {s : σ}

/-- The state and what is left of the queue. -/
def drain : Nat → List α → σ → σ × List α
  | 0, queue, s => (s, queue)
  | _ + 1, [], s => (s, [])
  | fuel + 1, x :: queue, s => drain fuel (queue ++ (body s x).2) (body s x).1

/-- The items of a layer one after another: the state and all that they append. -/
def expand : List α → σ → σ × List α
  | [], s => (s, [])
  | x :: rest, s =>
    ((expand rest (body s x).1).1, (body s x).2 ++ (expand rest (body s x).1).2)

theorem drain_nil (fuel : Nat) (s : σ) : drain body fuel [] s = (s, []) := by
  cases fuel <;> rfl

theorem drain_layer (layer rest : List α) (fuel : Nat) (s : σ) :
    drain body (layer.length + fuel) (layer ++ rest) s =
      drain body fuel (rest ++ (expand body layer s).2) (expand body layer s).1 := by
  induction layer generalizing rest s with
  | nil => simp [expand]
  | cons _ _ ih =>
    rw [length_cons, Nat.add_right_comm, cons_append, drain, append_assoc, ih]
    simp only [expand, append_assoc]

/-- More fuel changes nothing once the queue has run empty. -/
theorem drain_add (h : (drain body fuel queue s).2 = []) (more : Nat) :
    drain body (fuel + more) queue s = drain body fuel queue s := by
  induction fuel generalizing queue s with
  | zero =>
    have hq : queue = [] := h
    rw [hq, drain_nil, drain_nil]
  | succ _ ih =>
    cases queue with
    | nil => rw [drain_nil, drain_nil]
    | cons =>
      rw [Nat.add_right_comm, drain, drain]
      exact ih h

/-- Fuel that covers the queue and a potential that pays for what is appended. -/
theorem drain_empty (potential : σ → Nat)
    (hpay : ∀ s x, potential (body s x).1 + (body s x).2.length ≤ potential s)
    (hfuel : queue.length + potential s ≤ fuel) : (drain body fuel queue s).2 = [] := by
  induction fuel generalizing queue s with
  | zero =>
    have hlen : queue.length = 0 := by omega
    rw [length_eq_zero_iff.mp hlen]
    rfl
  | succ _ ih =>
    cases queue with
    | nil => rfl
    | cons x =>
      rw [drain]
      apply ih
      have := hpay s x
      rw [length_append]
      rw [length_cons] at hfuel
      omega

/-- If layer after layer is run as `layer` says, the loop ends in the state before the first
empty layer. -/
theorem drain_layers (layer : Nat → List α) (state : Nat → σ)
    (hlayer : ∀ k, expand body (layer k) (state k) = (state (k + 1), layer (k + 1)))
    (h : (drain body fuel (layer 0) (state 0)).2 = []) :
    ∃ k, layer k = [] ∧ (drain body fuel (layer 0) (state 0)).1 = state k := by
  -- fuel enough for the layers before `k`
  have hrun : ∀ k, ∃ used, (∀ more, drain body (used + more) (layer 0) (state 0) =
      drain body more (layer k) (state k)) ∧ ((∀ j < k, layer j ≠ []) → k ≤ used) := by
    intro k
    induction k with
    | zero => exact ⟨0, fun more => by rw [Nat.zero_add], fun _ => Nat.le_refl 0⟩
    | succ k ih =>
      obtain ⟨used, hused, hle⟩ := ih
      refine ⟨used + (layer k).length, fun more => ?_, fun hne => ?_⟩
      · have hone := drain_layer body (layer k) [] more (state k)
        rw [append_nil, nil_append, hlayer k] at hone
        rw [Nat.add_assoc, hused, hone]
      · have hk := hle fun j hj => hne j (by omega)
        have hpos : 0 < (layer k).length := length_pos_iff.mpr (hne k (by omega))
        omega
  by_cases hne : ∀ j < fuel, layer j ≠ []
  · obtain ⟨used, hused, hle⟩ := hrun fuel
    obtain ⟨more, rfl⟩ := Nat.exists_eq_add_of_le (hle hne)
    have hend := hused 0
    rw [Nat.add_zero, drain_add body h, drain] at hend
    exact ⟨fuel, (congrArg Prod.snd hend).symm.trans h, congrArg Prod.fst hend⟩
  · have : ∃ j, j < fuel ∧ layer j = [] := by
      by_contra hnone
      exact hne fun j hj hnil => hnone ⟨j, hj, hnil⟩
    obtain ⟨j, -, hnil⟩ := this
    obtain ⟨used, hused, -⟩ := hrun j
    have hend := hused fuel
    rw [Nat.add_comm, drain_add body h, hnil, drain_nil] at hend
    exact ⟨j, hnil, congrArg Prod.fst hend⟩

end

variable {α : Type u} [DecidableEq α]

/-- The first occurrences in a list of what has not been seen. -/
def fresh (seen : List α) : List α → List α
  | [] => []
  | x :: rest => if x ∈ seen then fresh seen rest else x :: fresh (x :: seen) rest

variable {x : α} {k : Nat} {seen : List α}

theorem mem_fresh {l : List α} : x ∈ fresh seen l ↔ x ∈ l ∧ x ∉ seen := by
  induction l generalizing seen with
  | nil => simp [fresh]
  | cons _ _ ih =>
    unfold fresh
    split
    · rw [ih]
      grind
    · rw [mem_cons, ih]
      grind

theorem fresh_of_mem (h : x ∈ seen) : fresh seen [x] = [] := if_pos h

theorem fresh_of_not_mem (h : x ∉ seen) : fresh seen [x] = [x] :=
  if_neg h

theorem fresh_congr {seen' : List α} (h : ∀ x, x ∈ seen ↔ x ∈ seen') (l : List α) :
    fresh seen l = fresh seen' l := by
  induction l generalizing seen seen' with
  | nil => rfl
  | cons y _ ih =>
    simp only [fresh, h y]
    split
    · exact ih h
    · have hcons : ∀ x, x ∈ y :: seen ↔ x ∈ y :: seen' := by
        intro x
        rw [mem_cons, mem_cons, h x]
      rw [ih hcons]

theorem fresh_append (seen l l' : List α) :
    fresh seen (l ++ l') = fresh seen l ++ fresh (seen ++ fresh seen l) l' := by
  induction l generalizing seen with
  | nil => simp [fresh]
  | cons y _ ih =>
    simp only [fresh, cons_append]
    split
    · exact ih seen
    · rw [ih (y :: seen), cons_append]
      congr 2
      apply fresh_congr
      intro x
      simp only [mem_append, mem_cons]
      tauto

variable (next : α → List α) (seed : α)

/-- The nodes of distance `k` in the order of discovery, and all nodes found so far. -/
def layers : Nat → List α × List α
  | 0 => ([seed], [seed])
  | k + 1 =>
    let new := fresh (layers k).2 ((layers k).1.flatMap next)
    (new, (layers k).2 ++ new)

def layer (k : Nat) : List α := (layers next seed k).1

def found (k : Nat) : List α := (layers next seed k).2

theorem layer_succ (k : Nat) :
    layer next seed (k + 1) = fresh (found next seed k) ((layer next seed k).flatMap next) := rfl

theorem found_succ (k : Nat) :
    found next seed (k + 1) = found next seed k ++ layer next seed (k + 1) := rfl

/-- A walk of `k` steps from the seed. -/
inductive Walk : Nat → α → Prop
  | here : Walk 0 seed
  | step {k : Nat} {x y : α} : Walk k x → y ∈ next x → Walk (k + 1) y

/-- The shortest walk has `k` steps. -/
def Dist (k : Nat) (x : α) : Prop := Walk next seed k x ∧ ∀ j < k, ¬ Walk next seed j x

variable {next seed} {j : Nat}

theorem mem_layer_succ : x ∈ layer next seed (k + 1) ↔
      (∃ y ∈ layer next seed k, x ∈ next y) ∧ x ∉ found next seed k := by
  rw [layer_succ, mem_fresh, mem_flatMap]

theorem mem_found_succ :
    x ∈ found next seed (k + 1) ↔ x ∈ found next seed k ∨ ∃ y ∈ layer next seed k, x ∈ next y := by
  rw [found_succ, mem_append, mem_layer_succ]
  tauto

/-- A node found before the last layer has all its neighbours found. -/
theorem next_mem_found {y : α} (hx : x ∈ found next seed k) (hlast : x ∉ layer next seed k)
    (hy : y ∈ next x) : y ∈ found next seed k := by
  induction k with
  | zero => exact absurd hx hlast
  | succ k ih =>
    rw [mem_found_succ]
    by_cases hold : x ∈ found next seed k
    · by_cases hk : x ∈ layer next seed k
      · exact .inr ⟨x, hk, hy⟩
      · exact .inl (ih hold hk)
    · have hnew := mem_found_succ.mp hx
      exact absurd (mem_layer_succ.mpr ⟨hnew.resolve_left hold, hold⟩) hlast

theorem mem_found : x ∈ found next seed k ↔ ∃ j ≤ k, Walk next seed j x := by
  induction k generalizing x with
  | zero =>
    constructor
    · intro hx
      rw [mem_singleton.mp hx]
      exact ⟨0, Nat.le_refl 0, .here⟩
    · rintro ⟨j, hj, hwalk⟩
      cases le_zero.mp hj
      cases hwalk
      exact mem_singleton_self _
  | succ k ih =>
    rw [mem_found_succ]
    constructor
    · rintro (hx | ⟨y, hy, hxy⟩)
      · obtain ⟨j, hj, hwalk⟩ := ih.mp hx
        exact ⟨j, by omega, hwalk⟩
      · have hfound : y ∈ found next seed k := by
          cases k with
          | zero => exact hy
          | succ => exact mem_append_right _ hy
        obtain ⟨j, hj, hwalk⟩ := ih.mp hfound
        exact ⟨j + 1, by omega, hwalk.step hxy⟩
    · rintro ⟨j, hj, hwalk⟩
      cases hwalk with
      | here => exact .inl (ih.mpr ⟨0, zero_le k, .here⟩)
      | step hwalk hxy =>
        rename_i i y
        have hy : y ∈ found next seed k := ih.mpr ⟨i, by omega, hwalk⟩
        by_cases hlast : y ∈ layer next seed k
        · exact .inr ⟨y, hlast, hxy⟩
        · exact .inl (next_mem_found hy hlast hxy)

theorem mem_layer : x ∈ layer next seed k ↔ Dist next seed k x := by
  cases k with
  | zero =>
    constructor
    · intro hx
      rw [mem_singleton.mp hx]
      exact ⟨.here, fun j hj => absurd hj (not_lt_zero j)⟩
    · rintro ⟨hwalk, -⟩
      cases hwalk
      exact mem_singleton_self _
  | succ k =>
    constructor
    · intro hx
      have hnew := (mem_layer_succ.mp hx).2
      have hfound : x ∈ found next seed (k + 1) := mem_append_right _ hx
      obtain ⟨j, hj, hwalk⟩ := mem_found.mp hfound
      have hjk : j = k + 1 := by
        by_contra hne
        exact hnew (mem_found.mpr ⟨j, by omega, hwalk⟩)
      refine ⟨hjk ▸ hwalk, fun i hi hwalk' => hnew (mem_found.mpr ⟨i, by omega, hwalk'⟩)⟩
    · rintro ⟨hwalk, hmin⟩
      have hfound := mem_found.mpr ⟨k + 1, Nat.le_refl _, hwalk⟩
      rw [found_succ, mem_append] at hfound
      refine hfound.resolve_left fun hold => ?_
      obtain ⟨j, hj, hwalk'⟩ := mem_found.mp hold
      exact hmin j (by omega) hwalk'

theorem mem_found_iff_layer : x ∈ found next seed k ↔ ∃ j ≤ k, x ∈ layer next seed j := by
  induction k with
  | zero =>
    constructor
    · exact fun hx => ⟨0, Nat.le_refl 0, hx⟩
    · rintro ⟨j, hj, hx⟩
      cases le_zero.mp hj
      exact hx
  | succ k ih =>
    rw [found_succ, mem_append, ih]
    constructor
    · rintro (⟨j, hj, hx⟩ | hx)
      · exact ⟨j, by omega, hx⟩
      · exact ⟨k + 1, Nat.le_refl _, hx⟩
    · rintro ⟨j, hj, hx⟩
      by_cases hjk : j = k + 1
      · exact .inr (hjk ▸ hx)
      · exact .inl ⟨j, by omega, hx⟩

omit [DecidableEq α] in
/-- Distances are unique. -/
theorem Dist.unique (hj : Dist next seed j x) (hk : Dist next seed k x) : j = k := by
  by_contra hne
  rcases Nat.lt_or_gt_of_ne hne with hlt | hlt
  · exact hk.2 j hlt hj.1
  · exact hj.2 k hlt hk.1

/-- Once a layer is empty, every walk ends among the nodes found. -/
theorem Walk.mem_found (hempty : layer next seed k = []) (hwalk : Walk next seed j x) :
    x ∈ found next seed k := by
  induction hwalk with
  | here => exact Bfs.mem_found.mpr ⟨0, zero_le k, .here⟩
  | step _ hy ih =>
    refine next_mem_found ih ?_ hy
    rw [hempty]
    exact not_mem_nil

/-- A node with a walk has a distance, at most its length. -/
theorem Walk.dist (hwalk : Walk next seed k x) : ∃ j ≤ k, Dist next seed j x := by
  have hfound := Bfs.mem_found.mpr ⟨k, Nat.le_refl k, hwalk⟩
  obtain ⟨j, hj, hx⟩ := mem_found_iff_layer.mp hfound
  exact ⟨j, hj, mem_layer.mp hx⟩

end Bfs
end ArcGraph.Foundation
