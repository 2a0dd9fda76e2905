import ArcGraph.Explore.Walk
import ArcGraph.Foundation.Sorting

/-!
# Cutting a neighborhood down

A principal-scoped exploration walks the whole graph and is cut down afterwards: denied
nodes and their relationships go, the rest is measured anew from the seed, and what lies
beyond the depth bound goes as well. The nodes that remain, with their depths, are those of
the visible subgraph (`mem_retained_nodes`); the relationships are those between them that
the walk of the whole graph has met (`mem_retained_edges`).
-/

namespace ArcGraph.Explore
open Foundation List Bfs Nat

inductive ReadAccess
  | systemTrusted
  | principal (visible : NodeId → Bool)

def ReadAccess.allows : ReadAccess → NodeId → Bool
  | systemTrusted, _ => true
  | principal visible, n => visible n

def ReadAccess.isSystemTrusted : ReadAccess → Bool
  | systemTrusted => true
  | principal _ => false

structure ExploreRequest where
  seed : NodeId
  maxDepth : Option Nat := none
  relTypes : Option (List String) := none
  direction : Option ExploreDirection := none
  maxResults : Option Nat := none

def defaultExploreDepth : Nat := 2
def maxExploreDepth : Nat := 5
def defaultExploreLimit : Nat := 1000
def maxExploreLimit : Nat := 10000

/-! ## Cutting down -/

/-- The neighbors of a node in the traversal direction, in the order of the edges. -/
def adjacency (dir : ExploreDirection) (edges : List NeighborhoodEdge) (n : NodeId) :
    List NodeId :=
  edges.flatMap fun e =>
    (if dir.wantOut = true ∧ e.source = n then [e.target] else []) ++
      if dir.wantIn = true ∧ e.target = n then [e.source] else []

/-- One neighbor of a node; the second part is what is appended to the frontier. -/
def reachOne (depth : Nat) (acc : List (NodeId × Nat) × List NodeId) (n : NodeId) :
    List (NodeId × Nat) × List NodeId :=
  if (acc.1.lookup n).isSome then acc else (acc.1 ++ [(n, depth)], acc.2 ++ [n])

def reach (adj : NodeId → List NodeId) (depths : List (NodeId × Nat)) (current : NodeId) :
    List (NodeId × Nat) × List NodeId :=
  (adj current).foldl (reachOne ((depths.lookup current).getD 0 + 1)) (depths, [])

/-- The ends of the edges bound the rounds of the loop. -/
def edgeEnds (edges : List NeighborhoodEdge) : List NodeId :=
  edges.flatMap fun e => [e.source, e.target]

def depthByNode (dir : ExploreDirection) (edges : List NeighborhoodEdge) (seed : NodeId) :
    List (NodeId × Nat) × List NodeId :=
  Bfs.drain (reach (adjacency dir edges)) ((edgeEnds edges).length + 1) [seed] [(seed, 0)]

section
variable {P : Type} (access : ReadAccess)

def visibleIds (nodes : List (NeighborhoodNode P)) : List NodeId :=
  (nodes.filter fun n => access.allows n.id).map (·.id)

def joins (ids : List NodeId) (e : NeighborhoodEdge) : Bool :=
  ids.contains e.source && ids.contains e.target

def withDepth (depths : List (NodeId × Nat)) (maxDepth : Nat) (n : NeighborhoodNode P) :
    Option (NeighborhoodNode P) :=
  match depths.lookup n.id with
  | none => none
  | some d => if maxDepth < d then none else some { n with depth := d }

def retainVisibleReachable (dir : ExploreDirection)
    (nb : Neighborhood P) : Neighborhood P :=
  let visible := visibleIds access nb.nodes
  let edges := nb.edges.filter (joins visible)
  let depths := if visible.contains nb.seed then (depthByNode dir edges nb.seed).1 else []
  let nodes := nb.nodes.filterMap (withDepth depths nb.maxDepth)
  { nb with nodes, edges := edges.filter (joins (nodes.map (·.id))) }

def applyOutputCap (maxResults : Nat) (nb : Neighborhood P) : Neighborhood P :=
  if nb.nodes.length + nb.edges.length ≤ maxResults then { nb with truncated := false }
  else
    let nodes := (sortBy (·.depth) nb.nodes).take maxResults
    let edges := (nb.edges.filter (joins (nodes.map (·.id)))).take (maxResults - nodes.length)
    { nb with nodes, edges, truncated := true }

/-- The session's tenant and scope have been checked. -/
def exploreCapped (g : Store P) (names : Names) (req : ExploreRequest) :
    Except ExploreError (Neighborhood P) :=
  let maxDepth := req.maxDepth.getD defaultExploreDepth
  let maxResults := req.maxResults.getD defaultExploreLimit
  let dir := req.direction.getD .out
  if maxExploreDepth < maxDepth then .error (.invalidDepth maxDepth)
  else if maxExploreLimit < maxResults then .error (.invalidResults maxResults)
  else if maxResults = 0 then .error .zeroResults
  else if !access.allows req.seed then .error (.seedNotFound req.seed)
  else
    (explore g names req.seed maxDepth req.relTypes dir).map fun nb =>
      applyOutputCap maxResults
        (if access.isSystemTrusted then nb else retainVisibleReachable access dir nb)

end

/-! ## Depths measured anew -/

section
variable {dir : ExploreDirection} {edges : List NeighborhoodEdge} {n : NodeId} {d : Nat}

theorem mem_adjacency {m : NodeId} :
    m ∈ adjacency dir edges n ↔ ∃ e ∈ edges, (dir.wantOut = true ∧ e.source = n ∧ m = e.target) ∨
        (dir.wantIn = true ∧ e.target = n ∧ m = e.source) := by
  simp only [adjacency, mem_flatMap, mem_append]
  constructor
  · rintro ⟨e, he, hm⟩
    refine ⟨e, he, ?_⟩
    rcases hm with hm | hm
    · split at hm
      · rename_i h
        exact .inl ⟨h.1, h.2, mem_singleton.mp hm⟩
      · cases hm
    · split at hm
      · rename_i h
        exact .inr ⟨h.1, h.2, mem_singleton.mp hm⟩
      · cases hm
  · rintro ⟨e, he, ⟨hw, hn, rfl⟩ | ⟨hw, hn, rfl⟩⟩
    · exact ⟨e, he, .inl (by simp [hw, hn])⟩
    · exact ⟨e, he, .inr (by simp [hw, hn])⟩

theorem lookup_append_new {depths : List (NodeId × Nat)} (h : depths.lookup n = none) (m : NodeId) :
    (depths ++ [(n, d)]).lookup m = if m = n then some d else depths.lookup m := by
  induction depths with
  | nil =>
    by_cases hm : m = n
    · simp [hm]
    · have hne : (m == n) = false := by simpa using hm
      simp [hm, hne]
  | cons p _ ih =>
    obtain ⟨k, _⟩ := p
    simp only [cons_append, lookup_cons] at h ⊢
    by_cases hk : n = k
    · simp [hk] at h
    · have hn : (n == k) = false := by simpa using hk
      rw [hn] at h
      by_cases hm : m = k
      · subst hm
        have : m ≠ n := fun h => hk h.symm
        simp [this]
      · have hmk : (m == k) = false := by simpa using hm
        rw [hmk]
        exact ih h

theorem foldl_reachOne {depth : Nat} (l : List NodeId) :
    ∀ {depths : List (NodeId × Nat)} {seen : List NodeId} (acc : List NodeId),
      (∀ n, (depths.lookup n).isSome ↔ n ∈ seen) →
      ∃ depths', l.foldl (reachOne depth) (depths, acc) = (depths', acc ++ fresh seen l) ∧
        ∀ n, depths'.lookup n = if n ∈ fresh seen l then some depth else depths.lookup n := by
  induction l with
  | nil =>
    intro depths seen acc _
    exact ⟨depths, by simp [fresh], fun n => by simp [fresh]⟩
  | cons m _ ih =>
    intro depths seen acc hseen
    rw [foldl_cons, fresh]
    by_cases hm : m ∈ seen
    · have hsome := (hseen m).mpr hm
      rw [reachOne, if_pos hsome, if_pos hm]
      exact ih acc hseen
    · have hnone : depths.lookup m = none := by
        cases h : depths.lookup m with
        | none => rfl
        | some => exact absurd ((hseen m).mp (by rw [h]; rfl)) hm
      have hstep : reachOne depth (depths, acc) m = (depths ++ [(m, depth)], acc ++ [m]) := by
        rw [reachOne, hnone]
        rfl
      have hseen' : ∀ n, ((depths ++ [(m, depth)]).lookup n).isSome ↔ n ∈ m :: seen := by
        intro n
        rw [lookup_append_new hnone, mem_cons, ← hseen n]
        by_cases hn : n = m <;> simp [hn]
      obtain ⟨depths', hfold, hlookup⟩ := ih (acc ++ [m]) hseen'
      rw [hstep, if_neg hm]
      refine ⟨depths', by rw [hfold, append_assoc]; rfl, fun n => ?_⟩
      rw [hlookup, lookup_append_new hnone]
      by_cases hn : n = m
      · simp [hn]
      · simp [hn]

variable (adj : NodeId → List NodeId) (seed : NodeId)

/-- The depths when `k` layers are done. -/
def depthsAt : Nat → List (NodeId × Nat)
  | 0 => [(seed, 0)]
  | k + 1 => (Bfs.expand (reach adj) (Bfs.layer adj seed k) (depthsAt k)).1

variable {adj seed}

theorem expand_reach {k : Nat} (ns : List NodeId) :
    ∀ {depths : List (NodeId × Nat)} {seen : List NodeId},
      (∀ n, (depths.lookup n).isSome ↔ n ∈ seen) → (∀ n ∈ ns, depths.lookup n = some k) →
      ∃ depths', expand (reach adj) ns depths = (depths', fresh seen (ns.flatMap adj)) ∧
        ∀ n, depths'.lookup n =
          if n ∈ fresh seen (ns.flatMap adj) then some (k + 1) else depths.lookup n := by
  induction ns with
  | nil =>
    intro depths seen _ _
    exact ⟨depths, rfl, fun n => by simp [fresh]⟩
  | cons n ns ih =>
    intro depths seen hseen hns
    have hn : (depths.lookup n).getD 0 + 1 = k + 1 := by
      rw [hns n mem_cons_self, Option.getD_some]
    obtain ⟨depths1, hfold, hlookup1⟩ := foldl_reachOne (adj n) [] hseen
    have hreach : reach adj depths n = (depths1, fresh seen (adj n)) := by
      rw [reach, hn]
      exact hfold
    have hseen1 : ∀ m, (depths1.lookup m).isSome ↔ m ∈ seen ++ fresh seen (adj n) := by
      intro m
      rw [hlookup1, mem_append, ← hseen m]
      by_cases hm : m ∈ fresh seen (adj n) <;> simp [hm]
    have hns1 : ∀ m ∈ ns, depths1.lookup m = some k := by
      intro m hm
      have hold := hns m (mem_cons_of_mem _ hm)
      have hmem : m ∈ seen := (hseen m).mp (by rw [hold]; rfl)
      rw [hlookup1, if_neg fun hfresh => (mem_fresh.mp hfresh).2 hmem, hold]
    obtain ⟨depths2, hexpand, hlookup2⟩ := ih hseen1 hns1
    refine ⟨depths2, ?_, fun m => ?_⟩
    · rw [expand, hreach, hexpand, flatMap_cons, fresh_append]
    · rw [hlookup2, hlookup1, flatMap_cons, fresh_append]
      by_cases hm : m ∈ fresh seen (adj n) <;>
        by_cases hm' : m ∈ fresh (seen ++ fresh seen (adj n)) (ns.flatMap adj) <;>
        simp [hm, hm']

theorem lookup_depthsAt (k : Nat) :
    (∀ n j, (depthsAt adj seed k).lookup n = some j ↔ j ≤ k ∧ n ∈ layer adj seed j) ∧
      expand (reach adj) (layer adj seed k) (depthsAt adj seed k) =
        (depthsAt adj seed (k + 1), layer adj seed (k + 1)) := by
  -- a layer is run once its depths are known
  have hrun : ∀ k,
      (∀ n j, (depthsAt adj seed k).lookup n = some j ↔ j ≤ k ∧ n ∈ layer adj seed j) →
      expand (reach adj) (layer adj seed k) (depthsAt adj seed k) =
          (depthsAt adj seed (k + 1), layer adj seed (k + 1)) ∧
        ∀ n, (depthsAt adj seed (k + 1)).lookup n =
          if n ∈ layer adj seed (k + 1) then some (k + 1)
          else (depthsAt adj seed k).lookup n := by
    intro k hk
    have hseen : ∀ n, ((depthsAt adj seed k).lookup n).isSome ↔ n ∈ found adj seed k := by
      intro n
      rw [Option.isSome_iff_exists, mem_found_iff_layer]
      simp only [hk]
    obtain ⟨depths', hexpand, hlookup⟩ := expand_reach (k := k)
      (layer adj seed k) hseen fun n hn => (hk n k).mpr ⟨le_refl k, hn⟩
    have hstate : depthsAt adj seed (k + 1) = depths' := congrArg Prod.fst hexpand
    rw [hstate]
    exact ⟨hexpand, hlookup⟩
  have hlookup : ∀ k n j,
      (depthsAt adj seed k).lookup n = some j ↔ j ≤ k ∧ n ∈ layer adj seed j := by
    intro k
    induction k with
    | zero =>
      intro n j
      by_cases hn : n = seed
      · subst hn
        simp only [depthsAt, lookup_cons_self, Option.some.injEq, le_zero]
        constructor
        · rintro rfl
          exact ⟨rfl, mem_singleton_self _⟩
        · exact fun h => h.1.symm
      · have hne : (n == seed) = false := by simpa using hn
        simp only [depthsAt, lookup_cons, hne, le_zero]
        constructor
        · intro h
          cases h
        · rintro ⟨rfl, hmem⟩
          exact absurd (mem_singleton.mp hmem) hn
    | succ k ih =>
      intro n j
      rw [(hrun k ih).2 n]
      split
      · rename_i hnew
        constructor
        · intro h
          cases h
          exact ⟨le_refl _, hnew⟩
        · rintro ⟨-, hmem⟩
          rw [(mem_layer.mp hmem).unique (mem_layer.mp hnew)]
      · rename_i hold
        rw [ih]
        constructor
        · rintro ⟨hj, hmem⟩
          exact ⟨le_succ_of_le hj, hmem⟩
        · rintro ⟨hj, hmem⟩
          refine ⟨?_, hmem⟩
          by_contra hlt
          have heq : j = k + 1 := by omega
          exact hold (heq ▸ hmem)
  exact ⟨hlookup k, (hrun k (hlookup k)).1⟩

def unmeasured (edges : List NeighborhoodEdge) (depths : List (NodeId × Nat)) : Nat :=
  ((edgeEnds edges).filter fun n => (depths.lookup n).isNone).length

theorem unmeasured_reach (depths : List (NodeId × Nat)) (current : NodeId) :
    unmeasured edges (reach (adjacency dir edges) depths current).1 +
      (reach (adjacency dir edges) depths current).2.length ≤ unmeasured edges depths := by
  have hfold : ∀ (l : List NodeId) (depth : Nat) (acc : List (NodeId × Nat) × List NodeId),
      (∀ n ∈ l, n ∈ edgeEnds edges) →
      unmeasured edges (l.foldl (reachOne depth) acc).1 +
        (l.foldl (reachOne depth) acc).2.length ≤ unmeasured edges acc.1 + acc.2.length := by
    intro l depth
    induction l with
    | nil => exact fun acc _ => le_refl _
    | cons n l ih =>
      intro acc hl
      rw [foldl_cons]
      refine le_trans (ih _ fun m hm => hl m (mem_cons_of_mem _ hm)) ?_
      unfold reachOne
      split
      · exact le_refl _
      · rename_i hsome
        have hnone : acc.1.lookup n = none := by
          rwa [Option.isSome_iff_ne_none, ne_eq, not_not] at hsome
        have hlt : unmeasured edges (acc.1 ++ [(n, depth)]) < unmeasured edges acc.1 := by
          apply length_filter_lt (hl n mem_cons_self)
          · rw [hnone]
            rfl
          · rw [lookup_append_new hnone, if_pos rfl]
            rfl
          · intro m
            rw [lookup_append_new hnone]
            split
            · intro h
              cases h
            · exact id
        dsimp only
        rw [length_append, length_singleton]
        omega
  have hadj : ∀ n ∈ adjacency dir edges current, n ∈ edgeEnds edges := by
    intro n hn
    obtain ⟨e, he, ⟨-, -, rfl⟩ | ⟨-, -, rfl⟩⟩ := mem_adjacency.mp hn
    · exact mem_flatMap.mpr ⟨e, he, by simp⟩
    · exact mem_flatMap.mpr ⟨e, he, by simp⟩
  exact hfold _ _ (depths, []) hadj

/-- The depth of a node is its distance from the seed along the edges. -/
theorem lookup_depthByNode :
    (depthByNode dir edges seed).1.lookup n = some d ↔ Bfs.Dist (adjacency dir edges) seed d n := by
  have hends : (depthByNode dir edges seed).2 = [] := by
    apply drain_empty _ (unmeasured edges) unmeasured_reach
    have hle : unmeasured edges [(seed, 0)] ≤ (edgeEnds edges).length := length_filter_le _ _
    rw [length_singleton]
    omega
  obtain ⟨k, hempty, hstate⟩ := drain_layers (reach (adjacency dir edges))
    (layer (adjacency dir edges) seed) (depthsAt (adjacency dir edges) seed)
    (fun k => (lookup_depthsAt k).2) hends
  have hfinal : (depthByNode dir edges seed).1 = depthsAt (adjacency dir edges) seed k := hstate
  rw [hfinal, (lookup_depthsAt k).1, mem_layer]
  constructor
  · exact fun h => h.2
  · intro hdist
    obtain ⟨j, hj, hmem⟩ := mem_found_iff_layer.mp (hdist.1.mem_found hempty)
    rw [← (mem_layer.mp hmem).unique hdist]
    exact ⟨hj, mem_layer.mp hmem⟩

end

/-! ## The visible subgraph -/

variable {P : Type} (visible : NodeId → Bool) (g : Store P) (names : Names)
  (allowed : Option (List Nat)) (dir : ExploreDirection) (maxDepth : Nat) (seed : NodeId)

def visibleNeighbors (n : NodeId) : List NodeId :=
  if visible n then (neighbors g allowed dir n).filter visible else []

/-- The node is at distance `d` from the seed in the subgraph of visible nodes. -/
def VisibleDist (d : Nat) (n : NodeId) : Prop :=
  Bfs.Dist (visibleNeighbors visible g allowed dir) seed d n

def InAnswer (n : NodeId) : Prop := ∃ d ≤ maxDepth, VisibleDist visible g allowed dir seed d n

variable {visible g names allowed dir maxDepth seed}

variable {n m : NodeId} {d : Nat}

theorem mem_neighbors :
    m ∈ neighbors g allowed dir n ↔ ∃ r ∈ g.rels, typeAllowed allowed r.type = true ∧
      ((dir.wantOut = true ∧ r.src = n ∧ m = r.dst) ∨
        (dir.wantIn = true ∧ r.dst = n ∧ m = r.src)) := by
  simp only [neighbors, allowedEntries, mem_map, mem_filter, entries, mem_append]
  constructor
  · rintro ⟨e, ⟨he | he, hallow⟩, rfl⟩
    · split at he
      · rename_i hw
        obtain ⟨r, hr, rfl⟩ := mem_map.mp he
        obtain ⟨hr, hsrc⟩ := (g.mem_scanOut n r).mp hr
        exact ⟨r, hr, hallow, .inl ⟨hw, hsrc, rfl⟩⟩
      · cases he
    · split at he
      · rename_i hw
        obtain ⟨r, hr, rfl⟩ := mem_map.mp he
        obtain ⟨hr, hdst⟩ := (g.mem_scanIn n r).mp hr
        exact ⟨r, hr, hallow, .inr ⟨hw, hdst, rfl⟩⟩
      · cases he
  · rintro ⟨r, hr, hallow, ⟨hw, hsrc, rfl⟩ | ⟨hw, hdst, rfl⟩⟩
    · refine ⟨(r, .out), ⟨.inl ?_, hallow⟩, rfl⟩
      rw [if_pos hw]
      exact mem_map_of_mem ((g.mem_scanOut n r).mpr ⟨hr, hsrc⟩)
    · refine ⟨(r, .inn), ⟨.inr ?_, hallow⟩, rfl⟩
      rw [if_pos hw]
      exact mem_map_of_mem ((g.mem_scanIn n r).mpr ⟨hr, hdst⟩)

theorem mem_visibleNeighbors : m ∈ visibleNeighbors visible g allowed dir n ↔
      visible n = true ∧ visible m = true ∧ m ∈ neighbors g allowed dir n := by
  unfold visibleNeighbors
  split
  · rename_i hn
    rw [mem_filter]
    exact ⟨fun h => ⟨hn, h.2, h.1⟩, fun h => ⟨h.2.2, h.2.1⟩⟩
  · rename_i hn
    constructor
    · intro h
      cases h
    · exact fun h => absurd h.1 hn

theorem visible_of_walk (hseed : visible seed = true)
    (h : Bfs.Walk (visibleNeighbors visible g allowed dir) seed d n) : visible n = true := by
  cases h with
  | here => exact hseed
  | step _ hn => exact (mem_visibleNeighbors.mp hn).2.1

theorem full_walk (h : Bfs.Walk (visibleNeighbors visible g allowed dir) seed d n) :
    Bfs.Walk (neighbors g allowed dir) seed d n := by
  induction h with
  | here => exact .here
  | step _ hn ih => exact ih.step (mem_visibleNeighbors.mp hn).2.2

theorem mem_visibleIds :
    n ∈ visibleIds (.principal visible) (walk g names allowed dir maxDepth seed).1.nodes ↔
      visible n = true ∧ ∃ d ≤ maxDepth, Bfs.Dist (neighbors g allowed dir) seed d n := by
  simp only [visibleIds, mem_map, mem_filter, mem_walk_nodes]
  constructor
  · rintro ⟨x, ⟨⟨d, hd, hdist, -⟩, hvis⟩, rfl⟩
    exact ⟨hvis, d, hd, hdist⟩
  · rintro ⟨hvis, d, hd, hdist⟩
    exact ⟨⟨n, g.node n, d⟩, ⟨⟨d, hd, hdist, rfl⟩, hvis⟩, rfl⟩

variable (visible g names allowed dir maxDepth seed) in
def keptEdges : List NeighborhoodEdge :=
  (walk g names allowed dir maxDepth seed).1.edges.filter
    (joins (visibleIds (.principal visible) (walk g names allowed dir maxDepth seed).1.nodes))

theorem mem_keptEdges {e : NeighborhoodEdge} :
    e ∈ keptEdges visible g names allowed dir maxDepth seed ↔
      e ∈ (walk g names allowed dir maxDepth seed).1.edges ∧
        e.source ∈ visibleIds (.principal visible)
          (walk g names allowed dir maxDepth seed).1.nodes ∧
        e.target ∈ visibleIds (.principal visible)
          (walk g names allowed dir maxDepth seed).1.nodes := by
  simp [keptEdges, joins, Bool.and_eq_true]

theorem visibleNeighbors_of_adjacency
    (h : m ∈ adjacency dir (keptEdges visible g names allowed dir maxDepth seed) n) :
    m ∈ visibleNeighbors visible g allowed dir n := by
  obtain ⟨e, he, hend⟩ := mem_adjacency.mp h
  obtain ⟨hedge, hsource, htarget⟩ := mem_keptEdges.mp he
  obtain ⟨r, hr, hallow, _, -, rfl⟩ := (mem_walk_edges e).mp hedge
  have hs := (mem_visibleIds.mp hsource).1
  have ht := (mem_visibleIds.mp htarget).1
  rw [mem_visibleNeighbors]
  rcases hend with ⟨hw, rfl, rfl⟩ | ⟨hw, rfl, rfl⟩
  · exact ⟨hs, ht, mem_neighbors.mpr ⟨r, hr, hallow, .inl ⟨hw, rfl, rfl⟩⟩⟩
  · exact ⟨ht, hs, mem_neighbors.mpr ⟨r, hr, hallow, .inr ⟨hw, rfl, rfl⟩⟩⟩

theorem adjacency_of_visibleNeighbors (h : m ∈ visibleNeighbors visible g allowed dir n)
    (hdist : Bfs.Dist (neighbors g allowed dir) seed d n) (hd : d < maxDepth) :
    m ∈ adjacency dir (keptEdges visible g names allowed dir maxDepth seed) n := by
  obtain ⟨hvn, hvm, hm⟩ := mem_visibleNeighbors.mp h
  obtain ⟨r, hr, hallow, hend⟩ := mem_neighbors.mp hm
  have hfar : ∃ d' ≤ maxDepth, Bfs.Dist (neighbors g allowed dir) seed d' m := by
    obtain ⟨j, _, hj'⟩ := (hdist.1.step hm).dist
    exact ⟨j, by omega, hj'⟩
  have hnear : n ∈ visibleIds (.principal visible)
      (walk g names allowed dir maxDepth seed).1.nodes :=
    mem_visibleIds.mpr ⟨hvn, d, le_of_lt hd, hdist⟩
  have hother : m ∈ visibleIds (.principal visible)
      (walk g names allowed dir maxDepth seed).1.nodes := mem_visibleIds.mpr ⟨hvm, hfar⟩
  have hmet : (metFrom g allowed dir maxDepth seed r.src r.dst).isSome := by
    refine metFrom_isSome.mpr ⟨n, ?_, d, hd, hdist⟩
    rcases hend with ⟨hw, hs, -⟩ | ⟨hw, ht, -⟩
    · exact .inl ⟨hw, hs⟩
    · exact .inr ⟨hw, ht⟩
  obtain ⟨tag, htag⟩ := Option.isSome_iff_exists.mp hmet
  have hedge : edgeOf names (r, tag) ∈ (walk g names allowed dir maxDepth seed).1.edges :=
    (mem_walk_edges _).mpr ⟨r, hr, hallow, tag, htag, rfl⟩
  refine mem_adjacency.mpr ⟨edgeOf names (r, tag), mem_keptEdges.mpr ⟨hedge, ?_⟩, ?_⟩
  · rcases hend with ⟨-, rfl, rfl⟩ | ⟨-, rfl, rfl⟩
    · exact ⟨hnear, hother⟩
    · exact ⟨hother, hnear⟩
  · exact hend

theorem walk_keptEdges (hd : d ≤ maxDepth) :
    Bfs.Walk (adjacency dir (keptEdges visible g names allowed dir maxDepth seed)) seed d n ↔
      Bfs.Walk (visibleNeighbors visible g allowed dir) seed d n := by
  constructor
  · intro h
    induction h with
    | here => exact .here
    | step _ hn ih => exact (ih (by omega)).step (visibleNeighbors_of_adjacency hn)
  · intro h
    induction h with
    | here => exact .here
    | step hwalk hn ih =>
      obtain ⟨_, _, hdist⟩ := (full_walk hwalk).dist
      exact (ih (by omega)).step (adjacency_of_visibleNeighbors hn hdist (by omega))

theorem dist_keptEdges (hd : d ≤ maxDepth) :
    Bfs.Dist (adjacency dir (keptEdges visible g names allowed dir maxDepth seed)) seed d n ↔
      VisibleDist visible g allowed dir seed d n := by
  unfold VisibleDist Bfs.Dist
  rw [walk_keptEdges hd]
  constructor
  · rintro ⟨hwalk, hmin⟩
    exact ⟨hwalk, fun j hj hwalk' => hmin j hj ((walk_keptEdges (by omega)).mpr hwalk')⟩
  · rintro ⟨hwalk, hmin⟩
    exact ⟨hwalk, fun j hj hwalk' => hmin j hj ((walk_keptEdges (by omega)).mp hwalk')⟩

variable (visible g names allowed dir maxDepth seed) in
def retained : Neighborhood P :=
  retainVisibleReachable (.principal visible) dir
    ⟨seed, maxDepth, false, (walk g names allowed dir maxDepth seed).1.nodes,
      (walk g names allowed dir maxDepth seed).1.edges⟩

theorem mem_retained_nodes (hseed : visible seed = true) (x : NeighborhoodNode P) :
    x ∈ (retained visible g names allowed dir maxDepth seed).nodes ↔
      ∃ d ≤ maxDepth, VisibleDist visible g allowed dir seed d x.id ∧
        x = ⟨x.id, g.node x.id, d⟩ := by
  have hstart : (visibleIds (.principal visible)
      (walk g names allowed dir maxDepth seed).1.nodes).contains seed = true := by
    rw [contains_iff_mem, mem_visibleIds]
    exact ⟨hseed, 0, zero_le _, .here, fun j hj => absurd hj (not_lt_zero j)⟩
  have hnodes : (retained visible g names allowed dir maxDepth seed).nodes =
      (walk g names allowed dir maxDepth seed).1.nodes.filterMap
        (withDepth (depthByNode dir (keptEdges visible g names allowed dir maxDepth seed)
          seed).1 maxDepth) := by
    simp only [retained, retainVisibleReachable, hstart, if_true]
    rfl
  rw [hnodes, mem_filterMap]
  constructor
  · rintro ⟨y, hy, hdepth⟩
    obtain ⟨d, hd, hdist, rfl⟩ : ∃ d ≤ maxDepth,
        Bfs.Dist (adjacency dir (keptEdges visible g names allowed dir maxDepth seed)) seed d
          y.id ∧ x = { y with depth := d } := by
      unfold withDepth at hdepth
      split at hdepth
      · cases hdepth
      · rename_i d hlookup
        split at hdepth
        · cases hdepth
        · rename_i hle
          cases hdepth
          exact ⟨d, Nat.le_of_not_lt hle, lookup_depthByNode.mp hlookup, rfl⟩
    obtain ⟨_, -, -, hy⟩ := (mem_walk_nodes y).mp hy
    refine ⟨d, hd, (dist_keptEdges hd).mp hdist, ?_⟩
    rw [hy]
  · rintro ⟨d, hd, hdist, hx⟩
    obtain ⟨j, hj, hfull⟩ := (full_walk hdist.1).dist
    refine ⟨⟨x.id, g.node x.id, j⟩, ?_, ?_⟩
    · exact (mem_walk_nodes _).mpr ⟨j, by omega, hfull, rfl⟩
    · have hlookup : (depthByNode dir (keptEdges visible g names allowed dir maxDepth seed)
          seed).1.lookup x.id = some d := lookup_depthByNode.mpr ((dist_keptEdges hd).mpr hdist)
      simp only [withDepth, hlookup, not_lt.mpr hd, if_false]
      rw [← hx]

theorem mem_retained_edges (hseed : visible seed = true) (e : NeighborhoodEdge) :
    e ∈ (retained visible g names allowed dir maxDepth seed).edges ↔
      ∃ r ∈ g.rels, typeAllowed allowed r.type = true ∧
        InAnswer visible g allowed dir maxDepth seed r.src ∧
        InAnswer visible g allowed dir maxDepth seed r.dst ∧
        ∃ tag, metFrom g allowed dir maxDepth seed r.src r.dst = some tag ∧
          e = edgeOf names (r, tag) := by
  have hids : ∀ n, n ∈ (retained visible g names allowed dir maxDepth seed).nodes.map (·.id) ↔
      InAnswer visible g allowed dir maxDepth seed n := by
    intro n
    rw [mem_map]
    constructor
    · rintro ⟨x, hx, rfl⟩
      obtain ⟨d, hd, hdist, -⟩ := (mem_retained_nodes hseed x).mp hx
      exact ⟨d, hd, hdist⟩
    · rintro ⟨d, hd, hdist⟩
      exact ⟨⟨n, g.node n, d⟩, (mem_retained_nodes hseed _).mpr ⟨d, hd, hdist, rfl⟩, rfl⟩
  have hedges : (retained visible g names allowed dir maxDepth seed).edges =
      (keptEdges visible g names allowed dir maxDepth seed).filter
        (joins ((retained visible g names allowed dir maxDepth seed).nodes.map (·.id))) := rfl
  have hvisible : ∀ n, InAnswer visible g allowed dir maxDepth seed n →
      n ∈ visibleIds (.principal visible) (walk g names allowed dir maxDepth seed).1.nodes := by
    rintro n ⟨d, hd, hdist⟩
    obtain ⟨j, _, hfull⟩ := (full_walk hdist.1).dist
    exact mem_visibleIds.mpr ⟨visible_of_walk hseed hdist.1, j, by omega, hfull⟩
  rw [hedges, mem_filter, joins, Bool.and_eq_true, contains_iff_mem,
    contains_iff_mem, hids, hids, mem_keptEdges, mem_walk_edges]
  constructor
  · rintro ⟨⟨⟨r, hr, hallow, tag, hmet, rfl⟩, -⟩, hsource, htarget⟩
    exact ⟨r, hr, hallow, hsource, htarget, tag, hmet, rfl⟩
  · rintro ⟨r, hr, hallow, hsource, htarget, tag, hmet, rfl⟩
    exact ⟨⟨⟨r, hr, hallow, tag, hmet, rfl⟩, hvisible _ hsource, hvisible _ htarget⟩,
      hsource, htarget⟩

end ArcGraph.Explore
