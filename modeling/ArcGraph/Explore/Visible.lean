import ArcGraph.Explore.Retain

/-!
# What a principal can tell apart

Which relationships an exploration collects is decided by the depths of the whole graph. A
path through denied nodes brings a visible node closer; the walk then reads its scans, and a
relationship between two visible nodes at the bound is returned that would not be otherwise
(`explore_shows_shortcut`). Two graphs that look the same to the principal give one answer
if and only if their walks meet every relationship of the answer from the same end
(`explore_same_iff`).
-/

namespace ArcGraph.Explore
open Foundation NeighborhoodEdge

/-! ## Two graphs that look the same -/

section
variable {P : Type} {visible : NodeId → Bool} {g₁ g₂ : Store P} {names : Names}
  {allowed : Option (List Nat)} {dir : ExploreDirection} {maxDepth : Nat} {seed : NodeId} {r : Rel}
  {req : ExploreRequest}

/-- The graphs agree on the visible nodes and on the relationships between them. -/
structure Alike (visible : NodeId → Bool) (g₁ g₂ : Store P) : Prop where
  node : ∀ n, visible n = true → g₁.node n = g₂.node n
  rel : ∀ r, visible r.src = true → visible r.dst = true → (r ∈ g₁.rels ↔ r ∈ g₂.rels)

section
variable (h : Alike visible g₁ g₂) {n : NodeId} {d : Nat}
include h

namespace Alike

theorem symm : Alike visible g₂ g₁ :=
  ⟨fun n hn => (h.node n hn).symm, fun r hs hd => (h.rel r hs hd).symm⟩

theorem mem_visibleNeighbors {m : NodeId} (hm : m ∈ visibleNeighbors visible g₁ allowed dir n) :
    m ∈ visibleNeighbors visible g₂ allowed dir n := by
  obtain ⟨hvn, hvm, hm⟩ := Explore.mem_visibleNeighbors.mp hm
  obtain ⟨r, hr, hallow, hend⟩ := mem_neighbors.mp hm
  refine Explore.mem_visibleNeighbors.mpr
    ⟨hvn, hvm, mem_neighbors.mpr ⟨r, ?_, hallow, hend⟩⟩
  rcases hend with ⟨-, rfl, rfl⟩ | ⟨-, rfl, rfl⟩
  · exact (h.rel r hvn hvm).mp hr
  · exact (h.rel r hvm hvn).mp hr

theorem walk (hwalk : Bfs.Walk (visibleNeighbors visible g₁ allowed dir) seed d n) :
    Bfs.Walk (visibleNeighbors visible g₂ allowed dir) seed d n := by
  induction hwalk with
  | here => exact .here
  | step _ hn ih => exact ih.step (h.mem_visibleNeighbors hn)

theorem visibleDist :
    VisibleDist visible g₁ allowed dir seed d n ↔ VisibleDist visible g₂ allowed dir seed d n :=
  ⟨fun hd => ⟨h.walk hd.1, fun j hj hw => hd.2 j hj (h.symm.walk hw)⟩,
    fun hd => ⟨h.symm.walk hd.1, fun j hj hw => hd.2 j hj (h.walk hw)⟩⟩

theorem inAnswer : InAnswer visible g₁ allowed dir maxDepth seed n ↔
      InAnswer visible g₂ allowed dir maxDepth seed n := by
  unfold InAnswer
  simp only [h.visibleDist]

theorem retained_nodes (hseed : visible seed = true) (x : NeighborhoodNode P) :
    x ∈ (retained visible g₁ names allowed dir maxDepth seed).nodes ↔
      x ∈ (retained visible g₂ names allowed dir maxDepth seed).nodes := by
  rw [mem_retained_nodes hseed, mem_retained_nodes hseed]
  constructor
  · rintro ⟨d, hd, hdist, hx⟩
    rw [h.node _ (visible_of_walk hseed hdist.1)] at hx
    exact ⟨d, hd, h.visibleDist.mp hdist, hx⟩
  · rintro ⟨d, hd, hdist, hx⟩
    rw [← h.node _ (visible_of_walk hseed hdist.1)] at hx
    exact ⟨d, hd, h.visibleDist.mpr hdist, hx⟩

theorem rel_of_inAnswer (hseed : visible seed = true)
    (hr : r ∈ g₁.rels) (hsrc : InAnswer visible g₁ allowed dir maxDepth seed r.src)
    (hdst : InAnswer visible g₁ allowed dir maxDepth seed r.dst) : r ∈ g₂.rels := by
  obtain ⟨_, -, hs⟩ := hsrc
  obtain ⟨_, -, hd⟩ := hdst
  exact (h.rel r (visible_of_walk hseed hs.1) (visible_of_walk hseed hd.1)).mp hr

end Alike
end

/-- The walks of both graphs meet the relationships of the answer from the same end. -/
def MetAlike (visible : NodeId → Bool) (g₁ g₂ : Store P) (allowed : Option (List Nat))
    (dir : ExploreDirection) (maxDepth : Nat) (seed : NodeId) : Prop :=
  ∀ r ∈ g₁.rels, typeAllowed allowed r.type = true →
    InAnswer visible g₁ allowed dir maxDepth seed r.src →
    InAnswer visible g₁ allowed dir maxDepth seed r.dst →
    metFrom g₁ allowed dir maxDepth seed r.src r.dst =
      metFrom g₂ allowed dir maxDepth seed r.src r.dst

section
variable (hm : MetAlike visible g₁ g₂ allowed dir maxDepth seed) (h : Alike visible g₁ g₂)
  (hseed : visible seed = true)
include hm h hseed

theorem MetAlike.symm : MetAlike visible g₂ g₁ allowed dir maxDepth seed := by
  intro r hr hallow hsrc hdst
  have hr1 := h.symm.rel_of_inAnswer hseed hr hsrc hdst
  exact (hm r hr1 hallow (h.inAnswer.mpr hsrc) (h.inAnswer.mpr hdst)).symm

theorem MetAlike.edge {e : NeighborhoodEdge}
    (he : e ∈ (retained visible g₁ names allowed dir maxDepth seed).edges) :
    e ∈ (retained visible g₂ names allowed dir maxDepth seed).edges := by
  obtain ⟨r, hr, hallow, hsrc, hdst, tag, hmet, rfl⟩ := (mem_retained_edges hseed e).mp he
  refine (mem_retained_edges hseed _).mpr ⟨r, h.rel_of_inAnswer hseed hr hsrc hdst, hallow,
    h.inAnswer.mp hsrc, h.inAnswer.mp hdst, tag, ?_, rfl⟩
  rw [← hm r hr hallow hsrc hdst, hmet]

end

/-- A tag of the first answer is one of the second, if the answers have the same edges. -/
theorem metFrom_of_edges (hseed : visible seed = true)
    (hsame : ∀ e, e ∈ (retained visible g₁ names allowed dir maxDepth seed).edges →
      e ∈ (retained visible g₂ names allowed dir maxDepth seed).edges)
    (hr : r ∈ g₁.rels) (hallow : typeAllowed allowed r.type = true)
    (hsrc : InAnswer visible g₁ allowed dir maxDepth seed r.src)
    (hdst : InAnswer visible g₁ allowed dir maxDepth seed r.dst) {tag : NeighborDirection}
    (hmet : metFrom g₁ allowed dir maxDepth seed r.src r.dst = some tag) :
    metFrom g₂ allowed dir maxDepth seed r.src r.dst = some tag := by
  have he := hsame (edgeOf names (r, tag))
    ((mem_retained_edges hseed _).mpr ⟨r, hr, hallow, hsrc, hdst, tag, hmet, rfl⟩)
  obtain ⟨r', -, -, -, -, tag', hmet', heq⟩ := (mem_retained_edges hseed _).mp he
  have hs : r.src = r'.src := congrArg source heq
  have hd : r.dst = r'.dst := congrArg target heq
  have ht : tag = tag' := congrArg direction heq
  rw [hs, hd, ht, hmet']

theorem metAlike_iff (h : Alike visible g₁ g₂) (hseed : visible seed = true) :
    MetAlike visible g₁ g₂ allowed dir maxDepth seed ↔
      ∀ e, e ∈ (retained visible g₁ names allowed dir maxDepth seed).edges ↔
        e ∈ (retained visible g₂ names allowed dir maxDepth seed).edges := by
  constructor
  · exact fun hm e => ⟨hm.edge h hseed, (hm.symm h hseed).edge h.symm hseed⟩
  · intro hsame r hr hallow hsrc hdst
    cases h1 : metFrom g₁ allowed dir maxDepth seed r.src r.dst with
    | some =>
      exact (metFrom_of_edges hseed (fun e => (hsame e).mp) hr hallow hsrc hdst h1).symm
    | none =>
      cases h2 : metFrom g₂ allowed dir maxDepth seed r.src r.dst with
      | none => rfl
      | some =>
        have hback := metFrom_of_edges hseed (fun e => (hsame e).mpr)
          (h.rel_of_inAnswer hseed hr hsrc hdst) hallow (h.inAnswer.mp hsrc)
          (h.inAnswer.mp hdst) h2
        rw [h1] at hback
        cases hback

/-- The checks of a request look at no graph: either they refuse it, or the seed is visible
and the answer is made from the walk. -/
theorem exploreCapped_cases (visible : NodeId → Bool) (names : Names) (req : ExploreRequest) :
    (∃ err, ∀ g : Store P, exploreCapped (.principal visible) g names req = .error err) ∨
      visible req.seed = true ∧ ∀ g : Store P, exploreCapped (.principal visible) g names req =
          (explore g names req.seed (req.maxDepth.getD defaultExploreDepth) req.relTypes
            (req.direction.getD .out)).map fun nb =>
              applyOutputCap (req.maxResults.getD defaultExploreLimit)
                (retainVisibleReachable (.principal visible) (req.direction.getD .out) nb) := by
  unfold exploreCapped
  dsimp only
  split
  · exact .inl ⟨_, fun _ => rfl⟩
  split
  · exact .inl ⟨_, fun _ => rfl⟩
  split
  · exact .inl ⟨_, fun _ => rfl⟩
  split
  · exact .inl ⟨_, fun _ => rfl⟩
  · rename_i hdenied
    exact .inr ⟨by simpa [ReadAccess.allows] using hdenied, fun _ => rfl⟩

theorem exploreCapped_ok {g : Store P} {a : Neighborhood P}
    (h : exploreCapped (.principal visible) g names req = .ok a) (hcap : a.truncated = false) :
    visible req.seed = true ∧ a = retained visible g names (allowedRelTypes names req.relTypes)
        (req.direction.getD .out) (req.maxDepth.getD defaultExploreDepth) req.seed := by
  rcases exploreCapped_cases (P := P) visible names req with ⟨_, herr⟩ | ⟨hseed, heq⟩
  · rw [herr g] at h
    cases h
  · refine ⟨hseed, ?_⟩
    rw [heq g, explore] at h
    cases hnode : g.node req.seed with rw [hnode] at h
    | none =>
      cases h
    | some =>
      have ha : applyOutputCap (req.maxResults.getD defaultExploreLimit)
          (retained visible g names (allowedRelTypes names req.relTypes)
            (req.direction.getD .out) (req.maxDepth.getD defaultExploreDepth) req.seed) = a :=
        Except.ok.inj h
      unfold applyOutputCap at ha
      split at ha
      · rw [← ha]
        rfl
      · rw [← ha] at hcap
        cases hcap

theorem Alike.error (h : Alike visible g₁ g₂) {err : ExploreError}
    (he : exploreCapped (.principal visible) g₁ names req = .error err) :
    exploreCapped (.principal visible) g₂ names req = .error err := by
  rcases exploreCapped_cases (P := P) visible names req with ⟨_, herr⟩ | ⟨hseed, heq⟩
  · rw [herr g₂, ← herr g₁, he]
  · rw [heq g₁, explore] at he
    rw [heq g₂, explore, ← h.node req.seed hseed]
    cases hnode : g₁.node req.seed with rw [hnode] at he
    | none =>
      exact he
    | some =>
      cases he

/-- The same nodes with the same depths and the same edges. -/
def SameAnswer (a₁ a₂ : Neighborhood P) : Prop :=
  (∀ x, x ∈ a₁.nodes ↔ x ∈ a₂.nodes) ∧ ∀ e, e ∈ a₁.edges ↔ e ∈ a₂.edges

theorem sameAnswer_of_eq {a1 a2 : Neighborhood P} (hnodes : a1.nodes = a2.nodes)
    (hedges : a1.edges = a2.edges) : SameAnswer a1 a2 :=
  ⟨fun x => by rw [hnodes], fun e => by rw [hedges]⟩

end

/-- For two graphs that look the same to the principal: an error of one is an error of the
other; the nodes of an answer are those of the visible subgraph within the bound; and the
answers are the same if and only if the two walks meet every relationship between nodes of
the answer from the same end. -/
theorem explore_same_iff {P : Type} (visible : NodeId → Bool) (g₁ g₂ : Store P) (names : Names)
    (req : ExploreRequest) (h : Alike visible g₁ g₂) :
    (∀ err, exploreCapped (.principal visible) g₁ names req = .error err ↔
      exploreCapped (.principal visible) g₂ names req = .error err) ∧
    ∀ a₁ a₂, exploreCapped (.principal visible) g₁ names req = .ok a₁ →
      exploreCapped (.principal visible) g₂ names req = .ok a₂ →
      a₁.truncated = false → a₂.truncated = false →
      (∀ x, x ∈ a₁.nodes ↔ ∃ d ≤ req.maxDepth.getD defaultExploreDepth,
        VisibleDist visible g₁ (allowedRelTypes names req.relTypes) (req.direction.getD .out)
          req.seed d x.id ∧ x = ⟨x.id, g₁.node x.id, d⟩) ∧ (SameAnswer a₁ a₂ ↔
        MetAlike visible g₁ g₂ (allowedRelTypes names req.relTypes) (req.direction.getD .out)
          (req.maxDepth.getD defaultExploreDepth) req.seed) := by
  refine ⟨fun err => ⟨h.error, h.symm.error⟩, ?_⟩
  intro a₁ a₂ h1 h2 hcap1 hcap2
  obtain ⟨hseed, rfl⟩ := exploreCapped_ok h1 hcap1
  obtain ⟨-, rfl⟩ := exploreCapped_ok h2 hcap2
  refine ⟨mem_retained_nodes hseed, ?_⟩
  rw [metAlike_iff h hseed]
  exact ⟨fun hsame => hsame.2, fun hedges => ⟨h.retained_nodes hseed, hedges⟩⟩

/-! ## A shortcut through a denied node -/

def Store.ofRels {P : Type} (node : NodeId → Option P) (rels : List Rel)
    (hid : ∀ r ∈ rels, ∀ r' ∈ rels, r.id = r'.id → r = r') : Store P where
  node := node
  rels := rels
  scanOut n := rels.filter fun r => r.src == n
  scanIn n := rels.filter fun r => r.dst == n
  id_unique := hid
  mem_scanOut n r := by simp
  mem_scanIn n r := by simp

def plainNames : Names := ⟨fun _ => 1, fun _ => some "KNOWS"⟩

/-- A chain from 0 to 3 with a branch to 4, and a relationship from 3 to 4. -/
def chain : List Rel :=
  [⟨1, 0, 1, 1⟩, ⟨2, 1, 2, 1⟩, ⟨3, 2, 3, 1⟩, ⟨4, 2, 4, 1⟩, ⟨5, 3, 4, 1⟩]

def chainStore : Store Unit := .ofRels (fun _ => some ()) chain (by decide)

/-- The same with a path from 0 to 3 through the denied node 9. -/
def shortcutStore : Store Unit :=
  .ofRels (fun _ => some ()) (chain ++ [⟨6, 0, 9, 1⟩, ⟨7, 9, 3, 1⟩]) (by decide)

/-- The same with a denied node that leads nowhere. -/
def bystanderStore : Store Unit :=
  .ofRels (fun _ => some ()) (chain ++ [⟨6, 0, 9, 1⟩]) (by decide)

def notNine (n : NodeId) : Bool := n != 9

theorem alike_of_denied {rels : List Rel}
    (hid : ∀ r ∈ chain ++ rels, ∀ r' ∈ chain ++ rels, r.id = r'.id → r = r')
    (hdenied : ∀ r ∈ rels, notNine r.src = false ∨ notNine r.dst = false) :
    Alike notNine chainStore (.ofRels (fun _ => some ()) (chain ++ rels) hid) := by
  refine ⟨fun _ _ => rfl, fun r hs hd => ?_⟩
  change r ∈ chain ↔ r ∈ chain ++ rels
  rw [List.mem_append]
  constructor
  · exact .inl
  · rintro (hr | hr)
    · exact hr
    · rcases hdenied r hr with hdenied | hdenied
      · rw [hs] at hdenied
        cases hdenied
      · rw [hd] at hdenied
        cases hdenied

/-- A denied node that brings nothing closer leaves no trace. -/
theorem explore_same_iff_bystander :
    ∃ a₁ a₂, exploreCapped (.principal notNine) chainStore plainNames
        ⟨0, some 3, none, none, none⟩ = .ok a₁ ∧
      exploreCapped (.principal notNine) bystanderStore plainNames
        ⟨0, some 3, none, none, none⟩ = .ok a₂ ∧
      SameAnswer a₁ a₂ ∧ MetAlike notNine chainStore bystanderStore none .out 3 0 := by
  have hall := explore_same_iff notNine chainStore bystanderStore plainNames
    ⟨0, some 3, none, none, none⟩ (alike_of_denied (by decide) (by decide))
  have hsame : SameAnswer (retained notNine chainStore plainNames none .out 3 0)
      (retained notNine bystanderStore plainNames none .out 3 0) :=
    sameAnswer_of_eq (by decide) (by decide)
  exact ⟨_, _, rfl, rfl, hsame, (hall.2 _ _ rfl rfl rfl rfl).2.mp hsame⟩

/-- The relationship from 3 to 4 is shown only where a denied node brings 3 closer. -/
theorem explore_shows_shortcut :
    Alike notNine chainStore shortcutStore ∧
    ∃ a₁ a₂, exploreCapped (.principal notNine) chainStore plainNames
        ⟨0, some 3, none, none, none⟩ = .ok a₁ ∧
      exploreCapped (.principal notNine) shortcutStore plainNames
        ⟨0, some 3, none, none, none⟩ = .ok a₂ ∧ a₁.truncated = false ∧ a₂.truncated = false ∧
      a₁.nodes = a₂.nodes ∧ ⟨3, 4, some "KNOWS", .out⟩ ∈ a₂.edges ∧
      (⟨3, 4, some "KNOWS", .out⟩ : NeighborhoodEdge) ∉ a₁.edges := by
  refine ⟨alike_of_denied (by decide) (by decide), _, _, rfl, rfl, by decide, by decide,
    by decide, by decide, by decide⟩

end ArcGraph.Explore
