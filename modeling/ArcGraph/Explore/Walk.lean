import ArcGraph.Foundation.Bfs

/-!
# The neighborhood walk

`explore` walks the whole graph breadth first, whoever asks: it collects each relationship
once, tagged by the end from which it was first met, and each node with its depth. The
walk is stated here as the source has it, a queue with visited sets, and `explored` says
what it finds: the nodes at distance at most the depth bound, and the relationships with an
end of smaller distance.
-/

namespace ArcGraph.Explore
open Foundation List Option Bfs Nat

abbrev NodeId := Nat

inductive NeighborDirection
  | out
  | inn
deriving DecidableEq

inductive ExploreDirection
  | out
  | inn
  | both
deriving DecidableEq

def ExploreDirection.wantOut : ExploreDirection → Bool
  | out | both => true
  | inn => false

def ExploreDirection.wantIn : ExploreDirection → Bool
  | inn | both => true
  | out => false

structure Rel where
  id : Nat
  src : NodeId
  dst : NodeId
  type : Nat
deriving DecidableEq

/-- What the walk's transaction sees: records by node, relationships, and the adjacency
lists in the order in which the scans yield them. `P` is a node's label and properties. -/
structure Store (P : Type) where
  node : NodeId → Option P
  rels : List Rel
  scanOut : NodeId → List Rel
  scanIn : NodeId → List Rel
  id_unique : ∀ r ∈ rels, ∀ r' ∈ rels, r.id = r'.id → r = r'
  mem_scanOut : ∀ n r, r ∈ scanOut n ↔ r ∈ rels ∧ r.src = n
  mem_scanIn : ∀ n r, r ∈ scanIn n ↔ r ∈ rels ∧ r.dst = n

structure Names where
  intern : String → Nat
  resolve : Nat → Option String

structure NeighborhoodNode (P : Type) where
  id : NodeId
  record : Option P
  depth : Nat
deriving DecidableEq

structure NeighborhoodEdge where
  source : NodeId
  target : NodeId
  relType : Option String
  direction : NeighborDirection
deriving DecidableEq

structure Neighborhood (P : Type) where
  seed : NodeId
  maxDepth : Nat
  truncated : Bool
  nodes : List (NeighborhoodNode P)
  edges : List NeighborhoodEdge
deriving DecidableEq

/-- An empty filter is no filter. -/
def allowedRelTypes (names : Names) : Option (List String) → Option (List Nat)
  | some (name :: rest) => some ((name :: rest).map names.intern)
  | _ => none

def typeAllowed (allowed : Option (List Nat)) (type : Nat) : Bool :=
  match allowed with
  | none => true
  | some types => types.contains type

abbrev Entry := Rel × NeighborDirection

def neighbor (e : Entry) : NodeId :=
  match e.2 with
  | .out => e.1.dst
  | .inn => e.1.src

def edgeOf (names : Names) (e : Entry) : NeighborhoodEdge where
  source := e.1.src
  target := e.1.dst
  relType := if e.1.type = 0 then none else names.resolve e.1.type
  direction := e.2

structure WalkState (P : Type) where
  nodes : List (NeighborhoodNode P)
  edges : List NeighborhoodEdge
  visitedNodes : List NodeId
  visitedEdges : List Nat

section
variable {P : Type} (g : Store P) (names : Names) (allowed : Option (List Nat))
  (dir : ExploreDirection) (maxDepth : Nat)

def entries (current : NodeId) : List Entry :=
  (if dir.wantOut then (g.scanOut current).map fun r => (r, .out) else []) ++
    if dir.wantIn then (g.scanIn current).map fun r => (r, .inn) else []

/-- One entry of a node at `depth`; the second part is what is appended to the frontier. -/
def handleEntry (depth : Nat) (acc : WalkState P × List (NodeId × Nat)) (e : Entry) :
    WalkState P × List (NodeId × Nat) :=
  if typeAllowed allowed e.1.type then
    if e.1.id ∈ acc.1.visitedEdges then acc
    else
      let s := { acc.1 with
        visitedEdges := e.1.id :: acc.1.visitedEdges
        edges := acc.1.edges ++ [edgeOf names e] }
      if neighbor e ∈ s.visitedNodes then (s, acc.2)
      else
        ({ s with
           visitedNodes := neighbor e :: s.visitedNodes
           nodes := s.nodes ++ [⟨neighbor e, g.node (neighbor e), depth + 1⟩] },
         if depth + 1 < maxDepth then acc.2 ++ [(neighbor e, depth + 1)] else acc.2)
  else acc

def visit (s : WalkState P) (item : NodeId × Nat) : WalkState P × List (NodeId × Nat) :=
  if maxDepth ≤ item.2 then (s, [])
  else (entries g dir item.1).foldl (handleEntry g names allowed maxDepth item.2) (s, [])

def startState (seed : NodeId) : WalkState P where
  nodes := [⟨seed, g.node seed, 0⟩]
  edges := []
  visitedNodes := [seed]
  visitedEdges := []

/-- Every node but the first enters the frontier with a relationship not met before, so the
relationships bound the rounds of the loop. -/
def walk (seed : NodeId) : WalkState P × List (NodeId × Nat) :=
  Bfs.drain (visit g names allowed dir maxDepth) (g.rels.length + 1) [(seed, 0)]
    (startState g seed)

end

inductive ExploreError
  | invalidDepth (maxDepth : Nat)
  | invalidResults (maxResults : Nat)
  | zeroResults
  | seedNotFound (seed : NodeId)
deriving DecidableEq

def explore {P : Type} (g : Store P) (names : Names) (seed : NodeId) (maxDepth : Nat)
    (relFilter : Option (List String)) (dir : ExploreDirection) :
    Except ExploreError (Neighborhood P) :=
  match g.node seed with
  | none => .error (.seedNotFound seed)
  | some _ =>
    let s := (walk g names (allowedRelTypes names relFilter) dir maxDepth seed).1
    .ok ⟨seed, maxDepth, false, s.nodes, s.edges⟩

/-! ## The walk ends -/

section
variable {P : Type} (g : Store P) {names : Names} {allowed : Option (List Nat)}
  {dir : ExploreDirection} {maxDepth : Nat} {e : Entry}

theorem entry_spec {current : NodeId} (he : e ∈ entries g dir current) :
    e.1 ∈ g.rels ∧ ((e.1.src = current ∧ e.1.dst = neighbor e) ∨
      (e.1.dst = current ∧ e.1.src = neighbor e)) := by
  rcases mem_append.mp he with he | he
  · split at he
    · obtain ⟨r, hr, rfl⟩ := mem_map.mp he
      obtain ⟨hrel, hsrc⟩ := (g.mem_scanOut current r).mp hr
      exact ⟨hrel, .inl ⟨hsrc, rfl⟩⟩
    · cases he
  · split at he
    · obtain ⟨r, hr, rfl⟩ := mem_map.mp he
      obtain ⟨hrel, hdst⟩ := (g.mem_scanIn current r).mp hr
      exact ⟨hrel, .inr ⟨hdst, rfl⟩⟩
    · cases he

def unmet (s : WalkState P) : Nat :=
  (g.rels.filter fun r => !s.visitedEdges.contains r.id).length

theorem length_filter_lt {α : Type} {p q : α → Bool} {l : List α} {a : α} (ha : a ∈ l)
    (hp : p a = true) (hq : q a = false) (himp : ∀ x, q x = true → p x = true) :
    (l.filter q).length < (l.filter p).length := by
  rw [← countP_eq_length_filter, ← countP_eq_length_filter]
  induction l with
  | nil => cases ha
  | cons x rest ih =>
    have hle : rest.countP q ≤ rest.countP p := countP_mono_left fun y _ => himp y
    rw [countP_cons, countP_cons]
    rcases mem_cons.mp ha with rfl | ha
    · rw [hp, hq]
      simp only [if_true, Bool.false_eq_true, if_false]
      omega
    · have := ih ha
      by_cases hx : q x = true
      · rw [hx, himp x hx]
        omega
      · rw [Bool.not_eq_true] at hx
        rw [hx]
        simp only [Bool.false_eq_true, if_false]
        omega

theorem unmet_handleEntry {depth : Nat} {acc : WalkState P × List (NodeId × Nat)}
    (he : e.1 ∈ g.rels) : unmet g (handleEntry g names allowed maxDepth depth acc e).1 +
        (handleEntry g names allowed maxDepth depth acc e).2.length ≤
      unmet g acc.1 + acc.2.length := by
  unfold handleEntry
  split
  · split
    · exact Nat.le_refl _
    · rename_i hmet
      have hlt : (g.rels.filter fun r => !(e.1.id :: acc.1.visitedEdges).contains r.id).length <
          unmet g acc.1 := by
        apply length_filter_lt he
        · simpa using hmet
        · simp
        · intro r hr
          simp only [contains_cons, Bool.not_or, Bool.and_eq_true] at hr
          exact hr.2
      dsimp only
      split
      · change (g.rels.filter fun r => !(e.1.id :: acc.1.visitedEdges).contains r.id).length +
          acc.2.length ≤ _
        omega
      · change (g.rels.filter fun r => !(e.1.id :: acc.1.visitedEdges).contains r.id).length +
          _ ≤ _
        split
        · rw [length_append, length_singleton]
          omega
        · dsimp only
          omega
  · exact Nat.le_refl _

theorem unmet_visit (s : WalkState P) (item : NodeId × Nat) :
    unmet g (visit g names allowed dir maxDepth s item).1 +
      (visit g names allowed dir maxDepth s item).2.length ≤ unmet g s := by
  unfold visit
  split
  · exact Nat.le_refl _
  · have hfold : ∀ (es : List Entry) (acc : WalkState P × List (NodeId × Nat)),
        (∀ e ∈ es, e.1 ∈ g.rels) →
        unmet g (es.foldl (handleEntry g names allowed maxDepth item.2) acc).1 +
            (es.foldl (handleEntry g names allowed maxDepth item.2) acc).2.length ≤
          unmet g acc.1 + acc.2.length := by
      intro es
      induction es with
      | nil => exact fun acc _ => Nat.le_refl _
      | cons e es ih =>
        intro acc hes
        rw [foldl_cons]
        exact Nat.le_trans (ih _ fun e' he' => hes e' (mem_cons_of_mem _ he'))
          (unmet_handleEntry g (hes e mem_cons_self))
    exact hfold _ (s, []) fun e he => (entry_spec g he).1

theorem walk_ends (seed : NodeId) : (walk g names allowed dir maxDepth seed).2 = [] := by
  apply drain_empty _ (unmet g) (unmet_visit g)
  have hle : unmet g (startState g seed) ≤ g.rels.length := length_filter_le _ _
  rw [length_singleton]
  omega

end

/-! ## What the walk finds -/

variable {P : Type} (g : Store P) (names : Names) (allowed : Option (List Nat))
  (dir : ExploreDirection) (maxDepth : Nat) (seed : NodeId)

def allowedEntries (current : NodeId) : List Entry :=
  (entries g dir current).filter fun e => typeAllowed allowed e.1.type

def neighbors (current : NodeId) : List NodeId :=
  (allowedEntries g allowed dir current).map neighbor

/-- The nodes whose scans the walk has read when `k` layers are done, in that order. -/
def expanded (k : Nat) : List NodeId :=
  (range k).flatMap (Bfs.layer (neighbors g allowed dir) seed)

/-- The walk has found the nodes `seen` and read the entries `done`. -/
structure Tracks (s : WalkState P) (seen : List NodeId) (done : List Entry) : Prop where
  nodes : ∀ n, n ∈ s.visitedNodes ↔ n ∈ seen
  met : ∀ i, i ∈ s.visitedEdges ↔ ∃ e ∈ done, e.1.id = i
  ends : ∀ e ∈ done, e.1 ∈ g.rels ∧ e.1.src ∈ seen ∧ e.1.dst ∈ seen
  edges : ∀ edge, edge ∈ s.edges ↔
    ∃ e, (done.find? fun e' => e'.1.id == e.1.id) = some e ∧ edge = edgeOf names e

variable {g names allowed dir maxDepth seed}

variable {e : Entry} {s : WalkState P} {k : Nat} {done : List Entry} {current : NodeId}
  {seen : List NodeId}

/-- A relationship that has been met before changes nothing: both its ends are found. -/
theorem Tracks.again (ht : Tracks g names s seen done)
    (he : e.1 ∈ g.rels) (hmet : e.1.id ∈ s.visitedEdges) : Tracks g names s seen (done ++ [e]) := by
  obtain ⟨e', he', hid⟩ := (ht.met _).mp hmet
  have hrel : e'.1 = e.1 := g.id_unique _ (ht.ends e' he').1 _ he hid
  refine ⟨ht.nodes, ?_, ?_, ?_⟩
  · intro i
    rw [ht.met i]
    constructor
    · rintro ⟨e'', he'', hi⟩
      exact ⟨e'', mem_append_left _ he'', hi⟩
    · rintro ⟨e'', he'', hi⟩
      rcases mem_append.mp he'' with he'' | he''
      · exact ⟨e'', he'', hi⟩
      · rw [mem_singleton.mp he''] at hi
        exact ⟨e', he', hid.trans hi⟩
  · refine forall_mem_append.mpr ⟨ht.ends, forall_mem_singleton.mpr ?_⟩
    rw [← hrel]
    exact ht.ends e' he'
  · intro edge
    rw [ht.edges edge]
    have hfind : ∀ i, ((done ++ [e]).find? fun e' => e'.1.id == i) =
        done.find? fun e' => e'.1.id == i := by
      intro i
      rw [find?_append]
      by_cases hi : e.1.id = i
      · have hsome : (done.find? fun e' => e'.1.id == i).isSome :=
          find?_isSome.mpr ⟨e', he', by simp [hid, hi]⟩
        rw [or_of_isSome hsome]
      · have hnone : ([e].find? fun e' => e'.1.id == i) = none := by simp [hi]
        rw [hnone, or_none]
    simp only [hfind]

theorem Tracks.first {seen' : List NodeId}
    (ht : Tracks g names s seen done) {s' : WalkState P} (he : e.1 ∈ g.rels)
    (hmet : e.1.id ∉ s.visitedEdges) (hnodes : ∀ n, n ∈ s'.visitedNodes ↔ n ∈ seen')
    (hsub : ∀ n ∈ seen, n ∈ seen') (hsrc : e.1.src ∈ seen') (hdst : e.1.dst ∈ seen')
    (hids : s'.visitedEdges = e.1.id :: s.visitedEdges)
    (hedges : s'.edges = s.edges ++ [edgeOf names e]) : Tracks g names s' seen' (done ++ [e]) := by
  have hnew : ∀ e' ∈ done, e'.1.id ≠ e.1.id := by
    intro e' he' hid
    exact hmet ((ht.met _).mpr ⟨e', he', hid⟩)
  refine ⟨hnodes, ?_, ?_, ?_⟩
  · intro i
    rw [hids, mem_cons, ht.met i]
    constructor
    · rintro (rfl | ⟨e', he', hi⟩)
      · exact ⟨e, by simp, rfl⟩
      · exact ⟨e', mem_append_left _ he', hi⟩
    · rintro ⟨e', he', hi⟩
      rcases mem_append.mp he' with he' | he'
      · exact .inr ⟨e', he', hi⟩
      · rw [mem_singleton.mp he'] at hi
        exact .inl hi.symm
  · refine forall_mem_append.mpr ⟨fun e' he' => ?_, forall_mem_singleton.mpr ⟨he, hsrc, hdst⟩⟩
    obtain ⟨hr, hs, hd⟩ := ht.ends e' he'
    exact ⟨hr, hsub _ hs, hsub _ hd⟩
  · intro edge
    have hself : (done.find? fun e' => e'.1.id == e.1.id) = none :=
      find?_eq_none.mpr fun e' he' => by simpa using hnew e' he'
    rw [hedges, mem_append, ht.edges edge, mem_singleton]
    constructor
    · rintro (⟨e', hfind, rfl⟩ | rfl)
      · refine ⟨e', ?_, rfl⟩
        rw [find?_append, hfind, some_or]
      · refine ⟨e, ?_, rfl⟩
        rw [find?_append, hself, none_or]
        simp
    · rintro ⟨e', hfind, rfl⟩
      rw [find?_append] at hfind
      rcases or_eq_some_iff.mp hfind with hfind | ⟨-, hfind⟩
      · exact .inl ⟨e', hfind, rfl⟩
      · have := mem_of_find?_eq_some hfind
        rw [mem_singleton.mp this]
        exact .inr rfl

def pushed (maxDepth depth : Nat) (ns : List NodeId) : List (NodeId × Nat) :=
  if depth + 1 < maxDepth then ns.map fun n => (n, depth + 1) else []

theorem pushed_append (depth : Nat) (ns ns' : List NodeId) :
    pushed maxDepth depth (ns ++ ns') = pushed maxDepth depth ns ++ pushed maxDepth depth ns' := by
  unfold pushed
  split
  · rw [map_append]
  · rfl

def nodesAt (g : Store P) (depth : Nat) (ns : List NodeId) : List (NeighborhoodNode P) :=
  ns.map fun n => ⟨n, g.node n, depth⟩

variable (g names maxDepth) in
/-- From `s` with the pushes `acc` the walk has read the entries `es`, which lead to `ns`: those
that are new are found and pushed. -/
structure Advances (depth : Nat) (s : WalkState P) (acc : List (NodeId × Nat))
    (seen ns : List NodeId) (done es : List Entry) (r : WalkState P × List (NodeId × Nat)) :
    Prop where
  pushes : r.2 = acc ++ pushed maxDepth depth (Bfs.fresh seen ns)
  tracks : Tracks g names r.1 (seen ++ Bfs.fresh seen ns) (done ++ es)
  nodes : r.1.nodes = s.nodes ++ nodesAt g (depth + 1) (Bfs.fresh seen ns)

variable {depth : Nat} {acc : List (NodeId × Nat)} {ns ns' : List NodeId} {es es' : List Entry}
  {r r' : WalkState P × List (NodeId × Nat)}

theorem Advances.refl (ht : Tracks g names s seen done) :
    Advances g names maxDepth depth s acc seen [] done [] (s, acc) :=
  ⟨by simp [fresh, pushed], by simpa [fresh] using ht, by simp [fresh, nodesAt]⟩

theorem Advances.trans (h : Advances g names maxDepth depth s acc seen ns done es r)
    (h' : Advances g names maxDepth depth r.1 r.2 (seen ++ fresh seen ns) ns' (done ++ es) es'
      r') : Advances g names maxDepth depth s acc seen (ns ++ ns') done (es ++ es') r' where
  pushes := by rw [h'.pushes, h.pushes, fresh_append, pushed_append, append_assoc]
  tracks := by
    rw [fresh_append, ← append_assoc, ← append_assoc]
    exact h'.tracks
  nodes := by
    rw [h'.nodes, h.nodes, fresh_append, append_assoc]
    simp only [nodesAt, map_append]

variable (maxDepth depth acc) in
theorem Tracks.entry (ht : Tracks g names s seen done) (hcur : current ∈ seen)
    (he : e ∈ entries g dir current) (hallow : typeAllowed allowed e.1.type = true) :
    Advances g names maxDepth depth s acc seen [neighbor e] done [e]
      (handleEntry g names allowed maxDepth depth (s, acc) e) := by
  obtain ⟨hrel, hends⟩ := entry_spec g he
  by_cases hmet : e.1.id ∈ s.visitedEdges
  · -- met before, from this end or the other: both ends are found
    have ht' := ht.again hrel hmet
    have hseen : neighbor e ∈ seen := by
      obtain ⟨-, hs, hd⟩ := ht'.ends e (by simp)
      rcases hends with ⟨-, hn⟩ | ⟨-, hn⟩
      · exact hn ▸ hd
      · exact hn ▸ hs
    have hfresh := fresh_of_mem hseen
    rw [handleEntry, if_pos hallow, if_pos hmet]
    exact ⟨by simp [hfresh, pushed], by simpa [hfresh] using ht', by simp [hfresh, nodesAt]⟩
  · by_cases hseen : neighbor e ∈ seen
    · have hvis : neighbor e ∈ s.visitedNodes := (ht.nodes _).mpr hseen
      have hboth : e.1.src ∈ seen ∧ e.1.dst ∈ seen := by
        rcases hends with ⟨hc, hn⟩ | ⟨hc, hn⟩
        · exact ⟨hc ▸ hcur, hn ▸ hseen⟩
        · exact ⟨hn ▸ hseen, hc ▸ hcur⟩
      have hfresh := fresh_of_mem hseen
      have hrun : handleEntry g names allowed maxDepth depth (s, acc) e = ({ s with
          visitedEdges := e.1.id :: s.visitedEdges
          edges := s.edges ++ [edgeOf names e] }, acc) := by
        rw [handleEntry, if_pos hallow, if_neg hmet]
        exact if_pos hvis
      rw [hrun]
      refine ⟨by simp [hfresh, pushed], ?_, by simp [hfresh, nodesAt]⟩
      rw [hfresh, append_nil]
      exact ht.first hrel hmet ht.nodes (fun _ hn => hn) hboth.1 hboth.2 rfl rfl
    · have hvis : neighbor e ∉ s.visitedNodes := fun hv => hseen ((ht.nodes _).mp hv)
      have hboth : e.1.src ∈ seen ++ [neighbor e] ∧ e.1.dst ∈ seen ++ [neighbor e] := by
        rcases hends with ⟨hc, hn⟩ | ⟨hc, hn⟩
        · exact ⟨mem_append_left _ (hc ▸ hcur), by simp [hn]⟩
        · exact ⟨by simp [hn], mem_append_left _ (hc ▸ hcur)⟩
      have hrun : handleEntry g names allowed maxDepth depth (s, acc) e = ({ s with
          visitedEdges := e.1.id :: s.visitedEdges
          edges := s.edges ++ [edgeOf names e]
          visitedNodes := neighbor e :: s.visitedNodes
          nodes := s.nodes ++ [⟨neighbor e, g.node (neighbor e), depth + 1⟩] },
          acc ++ pushed maxDepth depth [neighbor e]) := by
        rw [handleEntry, if_pos hallow, if_neg hmet]
        refine (if_neg hvis).trans ?_
        unfold pushed
        split
        · rfl
        · rw [append_nil]
      rw [hrun]
      refine ⟨?_, ?_, ?_⟩ <;> rw [fresh_of_not_mem hseen]
      · refine ht.first hrel hmet ?_ (fun _ hn => mem_append_left _ hn) hboth.1 hboth.2
          rfl rfl
        intro n
        change n ∈ neighbor e :: s.visitedNodes ↔ _
        rw [mem_cons, ht.nodes n, mem_append, mem_singleton, or_comm]
      · rfl

theorem Tracks.read (ht : Tracks g names s seen done) (hcur : current ∈ seen)
    (hes : ∀ e ∈ es, e ∈ entries g dir current) :
    Advances g names maxDepth depth s acc seen
      ((es.filter fun e => typeAllowed allowed e.1.type).map neighbor) done
      (es.filter fun e => typeAllowed allowed e.1.type)
      (es.foldl (handleEntry g names allowed maxDepth depth) (s, acc)) := by
  induction es generalizing s seen done acc with
  | nil => exact .refl ht
  | cons e es ih =>
    have hrest : ∀ e' ∈ es, e' ∈ entries g dir current :=
      fun e' he' => hes e' (mem_cons_of_mem _ he')
    rw [foldl_cons]
    by_cases hallow : typeAllowed allowed e.1.type = true
    · have hentry := ht.entry maxDepth depth acc hcur (hes e mem_cons_self) hallow
      rw [filter_cons_of_pos (by exact hallow), map_cons]
      exact hentry.trans (ih hentry.tracks (mem_append_left _ hcur) hrest)
    · have hstep : handleEntry g names allowed maxDepth depth (s, acc) e = (s, acc) := by
        rw [handleEntry, if_neg hallow]
      rw [hstep, filter_cons_of_neg (by exact hallow)]
      exact ih ht hcur hrest

variable (allowed dir) in
theorem Tracks.visit (ht : Tracks g names s seen done) (hcur : current ∈ seen)
    (hdepth : depth < maxDepth) :
    Advances g names maxDepth depth s [] seen (neighbors g allowed dir current) done
      (allowedEntries g allowed dir current)
      (Explore.visit g names allowed dir maxDepth s (current, depth)) := by
  rw [Explore.visit, if_neg (Nat.not_le.mpr hdepth)]
  exact ht.read hcur fun e he => he

variable (allowed dir) in
theorem Tracks.expand (ns : List NodeId) (ht : Tracks g names s seen done)
    (hdepth : depth < maxDepth) (hns : ∀ n ∈ ns, n ∈ seen) :
    Advances g names maxDepth depth s [] seen (ns.flatMap (neighbors g allowed dir)) done
      (ns.flatMap (allowedEntries g allowed dir))
      (expand (Explore.visit g names allowed dir maxDepth) (ns.map fun n => (n, depth)) s) := by
  induction ns generalizing s seen done with
  | nil => exact .refl ht
  | cons n ns ih =>
    have hvisit := ht.visit allowed dir (hns n mem_cons_self) hdepth
    have hrest := ih hvisit.tracks fun n' hn' =>
      mem_append_left _ (hns n' (mem_cons_of_mem _ hn'))
    rw [flatMap_cons, flatMap_cons]
    refine hvisit.trans ⟨?_, hrest.tracks, hrest.nodes⟩
    exact congrArg (_ ++ ·) hrest.pushes

/-! ## Layer by layer -/

variable (g names allowed dir maxDepth seed)

/-- The frontier when `k` layers are done. -/
def frontierAt : Nat → List (NodeId × Nat)
  | 0 => [(seed, 0)]
  | k + 1 => pushed maxDepth k (Bfs.layer (neighbors g allowed dir) seed (k + 1))

def stateAt : Nat → WalkState P
  | 0 => startState g seed
  | k + 1 =>
    (Bfs.expand (visit g names allowed dir maxDepth)
      (frontierAt g allowed dir maxDepth seed k) (stateAt k)).1

variable {g names allowed dir maxDepth seed}

theorem frontierAt_of_lt (hk : k < maxDepth) :
    frontierAt g allowed dir maxDepth seed k =
      (layer (neighbors g allowed dir) seed k).map fun n => (n, k) := by
  cases k with
  | zero => rfl
  | succ k => exact if_pos hk

variable (g allowed dir seed) in
theorem frontierAt_of_le (hk : maxDepth ≤ k + 1) :
    frontierAt g allowed dir maxDepth seed (k + 1) = [] :=
  if_neg (Nat.not_lt.mpr hk)

variable (g names allowed dir maxDepth seed) in
/-- The state when `k` layers are done, `k` at most the depth bound. -/
structure Done (k : Nat) : Prop where
  tracks : Tracks g names (stateAt g names allowed dir maxDepth seed k)
    (Bfs.found (neighbors g allowed dir) seed k)
    ((expanded g allowed dir seed k).flatMap (allowedEntries g allowed dir))
  nodes : (stateAt g names allowed dir maxDepth seed k).nodes =
    (range (k + 1)).flatMap fun j =>
      nodesAt g j (Bfs.layer (neighbors g allowed dir) seed j)

theorem done_zero : Done g names allowed dir maxDepth seed 0 where
  tracks :=
    { nodes := fun n => Iff.rfl
      met := fun i => ⟨fun h => (by cases h), fun h => by
        obtain ⟨e, he, -⟩ := h
        cases he⟩
      ends := fun e he => by cases he
      edges := fun edge => ⟨fun h => (by cases h), fun h => by
        obtain ⟨e, he, -⟩ := h
        cases he⟩ }
  nodes := rfl

theorem expanded_succ (k : Nat) : expanded g allowed dir seed (k + 1) =
      expanded g allowed dir seed k ++ layer (neighbors g allowed dir) seed k := by
  simp [expanded, range_succ, flatMap_append]

theorem Done.succ (h : Done g names allowed dir maxDepth seed k) (hk : k < maxDepth) :
    expand (visit g names allowed dir maxDepth) (frontierAt g allowed dir maxDepth seed k)
        (stateAt g names allowed dir maxDepth seed k) =
      (stateAt g names allowed dir maxDepth seed (k + 1),
        frontierAt g allowed dir maxDepth seed (k + 1)) ∧
    Done g names allowed dir maxDepth seed (k + 1) := by
  have hstep := h.tracks.expand allowed dir (layer (neighbors g allowed dir) seed k) hk
    fun n hn => mem_found_iff_layer.mpr ⟨k, Nat.le_refl k, hn⟩
  rw [← frontierAt_of_lt hk] at hstep
  refine ⟨Prod.ext rfl hstep.pushes, ?_, ?_⟩
  · rw [expanded_succ, flatMap_append]
    exact hstep.tracks
  · rw [show (stateAt g names allowed dir maxDepth seed (k + 1)).nodes = _ from hstep.nodes, h.nodes,
      range_succ (n := k + 1), flatMap_append, flatMap_singleton]
    rfl

theorem done_of_le (hk : k ≤ maxDepth) : Done g names allowed dir maxDepth seed k := by
  induction k with
  | zero => exact done_zero
  | succ k ih => exact ((ih (by omega)).succ (by omega)).2

/-- Beyond the depth bound nothing moves; a bound of zero takes the seed from the frontier
and leaves it. -/
theorem stateAt_succ_of_le (hk : maxDepth ≤ k) : stateAt g names allowed dir maxDepth seed (k + 1) =
      stateAt g names allowed dir maxDepth seed k := by
  cases k with
  | zero =>
    have hvisit : visit g names allowed dir maxDepth (startState g seed) (seed, 0) =
        (startState g seed, []) := if_pos hk
    simp only [stateAt, frontierAt, expand, hvisit]
  | succ k =>
    rw [stateAt, frontierAt_of_le g allowed dir seed hk]
    rfl

variable (g names allowed dir maxDepth seed) in
theorem expand_frontierAt (k : Nat) :
    expand (visit g names allowed dir maxDepth) (frontierAt g allowed dir maxDepth seed k)
        (stateAt g names allowed dir maxDepth seed k) =
      (stateAt g names allowed dir maxDepth seed (k + 1),
        frontierAt g allowed dir maxDepth seed (k + 1)) := by
  by_cases hk : k < maxDepth
  · exact ((done_of_le (Nat.le_of_lt hk)).succ hk).1
  · refine Prod.ext rfl ?_
    rw [frontierAt_of_le g allowed dir seed (show maxDepth ≤ k + 1 by omega)]
    cases k with
    | zero =>
      have hvisit : visit g names allowed dir maxDepth (startState g seed) (seed, 0) =
          (startState g seed, []) := if_pos (by omega)
      simp only [frontierAt, stateAt, expand, hvisit, append_nil]
    | succ k =>
      rw [frontierAt_of_le g allowed dir seed (show maxDepth ≤ k + 1 by omega)]
      rfl

theorem stateAt_of_empty (h : frontierAt g allowed dir maxDepth seed k = []) (j : Nat) :
    frontierAt g allowed dir maxDepth seed (k + j) = [] ∧
      stateAt g names allowed dir maxDepth seed (k + j) =
        stateAt g names allowed dir maxDepth seed k := by
  induction j with
  | zero => exact ⟨h, rfl⟩
  | succ j ih =>
    have hexpand := expand_frontierAt g names allowed dir maxDepth seed (k + j)
    rw [ih.1] at hexpand
    exact ⟨(congrArg Prod.snd hexpand).symm, (congrArg Prod.fst hexpand).symm.trans ih.2⟩

theorem walk_eq : (walk g names allowed dir maxDepth seed).1 =
    stateAt g names allowed dir maxDepth seed maxDepth := by
  obtain ⟨k, hempty, hstate⟩ := drain_layers (visit g names allowed dir maxDepth)
    (frontierAt g allowed dir maxDepth seed) (stateAt g names allowed dir maxDepth seed)
    (expand_frontierAt g names allowed dir maxDepth seed) (walk_ends g seed)
  refine hstate.trans ?_
  rcases Nat.le_total k maxDepth with hle | hle
  · obtain ⟨j, rfl⟩ := Nat.exists_eq_add_of_le hle
    exact (stateAt_of_empty hempty j).2.symm
  · clear hempty hstate
    induction hle with
    | refl => rfl
    | step hk ih => exact (stateAt_succ_of_le hk).trans ih

/-! ## Nodes and relationships -/

/-- The tag of a relationship from `src` to `dst` among the scans of `c`. -/
def tagAt (dir : ExploreDirection) (src dst c : NodeId) : Option NeighborDirection :=
  if dir.wantOut = true ∧ src = c then some .out
  else if dir.wantIn = true ∧ dst = c then some .inn
  else none

variable (g allowed dir maxDepth seed) in
/-- The end from which the walk first meets a relationship from `src` to `dst`, if it
meets one: that of the node that is expanded first. -/
def metFrom (src dst : NodeId) : Option NeighborDirection :=
  (expanded g allowed dir seed maxDepth).findSome? (tagAt dir src dst)

theorem find?_allowedEntries {c : NodeId} {r : Rel} (hr : r ∈ g.rels)
    (hallow : typeAllowed allowed r.type = true) :
    ((allowedEntries g allowed dir c).find? fun e => e.1.id == r.id) =
      (tagAt dir r.src r.dst c).map fun tag => (r, tag) := by
  have hscan : ∀ (l : List Rel) (tag : NeighborDirection), (∀ r' ∈ l, r' ∈ g.rels) →
      (((l.map fun r' => (r', tag)).filter fun e => typeAllowed allowed e.1.type).find?
        fun e => e.1.id == r.id) = if r ∈ l then some (r, tag) else none := by
    intro l tag hl
    induction l with
    | nil => rfl
    | cons r' l ih =>
      have ihl := ih fun r'' hr'' => hl r'' (mem_cons_of_mem _ hr'')
      by_cases heq : r' = r
      · subst heq
        rw [map_cons, filter_cons_of_pos (by exact hallow), find?_cons_of_pos
          (by simp), if_pos mem_cons_self]
      · have hid : r'.id ≠ r.id := fun hid =>
          heq (g.id_unique r' (hl r' mem_cons_self) r hr hid)
        have hmem : (r ∈ r' :: l) = (r ∈ l) := by
          rw [mem_cons, eq_iff_iff]
          exact ⟨fun h => h.resolve_left fun h => heq h.symm, .inr⟩
        simp only [hmem, map_cons, ← ihl]
        by_cases ha : typeAllowed allowed r'.type = true
        · rw [filter_cons_of_pos (by exact ha), find?_cons_of_neg (by simpa using hid)]
        · rw [filter_cons_of_neg (by exact ha)]
  have hout := hscan (g.scanOut c) .out fun r' hr' => ((g.mem_scanOut c r').mp hr').1
  have hin := hscan (g.scanIn c) .inn fun r' hr' => ((g.mem_scanIn c r').mp hr').1
  simp only [g.mem_scanOut, g.mem_scanIn, hr, true_and] at hout hin
  rw [allowedEntries, entries, filter_append, find?_append]
  unfold tagAt
  cases dir.wantOut <;> cases dir.wantIn <;>
    simp only [Bool.false_eq_true, if_false, if_true, false_and, true_and, filter_nil,
      find?_nil, hout, hin] <;>
    by_cases hs : r.src = c <;> by_cases hd : r.dst = c <;> simp [hs, hd]

theorem mem_allowedEntries {c : NodeId} (he : e ∈ allowedEntries g allowed dir c) :
    e.1 ∈ g.rels ∧ typeAllowed allowed e.1.type = true := by
  obtain ⟨he, hallow⟩ := mem_filter.mp he
  exact ⟨(entry_spec g he).1, hallow⟩

theorem find?_expanded {r : Rel} (hr : r ∈ g.rels) (hallow : typeAllowed allowed r.type = true) :
    ((ns.flatMap (allowedEntries g allowed dir)).find? fun e => e.1.id == r.id) =
      (ns.findSome? (tagAt dir r.src r.dst)).map fun tag => (r, tag) := by
  induction ns with
  | nil => rfl
  | cons c ns ih =>
    rw [flatMap_cons, find?_append, ih, find?_allowedEntries hr hallow, findSome?_cons]
    cases tagAt dir r.src r.dst c <;> rfl

theorem mem_walk_edges (edge : NeighborhoodEdge) :
    edge ∈ (walk g names allowed dir maxDepth seed).1.edges ↔
      ∃ r ∈ g.rels, typeAllowed allowed r.type = true ∧
        ∃ tag, metFrom g allowed dir maxDepth seed r.src r.dst = some tag ∧
          edge = edgeOf names (r, tag) := by
  rw [walk_eq, (done_of_le (Nat.le_refl maxDepth)).tracks.edges]
  constructor
  · rintro ⟨e, hfind, rfl⟩
    obtain ⟨c, -, he⟩ := mem_flatMap.mp (mem_of_find?_eq_some hfind)
    obtain ⟨hr, hallow⟩ := mem_allowedEntries he
    rw [find?_expanded hr hallow] at hfind
    obtain ⟨tag, hmet, heq⟩ := map_eq_some_iff.mp hfind
    refine ⟨e.1, hr, hallow, tag, hmet, ?_⟩
    rw [heq]
  · rintro ⟨r, hr, hallow, tag, hmet, rfl⟩
    refine ⟨(r, tag), ?_, rfl⟩
    rw [find?_expanded hr hallow]
    exact map_eq_some_iff.mpr ⟨tag, hmet, rfl⟩

theorem mem_walk_nodes (x : NeighborhoodNode P) :
    x ∈ (walk g names allowed dir maxDepth seed).1.nodes ↔
      ∃ d ≤ maxDepth, Bfs.Dist (neighbors g allowed dir) seed d x.id ∧
        x = ⟨x.id, g.node x.id, d⟩ := by
  rw [walk_eq, (done_of_le (Nat.le_refl maxDepth)).nodes, mem_flatMap]
  constructor
  · rintro ⟨d, hd, hx⟩
    obtain ⟨n, hn, rfl⟩ := mem_map.mp hx
    exact ⟨d, le_of_lt_succ (mem_range.mp hd), mem_layer.mp hn, rfl⟩
  · rintro ⟨d, hd, hdist, hx⟩
    exact ⟨d, mem_range.mpr (lt_succ_of_le hd),
      mem_map.mpr ⟨x.id, mem_layer.mpr hdist, hx.symm⟩⟩

/-- A relationship is met if and only if an end from which it is scanned has a distance
below the bound. -/
theorem metFrom_isSome {s t : NodeId} : (metFrom g allowed dir maxDepth seed s t).isSome ↔
      ∃ c, (dir.wantOut = true ∧ s = c ∨ dir.wantIn = true ∧ t = c) ∧
        ∃ d < maxDepth, Bfs.Dist (neighbors g allowed dir) seed d c := by
  rw [metFrom, findSome?_isSome_iff]
  simp only [expanded, mem_flatMap, mem_range, mem_layer]
  constructor
  · rintro ⟨c, ⟨d, hd, hdist⟩, hsome⟩
    refine ⟨c, ?_, d, hd, hdist⟩
    unfold tagAt at hsome
    split at hsome
    · rename_i h
      exact .inl h
    · split at hsome
      · rename_i h
        exact .inr h
      · cases hsome
  · rintro ⟨c, hend, d, hd, hdist⟩
    refine ⟨c, ⟨d, hd, hdist⟩, ?_⟩
    unfold tagAt
    split
    · rfl
    · rename_i hout
      rw [if_pos (hend.resolve_left hout)]
      rfl

end ArcGraph.Explore
