import ArcGraph.Foundation.Sorting
import ArcGraph.Permissions.Index

/-!
# Reads under a principal's permissions

Queries of a principal read the graph through a decorator that asks the inner substrate and
drops what the principal may not see: nodes, hits on nodes, and relationships with an
endpoint that is not visible. A principal's counts are taken over filtered scans.

Two stores that agree on what is visible answer every call alike but the top-k searches:
these bound the ranking before it is filtered, so the denied nodes among the k best decide
how many visible ones are returned (`reads_agree_iff`).

The inner substrate answers from its whole store. A read names the view it is made on, by
its LSN or its transaction. Property values, query vectors and scores are parameters.
-/

namespace ArcGraph.Permissions
open Foundation List

inductive ReadAccess
  | systemTrusted
  | principal (permissions : EffectivePermissions) (index : PermissionIndex)

def ReadAccess.allows : ReadAccess → NodeId → Bool
  | systemTrusted, _ => true
  | principal permissions index, node => permissions.isVisible index node

variable {V Q W : Type}

structure NodeView (V : Type) where
  id : NodeId
  label : Option Nat
  properties : List (String × V)
  community : Option Int
deriving DecidableEq

structure RelView (V : Type) where
  id : Nat
  src : NodeId
  dst : NodeId
  relType : Option Nat
  properties : List (String × V)
deriving DecidableEq

structure BoundEdge (V : Type) where
  rel : RelView V
  dst : NodeView V
deriving DecidableEq

structure RankedHit (V W : Type) where
  node : NodeView V
  score : W
deriving DecidableEq

inductive Direction
  | leftToRight
  | rightToLeft
  | undirected
deriving DecidableEq

inductive CountStoreSource
  | nodes
  | nodesWithLabel (label : Nat)
  | relationships
  | relsWithType (relType : Nat)

/-- What one view of the inner store holds. Relationship ids are unique. -/
structure StoreView (V Q W : Type) where
  nodes : List (NodeView V)
  rels : List (RelView V)
  vectorRanking : String → Q → List (RankedHit V W)
  textRanking : String → String → List (RankedHit V W)
  rel_ids : (rels.map (·.id)).Nodup

/-! ## The inner substrate -/

namespace StoreView
variable (view : StoreView V Q W) (label : Option Nat)

def scanNodes : List (NodeView V) :=
  view.nodes.filter fun n => label.all fun l => n.label = some l

def scanNodesProjected (projected : List String) : List (NodeView V) :=
  (view.scanNodes label).map fun n =>
    { n with properties := n.properties.filter fun p => projected.contains p.1 }

def nodeById (id : NodeId) : Option (NodeView V) := view.nodes.find? (·.id = id)

def propertyIndexLookup [DecidableEq V] (label : Nat) (property : String) (value : V) :
    List (NodeView V) :=
  view.nodes.filter fun n => n.label = some label ∧ (property, value) ∈ n.properties

def communityMembers (id : Int) : List (NodeView V) :=
  view.nodes.filter fun n => n.community = some id

/-- The edge to the far end of a relationship, unless that node is gone. -/
def materialize (farEnd : NodeId) (rel : RelView V) : Option (BoundEdge V) :=
  (view.nodeById farEnd).map fun dst => ⟨rel, dst⟩

def scanOut (node : NodeId) (relType : Option Nat) : List (BoundEdge V) :=
  (view.rels.filter fun r => r.src = node ∧ relType.all fun t => r.relType = some t).filterMap
    fun r => view.materialize r.dst r

def scanIn (node : NodeId) (relType : Option Nat) : List (BoundEdge V) :=
  (view.rels.filter fun r => r.dst = node ∧ relType.all fun t => r.relType = some t).filterMap
    fun r => view.materialize r.src r

def dedupByKey {α : Type} (key : α → Nat) : Option Nat → List α → List α
  | _, [] => []
  | last, a :: l =>
    if last = some (key a) then dedupByKey key last l
    else a :: dedupByKey key (some (key a)) l

/-- A self-loop is found from both ends and returned once. -/
def expand (node : NodeId) (relType : Option Nat) : Direction → List (BoundEdge V)
  | .leftToRight => view.scanOut node relType
  | .rightToLeft => view.scanIn node relType
  | .undirected =>
    dedupByKey (·.rel.id) none
      (sortBy (·.rel.id) (view.scanOut node relType ++ view.scanIn node relType))

def countStore : CountStoreSource → Nat
  | .nodes => view.nodes.length
  | .nodesWithLabel label => (view.scanNodes (some label)).length
  | .relationships => view.rels.length
  | .relsWithType relType => (view.rels.filter (·.relType = some relType)).length

end StoreView

/-! ## The decorator -/

variable (access : ReadAccess)

def retainNodes (nodes : List (NodeView V)) : List (NodeView V) :=
  nodes.filter fun n => access.allows n.id

def edgeAllowed (e : BoundEdge V) : Bool :=
  access.allows e.dst.id && access.allows e.rel.src && access.allows e.rel.dst

def retainEdges (node : NodeId) (edges : List (BoundEdge V)) : List (BoundEdge V) :=
  if access.allows node then edges.filter (edgeAllowed access) else []

def retainHits (hits : List (RankedHit V W)) : List (RankedHit V W) :=
  hits.filter fun h => access.allows h.node.id

variable (view : StoreView V Q W)

/-- The 64-bit total saturates. -/
def countRels (relType : Option Nat) : Nat :=
  (retainNodes access (view.scanNodes none)).foldl (fun count n =>
    min (count + (retainEdges access n.id (view.expand n.id relType .leftToRight)).length)
      (2 ^ 64 - 1)) 0

def countStore (source : CountStoreSource) : Nat :=
  match access, source with
  | .systemTrusted, _ => view.countStore source
  | .principal .., .nodes => (retainNodes access (view.scanNodes none)).length
  | .principal .., .nodesWithLabel label =>
    (retainNodes access (view.scanNodes (some label))).length
  | .principal .., .relationships => countRels access view none
  | .principal .., .relsWithType relType => countRels access view (some relType)

/-- The read calls; `view` says which view of the store a call is made on. -/
inductive ReadCall (V Q : Type)
  | countStore (source : CountStoreSource)
  | scanNodes (view : Nat) (label : Option Nat)
  | scanNodesProjected (view : Nat) (label : Option Nat) (projected : List String)
  | nodeById (view : Nat) (id : NodeId)
  | propertyIndexLookup (view : Nat) (label : Nat) (property : String) (value : V)
  | expand (view : Nat) (node : NodeId) (relType : Option Nat) (direction : Direction)
  | expandCursor (view : Nat) (node : NodeId) (relType : Option Nat) (direction : Direction)
  | vectorSearch (view : Nat) (property : String) (query : Q) (k : Nat)
  | bm25Search (view : Nat) (property : String) (query : String) (k : Nat)
  | communityMembers (view : Nat) (id : Int)

inductive ReadResult (V W : Type)
  | count (n : Nat)
  | nodes (nodes : List (NodeView V))
  | node (node : Option (NodeView V))
  | edges (edges : List (BoundEdge V))
  | hits (hits : List (RankedHit V W))
deriving DecidableEq

def newestView : Nat := 2 ^ 64 - 1

/-- The answer to a call of a principal. A cursor is what it yields. -/
def read [DecidableEq V] (store : Nat → StoreView V Q W) : ReadCall V Q → ReadResult V W
  | .countStore source => .count (countStore access (store newestView) source)
  | .scanNodes view label => .nodes (retainNodes access ((store view).scanNodes label))
  | .scanNodesProjected view label projected =>
    .nodes (retainNodes access ((store view).scanNodesProjected label projected))
  | .nodeById view id => .node (if access.allows id then (store view).nodeById id else none)
  | .propertyIndexLookup view label property value =>
    .nodes (retainNodes access ((store view).propertyIndexLookup label property value))
  | .expand view node relType direction =>
    .edges (retainEdges access node ((store view).expand node relType direction))
  | .expandCursor view node relType direction =>
    .edges (if access.allows node then
      ((store view).expand node relType direction).filter (edgeAllowed access) else [])
  | .vectorSearch view property query k =>
    .hits (retainHits access (((store view).vectorRanking property query).take k))
  | .bm25Search view property query k =>
    .hits (retainHits access (((store view).textRanking property query).take k))
  | .communityMembers view id => .nodes (retainNodes access ((store view).communityMembers id))

/-! ## Agreement -/

/-- The two views hold the same visible nodes, the same relationships between them, and rank
the visible nodes alike. -/
structure AgreeOnVisible (a b : StoreView V Q W) : Prop where
  nodes : retainNodes access a.nodes = retainNodes access b.nodes
  rels : a.rels.filter (fun r => access.allows r.src && access.allows r.dst) =
    b.rels.filter fun r => access.allows r.src && access.allows r.dst
  vectorRanking : ∀ property query, retainHits access (a.vectorRanking property query) =
    retainHits access (b.vectorRanking property query)
  textRanking : ∀ property query, retainHits access (a.textRanking property query) =
    retainHits access (b.textRanking property query)

/-- How many of the first `k` of a ranking are visible. -/
def visibleCount (ranking : List (RankedHit V W)) (k : Nat) : Nat :=
  (ranking.take k).countP fun hit => access.allows hit.node.id

/-- The `k` best of a search hold as many visible nodes in both stores. -/
def SameShare (a b : Nat → StoreView V Q W) : ReadCall V Q → Prop
  | .vectorSearch view property query k =>
    visibleCount access ((a view).vectorRanking property query) k =
      visibleCount access ((b view).vectorRanking property query) k
  | .bm25Search view property query k =>
    visibleCount access ((a view).textRanking property query) k =
      visibleCount access ((b view).textRanking property query) k
  | _ => True

/-! ## Nodes -/

variable {access} {a b view : StoreView V Q W} {id node : NodeId} {e : BoundEdge V}
  {relType : Option Nat}

theorem retainNodes_filter (p : NodeView V → Bool) (nodes : List (NodeView V)) :
    retainNodes access (nodes.filter p) = (retainNodes access nodes).filter p := by
  unfold retainNodes
  rw [filter_filter, filter_filter]
  simp only [Bool.and_comm]

theorem AgreeOnVisible.filter (h : AgreeOnVisible access a b) (p : NodeView V → Bool) :
    retainNodes access (a.nodes.filter p) = retainNodes access (b.nodes.filter p) := by
  rw [retainNodes_filter, retainNodes_filter, h.nodes]

theorem AgreeOnVisible.scanNodesProjected (h : AgreeOnVisible access a b) (label : Option Nat)
    (projected : List String) : retainNodes access (a.scanNodesProjected label projected) =
      retainNodes access (b.scanNodesProjected label projected) := by
  have hscan := h.filter fun n => label.all fun l => n.label = some l
  unfold retainNodes at hscan
  unfold retainNodes StoreView.scanNodesProjected StoreView.scanNodes
  rw [filter_map, filter_map]
  exact congrArg _ hscan

open StoreView

theorem nodeById_eq (hid : access.allows id = true) (view : StoreView V Q W) :
    view.nodeById id = (retainNodes access view.nodes).find? (·.id = id) := by
  unfold nodeById retainNodes
  rw [find?_filter]
  congr 1
  funext n
  by_cases hn : n.id = id
  · subst hn
    simp [hid]
  · simp [hn]

theorem AgreeOnVisible.nodeById (h : AgreeOnVisible access a b)
    (hid : access.allows id = true) : a.nodeById id = b.nodeById id := by
  rw [nodeById_eq hid, nodeById_eq hid, h.nodes]

/-! ## Relationships -/

theorem filter_filterMap_of {α β : Type} {f : α → Option β} {p : β → Bool} {q : α → Bool}
    {l : List α} (h : ∀ x ∈ l, ∀ y, f x = some y → p y = q x) :
    (l.filterMap f).filter p = (l.filter q).filterMap f := by
  induction l with
  | nil => rfl
  | cons x l ih =>
    have ih := ih fun y hy => h y (mem_cons_of_mem x hy)
    cases hx : f x with
    | none =>
      rw [filterMap_cons_none hx, ih]
      cases hq : q x with
      | true => rw [filter_cons_of_pos hq, filterMap_cons_none hx]
      | false => rw [filter_cons_of_neg (by simp [hq])]
    | some y =>
      have hp := h x mem_cons_self y hx
      rw [filterMap_cons_some hx]
      cases hq : q x with
      | true =>
        rw [filter_cons_of_pos (hp.trans hq), filter_cons_of_pos hq, filterMap_cons_some hx, ih]
      | false =>
        rw [filter_cons_of_neg (by simp [hp, hq]), filter_cons_of_neg (by simp [hq]), ih]

def relAllowed (access : ReadAccess) (r : RelView V) : Bool :=
  access.allows r.src && access.allows r.dst

theorem materialize_eq_some {farEnd : NodeId} {r : RelView V}
    (h : view.materialize farEnd r = some e) :
    e.rel = r ∧ e.dst.id = farEnd ∧ view.nodeById farEnd = some e.dst := by
  obtain ⟨_, hdst, rfl⟩ := Option.map_eq_some_iff.mp h
  have hid := find?_some hdst
  exact ⟨rfl, of_decide_eq_true hid, hdst⟩

section
variable (h : AgreeOnVisible access a b)
include h

theorem AgreeOnVisible.scan (matching : RelView V → Bool)
    {far : RelView V → NodeId} (hfar : ∀ r, far r = r.src ∨ far r = r.dst) :
    ((a.rels.filter matching).filterMap fun r => a.materialize (far r) r).filter
        (edgeAllowed access) =
      ((b.rels.filter matching).filterMap fun r => b.materialize (far r) r).filter
        (edgeAllowed access) := by
  -- an edge is kept exactly when its relationship is visible
  have hview : ∀ view : StoreView V Q W,
      ((view.rels.filter matching).filterMap fun r => view.materialize (far r) r).filter
          (edgeAllowed access) =
        ((view.rels.filter (relAllowed access)).filter matching).filterMap
          fun r => view.materialize (far r) r := by
    intro view
    rw [filter_filterMap_of (q := relAllowed access)]
    · rw [filter_filter, filter_filter]
      simp only [Bool.and_comm]
    · intro r _ e he
      obtain ⟨rfl, hdst, -⟩ := materialize_eq_some he
      unfold edgeAllowed relAllowed
      rw [hdst]
      rcases hfar e.rel with hf | hf <;> rw [hf]
      · cases access.allows e.rel.src <;> simp
      · cases access.allows e.rel.dst <;> simp
  have hrels : a.rels.filter (relAllowed access) = b.rels.filter (relAllowed access) := h.rels
  rw [hview, hview, hrels]
  apply filterMap_congr
  intro r hr
  have hallowed := of_mem_filter (mem_of_mem_filter hr)
  unfold relAllowed at hallowed
  rw [Bool.and_eq_true] at hallowed
  have hend : access.allows (far r) = true := by
    rcases hfar r with hf | hf <;> rw [hf]
    · exact hallowed.1
    · exact hallowed.2
  unfold materialize
  rw [h.nodeById hend]

theorem AgreeOnVisible.scanOut (node : NodeId)
    (relType : Option Nat) : (a.scanOut node relType).filter (edgeAllowed access) =
      (b.scanOut node relType).filter (edgeAllowed access) :=
  h.scan _ fun _ => .inr rfl

theorem AgreeOnVisible.scanIn (node : NodeId)
    (relType : Option Nat) : (a.scanIn node relType).filter (edgeAllowed access) =
      (b.scanIn node relType).filter (edgeAllowed access) :=
  h.scan _ fun _ => .inl rfl

end

/-! ## Both directions -/

section
variable {α : Type} {key : α → Nat} {l : List α}

/-- What `last` bounds from below: everything but the entries with its own key is kept, once. -/
theorem dedupByKey_spec {last : Option Nat} (hl : l.Pairwise fun x y => key x ≤ key y)
    (hone : ∀ x ∈ l, ∀ y ∈ l, key x = key y → x = y) (hlast : ∀ k ∈ last, ∀ x ∈ l, k ≤ key x) :
    (∀ x, x ∈ dedupByKey key last l ↔ x ∈ l ∧ last ≠ some (key x)) ∧
      (dedupByKey key last l).Pairwise fun x y => key x < key y := by
  induction l generalizing last with
  | nil => simp [dedupByKey]
  | cons y l ih =>
    obtain ⟨hy, hl⟩ := pairwise_cons.mp hl
    have hone' : ∀ x ∈ l, ∀ z ∈ l, key x = key z → x = z := fun x hx z hz =>
      hone x (mem_cons_of_mem y hx) z (mem_cons_of_mem y hz)
    unfold dedupByKey
    by_cases heq : last = some (key y)
    · obtain ⟨hmem, hsorted⟩ :=
        ih hl hone' fun k hk z hz => hlast k hk z (mem_cons_of_mem y hz)
      rw [if_pos heq]
      refine ⟨fun x => ?_, hsorted⟩
      rw [hmem, mem_cons]
      constructor
      · intro hx
        exact ⟨.inr hx.1, hx.2⟩
      · rintro ⟨rfl | hx, hne⟩
        · exact absurd heq hne
        · exact ⟨hx, hne⟩
    · have hrest : ∀ k ∈ some (key y), ∀ z ∈ l, k ≤ key z := fun k hk z hz =>
        Option.some.inj hk ▸ hy z hz
      obtain ⟨hmem, hsorted⟩ := ih hl hone' hrest
      rw [if_neg heq, pairwise_cons]
      refine ⟨fun x => ?_, fun x hx => ?_, hsorted⟩
      · rw [mem_cons, mem_cons, hmem]
        constructor
        · rintro (rfl | ⟨hx, -⟩)
          · exact ⟨.inl rfl, heq⟩
          · refine ⟨.inr hx, fun h => heq ?_⟩
            -- the bound of the whole list and that of its tail meet at `key y`
            have h1 := hlast (key x) h y mem_cons_self
            have h2 := hy x hx
            rw [h, Nat.le_antisymm h1 h2]
        · rintro ⟨rfl | hx, hne⟩
          · exact .inl rfl
          · by_cases hkey : key y = key x
            · exact .inl (hone x (mem_cons_of_mem y hx) y mem_cons_self hkey.symm)
            · exact .inr ⟨hx, fun h => hkey (Option.some.inj h)⟩
      · obtain ⟨hx, hne⟩ := (hmem x).mp hx
        exact Nat.lt_of_le_of_ne (hy x hx) fun h => hne (congrArg some h)

theorem eq_of_mem_iff_of_pairwise {l' : List α} (hl : l.Pairwise fun x y => key x < key y)
    (hl' : l'.Pairwise fun x y => key x < key y) (h : ∀ x, x ∈ l ↔ x ∈ l') : l = l' := by
  have hnodup : ∀ {l : List α}, (l.Pairwise fun x y => key x < key y) → l.Nodup := by
    intro l hl
    exact hl.imp fun {x y} (hlt : key x < key y) (heq : x = y) => Nat.ne_of_lt hlt (heq ▸ rfl)
  have hperm : l.Perm l' := (perm_ext_iff_of_nodup (hnodup hl) (hnodup hl')).mpr h
  rw [eq_sortBy_of_perm key hl hperm, sortBy_eq_self key (hl'.imp Nat.le_of_lt)]

end

theorem edge_eq_of_id
    {e' : BoundEdge V} (he : e ∈ view.scanOut node relType ++ view.scanIn node relType)
    (he' : e' ∈ view.scanOut node relType ++ view.scanIn node relType)
    (hid : e.rel.id = e'.rel.id) : e = e' := by
  -- the far end of an edge found from `node` is found by its relationship
  have hfar : ∀ e ∈ view.scanOut node relType ++ view.scanIn node relType,
      e.rel ∈ view.rels ∧ view.nodeById (if e.rel.src = node then e.rel.dst else e.rel.src) =
        some e.dst := by
    intro e he
    rcases mem_append.mp he with he | he
    · obtain ⟨r, hr, hmat⟩ := mem_filterMap.mp he
      obtain ⟨rfl, -, hdst⟩ := materialize_eq_some hmat
      have hr := mem_filter.mp hr
      rw [if_pos (of_decide_eq_true hr.2).1]
      exact ⟨hr.1, hdst⟩
    · obtain ⟨r, hr, hmat⟩ := mem_filterMap.mp he
      obtain ⟨rfl, -, hdst⟩ := materialize_eq_some hmat
      have hr := mem_filter.mp hr
      refine ⟨hr.1, ?_⟩
      have hnode := (of_decide_eq_true hr.2).1
      split
      · rename_i hsrc
        rw [hnode, ← hsrc]
        exact hdst
      · exact hdst
  obtain ⟨hmem, hdst⟩ := hfar e he
  obtain ⟨hmem', hdst'⟩ := hfar e' he'
  have hrel : e.rel = e'.rel := inj_on_of_nodup_map view.rel_ids hmem hmem' hid
  rw [hrel, hdst'] at hdst
  cases e
  cases e'
  simp only [Option.some.injEq] at hdst hrel
  rw [hrel, hdst]

theorem mem_expand_undirected : e ∈ view.expand node relType .undirected ↔
      e ∈ view.scanOut node relType ∨ e ∈ view.scanIn node relType := by
  unfold expand
  rw [(dedupByKey_spec (pairwise_sortBy _ _) ?_ ?_).1]
  · simp
  · intro x hx y hy
    exact edge_eq_of_id ((mem_sortBy _).mp hx) ((mem_sortBy _).mp hy)
  · intro k hk
    exact nomatch hk

theorem pairwise_expand_undirected (view : StoreView V Q W) (node : NodeId) (relType : Option Nat) :
    (view.expand node relType .undirected).Pairwise fun x y => x.rel.id < y.rel.id := by
  refine (dedupByKey_spec (pairwise_sortBy _ _) ?_ ?_).2
  · intro x hx y hy
    exact edge_eq_of_id ((mem_sortBy _).mp hx) ((mem_sortBy _).mp hy)
  · intro k hk
    exact nomatch hk

section
variable (h : AgreeOnVisible access a b)
include h

theorem AgreeOnVisible.expand (node : NodeId) (relType : Option Nat) (direction : Direction) :
    (a.expand node relType direction).filter (edgeAllowed access) =
      (b.expand node relType direction).filter (edgeAllowed access) := by
  cases direction with
  | leftToRight => exact h.scanOut node relType
  | rightToLeft => exact h.scanIn node relType
  | undirected =>
    apply eq_of_mem_iff_of_pairwise
      ((pairwise_expand_undirected a node relType).filter _)
      ((pairwise_expand_undirected b node relType).filter _)
    intro e
    have hout := congrArg (e ∈ ·) (h.scanOut node relType)
    have hin := congrArg (e ∈ ·) (h.scanIn node relType)
    simp only [mem_filter, eq_iff_iff] at hout hin
    rw [mem_filter, mem_filter, mem_expand_undirected, mem_expand_undirected,
      or_and_right, or_and_right, hout, hin]

theorem AgreeOnVisible.retainEdges (node : NodeId) (relType : Option Nat) (direction : Direction) :
    retainEdges access node (a.expand node relType direction) =
      retainEdges access node (b.expand node relType direction) := by
  unfold Permissions.retainEdges
  rw [h.expand]

theorem AgreeOnVisible.countRels (relType : Option Nat) :
    countRels access a relType = countRels access b relType := by
  have hscan : retainNodes access (a.scanNodes none) = retainNodes access (b.scanNodes none) :=
    h.filter _
  unfold Permissions.countRels
  simp only [hscan, h.retainEdges]

end

theorem AgreeOnVisible.countStore_system (h : AgreeOnVisible .systemTrusted a b)
    (source : CountStoreSource) : a.countStore source = b.countStore source := by
  have hnodes : a.nodes = b.nodes := by
    have := h.nodes
    simpa only [retainNodes, ReadAccess.allows, filter_true] using this
  have hrels : a.rels = b.rels := by
    have := h.rels
    simpa only [ReadAccess.allows, Bool.and_self, filter_true] using this
  unfold StoreView.countStore StoreView.scanNodes
  rw [hnodes, hrels]

theorem AgreeOnVisible.countStore (h : AgreeOnVisible access a b) (source : CountStoreSource) :
    countStore access a source = countStore access b source := by
  have hscan : ∀ label, retainNodes access (a.scanNodes label) =
      retainNodes access (b.scanNodes label) := fun label => h.filter _
  cases access with
  | systemTrusted => exact h.countStore_system source
  | principal =>
    cases source with
    | nodes => exact congrArg length (hscan none)
    | nodesWithLabel label => exact congrArg length (hscan (some label))
    | relationships => exact h.countRels none
    | relsWithType relType => exact h.countRels (some relType)

/-! ## Searches -/

theorem retainHits_take_eq_iff {ranking ranking' : List (RankedHit V W)} {k : Nat}
    (h : retainHits access ranking = retainHits access ranking') :
    retainHits access (ranking.take k) = retainHits access (ranking'.take k) ↔
      visibleCount access ranking k = visibleCount access ranking' k := by
  simp only [visibleCount, countP_eq_length_filter]
  constructor
  · exact congrArg length
  · intro hlen
    have hfirst : retainHits access (ranking.take k) <+: retainHits access ranking' :=
      h ▸ ( take_prefix k ranking).filter _
    have hsecond : retainHits access (ranking'.take k) <+: retainHits access ranking' :=
      ( take_prefix k ranking').filter _
    exact (prefix_of_prefix_length_le hfirst hsecond hlen.le).eq_of_length hlen

/-- Two stores that hold the same visible nodes and relationships, and rank the visible nodes
alike, answer a call alike exactly when it is not a search that finds a different number of
visible nodes among the k best of the whole store. -/
theorem reads_agree_iff [DecidableEq V] (access : ReadAccess) (a b : Nat → StoreView V Q W)
    (h : ∀ view, AgreeOnVisible access (a view) (b view)) (call : ReadCall V Q) :
    read access a call = read access b call ↔ SameShare access a b call := by
  cases call with
  | countStore => simp only [read, SameShare, (h newestView).countStore]
  | scanNodes view => simp only [read, SameShare, scanNodes, (h view).filter]
  | scanNodesProjected view =>
    simp only [read, SameShare, (h view).scanNodesProjected]
  | nodeById view id =>
    by_cases hid : access.allows id = true
    · simp only [read, SameShare, (h view).nodeById hid]
    · simp only [read, SameShare, if_neg hid]
  | propertyIndexLookup view =>
    simp only [read, SameShare, propertyIndexLookup, (h view).filter]
  | expand view => simp only [read, SameShare, (h view).retainEdges]
  | expandCursor view => simp only [read, SameShare, (h view).expand]
  | vectorSearch view property query =>
    simp [read, SameShare, retainHits_take_eq_iff ((h view).vectorRanking property query)]
  | bm25Search view property query =>
    simp [read, SameShare, retainHits_take_eq_iff ((h view).textRanking property query)]
  | communityMembers view =>
    simp only [read, SameShare, communityMembers, (h view).filter]

/-- Node 1 is granted to alice; nobody is granted node 2. -/
def aliceIndex : PermissionIndex := (PermissionIndex.new.applyDocAcl 1 {"alice"}).getD .new

def aliceAccess : ReadAccess := .principal (aliceIndex.effective "alice").1 aliceIndex

/-- A store of these nodes, ranked in this order by every query. -/
def ranked (ids : List NodeId) : StoreView Nat Nat Nat where
  nodes := ids.map fun id => ⟨id, none, [], none⟩
  rels := []
  vectorRanking _ _ := ids.map fun id => ⟨⟨id, none, [], none⟩, 0⟩
  textRanking _ _ := ids.map fun id => ⟨⟨id, none, [], none⟩, 0⟩
  rel_ids := nodup_nil

theorem agreeOnVisible_ranked : AgreeOnVisible aliceAccess (ranked [1]) (ranked [2, 1]) where
  nodes := by decide +kernel
  rels := rfl
  vectorRanking _ _ := by
    change retainHits aliceAccess ((ranked [1]).vectorRanking "" 0) =
      retainHits aliceAccess ((ranked [2, 1]).vectorRanking "" 0)
    decide +kernel
  textRanking _ _ := by
    change retainHits aliceAccess ((ranked [1]).textRanking "" "") =
      retainHits aliceAccess ((ranked [2, 1]).textRanking "" "")
    decide +kernel

theorem reads_agree_iff_scan :
    read aliceAccess (fun _ => ranked [1]) (.scanNodes 0 none) =
      read aliceAccess (fun _ => ranked [2, 1]) (.scanNodes 0 none) :=
  (reads_agree_iff aliceAccess (fun _ => ranked [1]) (fun _ => ranked [2, 1])
    (fun _ => agreeOnVisible_ranked) (.scanNodes 0 none)).mpr trivial

/-- A node alice cannot see takes the place of the one hit alice would get. -/
theorem search_reveals_denied :
    (∀ view : Nat, AgreeOnVisible aliceAccess ((fun _ => ranked [1]) view)
      ((fun _ => ranked [2, 1]) view)) ∧
    read aliceAccess (fun _ => ranked [1]) (.vectorSearch 0 "embedding" 0 1) ≠
      read aliceAccess (fun _ => ranked [2, 1]) (.vectorSearch 0 "embedding" 0 1) ∧
    read aliceAccess (fun _ => ranked [1]) (.bm25Search 0 "body" "query" 1) ≠
      read aliceAccess (fun _ => ranked [2, 1]) (.bm25Search 0 "body" "query" 1) :=
  ⟨fun _ => agreeOnVisible_ranked, by decide +kernel, by decide +kernel⟩

end ArcGraph.Permissions
