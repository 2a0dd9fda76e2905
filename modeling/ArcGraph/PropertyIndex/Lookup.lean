import ArcGraph.PropertyIndex.Manager

/-!
# Index lookups over histories of index statements

Three places know of an index: the durable catalog, keyed by tenant and name, from which the
planner's catalog is recovered; the manager's copy of it; and the manager's handles, each
with its tree, which only `CREATE INDEX` fills. A lookup goes by label and property name
and takes the first handle that fits.

They part in three ways. A restart keeps the catalog and loses the handles, so the
planner routes to an index that answers nothing. A handle that fits may be another
tenant's, whose tree holds none of the nodes this tenant's index was built from. And an
ingested node is not entered into the trees (`lookup_misses_node`). In a history whose
restarts find no declared index, in which no two tenants declare an index on the same label
id and property name and which ingests no indexed value, every lookup returns what a scan
returns (`lookup_eq_scan`).
-/

namespace ArcGraph.PropertyIndex.Lookup
open Foundation ArcGraph.Graph Function List Handle Manager
variable {V K : Type} (vals : Values V K) (intern : TenantId → String → Nat) {label : LabelId}
  {node : NodeBag V} {value : V} {h' : Handle K} {oldBag : Option (Bag V)} {newBag : Bag V}

/-- A restart finds no declared index, a new index shares its label and property name only
with indexes of its own tenant, and an ingested node has no value that an index would hold. -/
def Admissible (w : World V K) : Action V → Prop
  | .restart => w.durable = []
  | .createIndex tenant _ _ label property =>
    ∀ h ∈ w.propertyIndexManager.handles,
      h.label = label → h.propertyName = property → h.tenant = tenant
  | .ingestNode tenant label bag =>
    ∀ h ∈ w.propertyIndexManager.handles, h.tenant = tenant → h.label = label →
      ∀ v, bag h.propertyName = some v → vals.canonicalKey v = none
  | _ => True

/-! ## Handles -/

section
variable {vals} (h : Handle K)

/-- `h'` is `h` with further entries in its tree. -/
structure Extends (h h' : Handle K) : Prop where
  tenant : h'.tenant = h.tenant
  name : h'.name = h.name
  label : h'.label = h.label
  propertyKey : h'.propertyKey = h.propertyKey
  propertyName : h'.propertyName = h.propertyName
  tree : ∀ e ∈ h.tree, e ∈ h'.tree

theorem Extends.refl : Extends h h := ⟨rfl, rfl, rfl, rfl, rfl, fun _ he => he⟩

theorem Extends.trans {h1 h2 h3 : Handle K} (h12 : Extends h1 h2) (h23 : Extends h2 h3) :
    Extends h1 h3 where
  tenant := h23.tenant.trans h12.tenant
  name := h23.name.trans h12.name
  label := h23.label.trans h12.label
  propertyKey := h23.propertyKey.trans h12.propertyKey
  propertyName := h23.propertyName.trans h12.propertyName
  tree e he := h23.tree e (h12.tree e he)

variable (vals) in
theorem extends_insertOne (tenant : TenantId) (value : V) (n : NodeId) :
    Extends h (h.insertOne vals tenant value n) :=
  ⟨rfl, rfl, rfl, rfl, rfl, fun _ he => mem_append_left _ he⟩

variable {h : Handle K} {n : NodeId}

theorem mem_insertOne {tenant : TenantId} {k : K} (hkey : vals.canonicalKey value = some k) :
    (h.key tenant k, n) ∈ (h.insertOne vals tenant value n).tree := by
  simp [insertOne, hkey]

variable (vals) in
theorem extends_backfillOne (h : Handle K) (tenant : TenantId) (p : NodeId × NodeBag V) :
    Extends h (h.backfillOne vals tenant p) := by
  unfold backfillOne
  split
  · split
    · exact extends_insertOne vals h tenant _ _
    · exact .refl h
  · exact .refl h

variable (vals) in
theorem extends_backfill (h : Handle K) (tenant : TenantId) (nodes : List (NodeId × NodeBag V)) :
    Extends h (h.backfill vals tenant nodes) := by
  induction nodes generalizing h with
  | nil => exact .refl h
  | cons p _ ih => exact (extends_backfillOne vals h tenant p).trans (ih _)

variable (vals) in
theorem extends_maintain (h : Handle K) (declaredKeys : List (Nat × IndexState))
    (tenant : TenantId) (n : NodeId) (label : LabelId) (oldBag : Option (Bag V))
    (newBag : Bag V) : Extends h (h.maintain vals declaredKeys tenant n label oldBag newBag) := by
  unfold maintain
  split
  · exact .refl h
  split
  · exact .refl h
  split
  · exact .refl h
  split
  · split
    · exact extends_insertOne vals h tenant _ n
    · exact .refl h
  · exact .refl h

def Lists (vals : Values V K) (h : Handle K) (n : NodeId) (node : NodeBag V) : Prop :=
  node.label = h.label → ∀ v k, node.bag h.propertyName = some v →
    vals.canonicalKey v = some k → (h.key h.tenant k, n) ∈ h.tree

theorem Lists.extends (hl : Lists vals h n node) (he : Extends h h') : Lists vals h' n node := by
  intro hlabel v k hv hk
  have hmem := he.tree _ (hl (hlabel.trans he.label) v k (he.propertyName ▸ hv) hk)
  simpa only [key, he.tenant, he.label, he.propertyKey] using hmem

theorem lists_backfillOne (h : Handle K) (n : NodeId) (node : NodeBag V) :
    Lists vals (h.backfillOne vals h.tenant (n, node)) n node := by
  have he := extends_backfillOne vals h h.tenant (n, node)
  intro hlabel v k hv hk
  have hlabel' : node.label = h.label := hlabel.trans he.label
  have hv' : node.bag h.propertyName = some v := he.propertyName ▸ hv
  have hmem : (h.key h.tenant k, n) ∈ (h.backfillOne vals h.tenant (n, node)).tree := by
    simp only [backfillOne, hlabel', if_true, hv']
    exact mem_insertOne hk
  simpa only [key, he.tenant, he.label, he.propertyKey] using hmem

theorem lists_backfill {nodes : List (NodeId × NodeBag V)} (hmem : (n, node) ∈ nodes) :
    Lists vals (h.backfill vals h.tenant nodes) n node := by
  induction nodes generalizing h with
  | nil => cases hmem
  | cons p rest ih =>
    have hp := extends_backfillOne vals h h.tenant p
    change Lists vals ((h.backfillOne vals h.tenant p).backfill vals h.tenant rest) n node
    rcases mem_cons.mp hmem with heq | hmem
    · subst heq
      exact (lists_backfillOne h n node).extends (extends_backfill vals _ _ _)
    · have := ih (h := h.backfillOne vals h.tenant p) hmem
      rwa [hp.tenant] at this

/-- A write keeps a node listed: its old value was, or its new value is inserted. -/
theorem lists_maintain {declaredKeys : List (Nat × IndexState)}
 (hdeclared : h.label = label → ∃ p ∈ declaredKeys, p.1 = h.propertyKey)
    (hold : ∀ bag, oldBag = some bag → Lists vals h n ⟨label, bag⟩) :
    Lists vals (h.maintain vals declaredKeys h.tenant n label oldBag newBag) n ⟨label, newBag⟩ := by
  have he := extends_maintain vals h declaredKeys h.tenant n label oldBag newBag
  intro hlabel v k hv hk
  have hlabel' : h.label = label := (hlabel.trans he.label).symm
  have hv' : newBag h.propertyName = some v := he.propertyName ▸ hv
  have hmem : (h.key h.tenant k, n) ∈
      (h.maintain vals declaredKeys h.tenant n label oldBag newBag).tree := by
    by_cases hc : vals.changed (newBag h.propertyName)
        (oldBag.bind fun bag => bag h.propertyName) = true
    · obtain ⟨p, hp, hpk⟩ := hdeclared hlabel'
      have hfind : (declaredKeys.find? fun p => p.1 == h.propertyKey).isSome :=
        find?_isSome.mpr ⟨p, hp, by simpa using hpk⟩
      obtain ⟨⟨_, state⟩, hq⟩ := Option.isSome_iff_exists.mp hfind
      have hactive : state.maintenanceActive = true := by cases state <;> rfl
      simp only [maintain, hlabel', ne_eq, not_true_eq_false, if_false, hq, hactive,
        Bool.not_true, Bool.false_eq_true, hc, if_true]
      rw [hv']
      exact mem_insertOne hk
    · -- the stored value is the same, so its key is already in the tree
      apply he.tree
      cases hb : oldBag with
      | none =>
        rw [hb, hv'] at hc
        exact absurd rfl hc
      | some bag =>
        cases ho : bag h.propertyName with rw [hb, hv'] at hc
        | none =>
          simp only [Option.bind_some, ho] at hc
          exact absurd rfl hc
        | some old =>
          simp only [Option.bind_some, ho, Values.changed, Bool.not_eq_true,
            Bool.not_eq_false'] at hc
          have hkey := vals.key_eq_of_equal _ _ (vals.equal_of_same _ _ hc)
          exact hold bag hb hlabel'.symm old k ho (hkey ▸ hk)
  simpa only [key, he.tenant, he.label, he.propertyKey] using hmem

end

/-! ## The three places agree -/

structure Matches (r : Record) (h : Handle K) : Prop where
  tenant : h.tenant = r.tenant
  name : h.name = r.name
  label : h.label = r.label
  propertyKey : h.propertyKey = r.propertyKey
  propertyName : h.propertyName = r.propertyName

variable {r : Record} {h : Handle K} {m : Manager K} {w : World V K} {t : TenantId} {n : NodeId}

theorem Matches.extends (hm : Matches r h) (he : Extends h h') : Matches r h' :=
  ⟨he.tenant.trans hm.tenant, he.name.trans hm.name, he.label.trans hm.label,
    he.propertyKey.trans hm.propertyKey, he.propertyName.trans hm.propertyName⟩

theorem Matches.named_eq (hm : Matches r h) (tenant : TenantId) (name : String) :
    h.named tenant name = r.named tenant name := by
  rw [Handle.named, Record.named, hm.tenant, hm.name]

/-- The catalog lists the handles, all Online, and no two tenants share a label and a
property name. -/
structure Agreed (m : Manager K) : Prop where
  online : ∀ r ∈ m.catalog, r.state = .online
  handle : ∀ r ∈ m.catalog, ∃ h ∈ m.handles, Matches r h
  record : ∀ h ∈ m.handles, ∃ r ∈ m.catalog, Matches r h
  alone : ∀ h ∈ m.handles, ∀ h' ∈ m.handles,
    h'.label = h.label → h'.propertyName = h.propertyName → h'.tenant = h.tenant

structure Sound (w : World V K) : Prop where
  catalog : w.propertyIndexManager.catalog = w.durable
  agreed : Agreed w.propertyIndexManager
  lists : ∀ h ∈ w.propertyIndexManager.handles, ∀ n node,
    w.nodes h.tenant n = some node → Lists vals h n node
  allocated : ∀ t n node, w.nodes t n = some node → n < w.nextNode t

variable {vals intern} {spec : CreateIndexSpec} {order : List (Handle K)} {property : String}

section
variable (hm : Agreed m)
include hm

theorem Agreed.declared (hh : h ∈ m.handles) (hlabel : h.label = label) :
    (h.propertyKey, IndexState.online) ∈ indexesOn m.catalog h.tenant label := by
  obtain ⟨r, hr, hmatch⟩ := hm.record h hh
  refine mem_map.mpr ⟨r, mem_filter.mpr ⟨hr, ?_⟩, ?_⟩
  · simp [← hmatch.tenant, ← hmatch.label, hlabel]
  · rw [hmatch.propertyKey, hm.online r hr]

theorem Agreed.map {f : Handle K → Handle K} (hf : ∀ h, Extends h (f h)) :
    Agreed { m with handles := m.handles.map f } where
  online := hm.online
  handle r hr := by
    obtain ⟨h, hh, hmatch⟩ := hm.handle r hr
    exact ⟨f h, mem_map_of_mem hh, hmatch.extends (hf h)⟩
  record h hh := by
    obtain ⟨g, hg, rfl⟩ := mem_map.mp hh
    obtain ⟨r, hr, hmatch⟩ := hm.record g hg
    exact ⟨r, hr, hmatch.extends (hf g)⟩
  alone h hh h' hh' := by
    obtain ⟨g, hg, rfl⟩ := mem_map.mp hh
    obtain ⟨g', hg', rfl⟩ := mem_map.mp hh'
    rw [(hf g).label, (hf g').label, (hf g).propertyName, (hf g').propertyName, (hf g).tenant,
      (hf g').tenant]
    exact hm.alone g hg g' hg'

variable (tenant : TenantId) (name : String)

theorem Agreed.drop :
    Agreed ⟨m.catalog.filter fun r => !r.named tenant name,
      m.handles.filter fun h => !h.named tenant name⟩ where
  online r hr := hm.online r (mem_of_mem_filter hr)
  handle r hr := by
    obtain ⟨hr, hname⟩ := mem_filter.mp hr
    obtain ⟨h, hh, hmatch⟩ := hm.handle r hr
    exact ⟨h, mem_filter.mpr ⟨hh, by rwa [hmatch.named_eq]⟩, hmatch⟩
  record h hh := by
    obtain ⟨hh, hname⟩ := mem_filter.mp hh
    obtain ⟨r, hr, hmatch⟩ := hm.record h hh
    exact ⟨r, mem_filter.mpr ⟨hr, by rwa [← hmatch.named_eq]⟩, hmatch⟩
  alone h hh h' hh' :=
    hm.alone h (mem_of_mem_filter hh) h' (mem_of_mem_filter hh')

theorem Agreed.any_named :
    (m.handles.any fun h => h.named tenant name) = m.catalog.any fun r => r.named tenant name := by
  rw [Bool.eq_iff_iff, any_eq_true, any_eq_true]
  constructor
  · rintro ⟨h, hh, hname⟩
    obtain ⟨r, hr, hmatch⟩ := hm.record h hh
    exact ⟨r, hr, hmatch.named_eq tenant name ▸ hname⟩
  · rintro ⟨r, hr, hname⟩
    obtain ⟨h, hh, hmatch⟩ := hm.handle r hr
    exact ⟨h, hh, (hmatch.named_eq tenant name).symm ▸ hname⟩

theorem Agreed.add (honline : r.state = .online) (hmatch : Matches r h)
    (halone : ∀ g ∈ m.handles, g.label = h.label → g.propertyName = h.propertyName →
      g.tenant = h.tenant) : Agreed ⟨m.catalog ++ [r], m.handles ++ [h]⟩ where
  online := forall_mem_append.mpr ⟨hm.online, forall_mem_singleton.mpr honline⟩
  handle := by
    refine forall_mem_append.mpr ⟨fun r' hr' => ?_, forall_mem_singleton.mpr ⟨h, by simp, hmatch⟩⟩
    obtain ⟨g, hg, hmatch'⟩ := hm.handle r' hr'
    exact ⟨g, mem_append_left _ hg, hmatch'⟩
  record := by
    refine forall_mem_append.mpr ⟨fun g hg => ?_, forall_mem_singleton.mpr ⟨r, by simp, hmatch⟩⟩
    obtain ⟨r', hr', hmatch'⟩ := hm.record g hg
    exact ⟨r', mem_append_left _ hr', hmatch'⟩
  alone g hg g' hg' hlabel hname := by
    rcases mem_append.mp hg with hg | hg <;> rcases mem_append.mp hg' with hg' | hg'
    · exact hm.alone g hg g' hg' hlabel hname
    · cases mem_singleton.mp hg'
      exact (halone g hg hlabel.symm hname.symm).symm
    · cases mem_singleton.mp hg
      exact halone g' hg' hlabel hname
    · rw [mem_singleton.mp hg, mem_singleton.mp hg']

end

/-! ## Every step keeps the agreement -/

theorem sound_init : Sound vals (system (K := K) vals intern).init where
  catalog := rfl
  agreed :=
    { online := fun _ hr => by cases hr
      handle := fun _ hr => by cases hr
      record := fun _ hh => by cases hh
      alone := fun _ hh => by cases hh }
  lists := fun _ hh => by cases hh
  allocated := fun _ _ _ hnode => by cases hnode

theorem Sound.useManager (hw : Sound vals w) :
    Sound vals (w.setManager w.propertyIndexManager false) where
  catalog := hw.catalog
  agreed := hw.agreed
  lists := hw.lists
  allocated := hw.allocated

theorem mem_scanForBackfill (hlt : n < w.nextNode t) (hnode : w.nodes t n = some node) :
    (n, node) ∈ w.scanForBackfill t node.label :=
  mem_filterMap.mpr ⟨n, mem_range.mpr hlt, by simp [hnode]⟩

theorem createIndex_of_free (hw : Sound vals w)
    (hfree : (w.propertyIndexManager.catalog.any fun r => r.named spec.tenant spec.name) = false) :
    w.createIndex vals spec = w.setManager ⟨w.propertyIndexManager.catalog ++
          [⟨spec.tenant, spec.name, spec.label, spec.propertyKey, spec.propertyName, .online⟩],
        w.propertyIndexManager.handles ++ [backfill vals
            ⟨spec.tenant, spec.name, spec.label, spec.propertyKey, spec.propertyName, []⟩
            spec.tenant (w.scanForBackfill spec.tenant spec.label)]⟩ true := by
  have hhandles := hfree
  rw [← hw.agreed.any_named] at hhandles
  have hcatalog : w.propertyIndexManager.catalog.map (fun r =>
      if r.named spec.tenant spec.name then { r with state := .online } else r) =
      w.propertyIndexManager.catalog := by
    conv_rhs => rw [← map_id w.propertyIndexManager.catalog]
    apply map_congr_left
    intro r hr
    rw [if_neg (any_eq_false.mp hfree r hr)]
    rfl
  have hkept : w.propertyIndexManager.handles.map (fun h =>
      if h.named spec.tenant spec.name then
        h.backfill vals spec.tenant (w.scanForBackfill spec.tenant spec.label) else h) =
      w.propertyIndexManager.handles := by
    conv_rhs => rw [← map_id w.propertyIndexManager.handles]
    apply map_congr_left
    intro h hh
    rw [if_neg (any_eq_false.mp hhandles h hh)]
    rfl
  simp only [World.createIndex, registerBuilding, btreeFor, hhandles, hfree,
    Bool.false_eq_true, if_false, if_true, backfillAndFlip, map_append, hcatalog,
    hkept]
  simp [Record.named, Handle.named]

theorem Sound.createIndex (hw : Sound vals w) (halone : ∀ h ∈ w.propertyIndexManager.handles,
      h.label = spec.label → h.propertyName = spec.propertyName → h.tenant = spec.tenant) :
    Sound vals (w.createIndex vals spec) := by
  cases hany : w.propertyIndexManager.catalog.any fun r => r.named spec.tenant spec.name with
  | true =>
    -- the name is taken: its handle is there, and nothing changes
    have hhandles := hany
    rw [← hw.agreed.any_named] at hhandles
    have heq : w.createIndex vals spec = w.setManager w.propertyIndexManager false := by
      simp [World.createIndex, registerBuilding, btreeFor, hhandles, hany]
    rw [heq]
    exact hw.useManager
  | false =>
    rw [createIndex_of_free hw hany]
    have he := extends_backfill vals
      (⟨spec.tenant, spec.name, spec.label, spec.propertyKey, spec.propertyName, []⟩ : Handle K)
      spec.tenant (w.scanForBackfill spec.tenant spec.label)
    refine ⟨rfl, ?_, ?_, hw.allocated⟩
    · apply hw.agreed.add rfl
      · exact ⟨he.tenant, he.name, he.label, he.propertyKey, he.propertyName⟩
      · intro g hg
        rw [he.label, he.propertyName, he.tenant]
        exact halone g hg
    · intro h hh n node hnode
      rcases mem_append.mp hh with hh | hh
      · exact hw.lists h hh n node hnode
      · rw [mem_singleton.mp hh]
        rw [mem_singleton.mp hh, he.tenant] at hnode
        intro hlabel
        have hscan := mem_scanForBackfill (hw.allocated _ _ _ hnode) hnode
        rw [hlabel.trans he.label] at hscan
        exact lists_backfill (h := ⟨spec.tenant, spec.name, spec.label, spec.propertyKey,
          spec.propertyName, []⟩) hscan hlabel

theorem Sound.dropIndex (hw : Sound vals w) (tenant : TenantId) (name : String) (ifExists : Bool) :
    Sound vals (w.act vals intern (.dropIndex tenant name ifExists)) := by
  simp only [World.act, Manager.dropIndex]
  split
  · exact ⟨rfl, hw.agreed.drop tenant name,
      fun h hh => hw.lists h (mem_of_mem_filter hh), hw.allocated⟩
  · exact hw.useManager

theorem maintainNode_eq (m : Manager K) (tenant : TenantId) (n : NodeId) (label : LabelId)
    (oldBag : Option (Bag V)) (newBag : Bag V) :
    m.maintainNode vals tenant n label oldBag newBag =
      { m with
        handles := m.handles.map fun h =>
          h.maintain vals (indexesOn m.catalog tenant label) tenant n label oldBag newBag } := by
  simp only [maintainNode]
  split
  · rename_i hempty
    rw [isEmpty_iff.mp hempty]
    have hid : ∀ h ∈ m.handles, h.maintain vals [] tenant n label oldBag newBag = h := by
      intro h _
      unfold maintain
      split <;> rfl
    rw [map_congr_left hid, map_id']
  · rfl

theorem of_nodes_setNodes {t' : TenantId} {n' : NodeId} {v : Option (NodeBag V)}
    (h : (w.setNodes t n v).nodes t' n' = some node) :
    (t' = t ∧ n' = n ∧ v = some node) ∨ w.nodes t' n' = some node := by
  by_cases ht : t' = t
  · subst ht
    by_cases hn : n' = n
    · subst hn
      exact .inl ⟨rfl, rfl, by simpa only [World.setNodes, update_self] using h⟩
    · exact .inr (by simpa only [World.setNodes, update_self, update_of_ne hn] using h)
  · exact .inr (by simpa only [World.setNodes, update_of_ne ht] using h)

theorem le_update_succ (next : TenantId → NodeId) (t t' : TenantId) :
    next t' ≤ update next t (next t + 1) t' := by
  by_cases ht : t' = t
  · subst ht
    rw [update_self]
    exact Nat.le_succ _
  · rw [update_of_ne ht]

section
variable (hw : Sound vals w)
include hw

theorem Sound.allocated_setNodes {next : TenantId → NodeId} (hnext : ∀ t, w.nextNode t ≤ next t)
    (hlt : n < next t) (v : Option (NodeBag V)) (t' : TenantId) (n' : NodeId) (node : NodeBag V)
    (hnode : (w.setNodes t n v).nodes t' n' = some node) : n' < next t' := by
  rcases of_nodes_setNodes hnode with ⟨rfl, rfl, -⟩ | hnode
  · exact hlt
  · exact (hw.allocated t' n' node hnode).trans_le (hnext t')

theorem Sound.write {next : TenantId → NodeId} (hnext : ∀ t, w.nextNode t ≤ next t)
    (hlt : n < next t) (hold : ∀ bag, oldBag = some bag → w.nodes t n = some ⟨label, bag⟩) :
    Sound vals (World.maintainBestEffort vals
      { w.setNodes t n (some ⟨label, newBag⟩) with nextNode := next } t n label oldBag
      newBag) := by
  have hallocated := hw.allocated_setNodes hnext hlt (some ⟨label, newBag⟩)
  cases hm : w.manager with
  | none =>
    have hman : w.propertyIndexManager = ⟨recover w.durable, []⟩ := by
      rw [World.propertyIndexManager, hm, Option.getD_none]
    have hsame : .maintainBestEffort vals
        { w.setNodes t n (some ⟨label, newBag⟩) with nextNode := next } t n label oldBag
        newBag = { w.setNodes t n (some ⟨label, newBag⟩) with nextNode := next } := by
      simp only [World.maintainBestEffort, World.setNodes, hm]
    rw [hsame]
    refine ⟨hw.catalog, hw.agreed, ?_, hallocated⟩
    intro h hh
    have hh' : h ∈ w.propertyIndexManager.handles := hh
    rw [hman] at hh'
    cases hh'
  | some m =>
    have hman : w.propertyIndexManager = m := by
      rw [World.propertyIndexManager, hm, Option.getD_some]
    have hrun : .maintainBestEffort vals
        { w.setNodes t n (some ⟨label, newBag⟩) with nextNode := next } t n label oldBag
        newBag = { w.setNodes t n (some ⟨label, newBag⟩) with
          nextNode := next
          manager := some (m.maintainNode vals t n label oldBag newBag) } := by
      simp only [World.maintainBestEffort, World.setNodes, hm]
    rw [hrun, maintainNode_eq]
    obtain ⟨hcatalog, hagreed, hlists, -⟩ := hw
    rw [hman] at hcatalog hagreed hlists
    have hext : ∀ h : Handle K, Extends h (h.maintain vals (indexesOn m.catalog t label) t n
        label oldBag newBag) := fun h => extends_maintain vals h _ t n label oldBag newBag
    refine ⟨hcatalog, hagreed.map hext, ?_, hallocated⟩
    intro h hh n' node hnode
    obtain ⟨g, hg, rfl⟩ := mem_map.mp hh
    rw [(hext g).tenant] at hnode
    rcases of_nodes_setNodes hnode with ⟨rfl, rfl, heq⟩ | hnode
    · cases heq
      apply lists_maintain
      · intro hlabel
        exact ⟨_, hagreed.declared hg hlabel, rfl⟩
      · intro bag hbag
        exact hlists g hg n' _ (hold bag hbag)
    · exact (hlists g hg n' node hnode).extends (hext g)

theorem Sound.ingestNode {bag : Bag V} (hok : Admissible vals w (.ingestNode t label bag)) :
    Sound vals (w.addNode t label bag) where
  catalog := hw.catalog
  agreed := hw.agreed
  lists h hh n node hnode := by
    rcases of_nodes_setNodes hnode with ⟨ht, -, heq⟩ | hnode
    · cases heq
      intro hlabel v k hv hk
      rw [hok h hh ht hlabel.symm v hv] at hk
      cases hk
    · exact hw.lists h hh n node hnode
  allocated := hw.allocated_setNodes (le_update_succ _ t) (by simp) _

theorem Sound.deleteNode (t : TenantId) (n : NodeId) : Sound vals (w.setNodes t n none) := by
  have hback : ∀ t' n' node, (w.setNodes t n none).nodes t' n' = some node →
      w.nodes t' n' = some node := by
    intro t' n' node hnode
    rcases of_nodes_setNodes hnode with ⟨-, -, heq⟩ | hnode
    · cases heq
    · exact hnode
  exact ⟨hw.catalog, hw.agreed, fun h hh n' node hnode => hw.lists h hh n' node (hback _ _ _ hnode),
    fun t' n' node hnode => hw.allocated t' n' node (hback _ _ _ hnode)⟩

theorem Sound.restart (hnone : w.durable = []) : Sound vals (w.act vals intern .restart) := by
  have hman : (w.act vals intern .restart).propertyIndexManager = ⟨[], []⟩ := by
    change (⟨recover w.durable, []⟩ : Manager K) = _
    rw [hnone]
    rfl
  constructor
  · rw [hman]
    exact hnone.symm
  · rw [hman]
    constructor
    · intro r hr
      cases hr
    · intro r hr
      cases hr
    · intro h hh
      cases hh
    · intro h hh
      cases hh
  · rw [hman]
    intro h hh
    cases hh
  · exact hw.allocated

theorem sound_act {a : Action V} (hok : Admissible vals w a) : Sound vals (w.act vals intern a) := by
  cases a with
  | createIndex => exact hw.createIndex hok
  | dropIndex t name ifExists => exact hw.dropIndex t name ifExists
  | createNode t _ bag =>
    apply hw.write (le_update_succ _ t)
    · rw [update_self]
      exact Nat.lt_succ_self _
    · intro bag hbag
      cases hbag
  | ingestNode => exact hw.ingestNode hok
  | setNode t n =>
    dsimp only [World.act]
    cases hnode : w.nodes t n with
    | none => exact hw
    | some node =>
      refine hw.write (fun t' => le_refl (w.nextNode t')) (hw.allocated t n node hnode) ?_
      intro bag hbag
      cases hbag
      exact hnode
  | deleteNode t n => exact hw.deleteNode t n
  | lookup => exact hw.useManager
  | restart => exact hw.restart hok

end

/-! ## Lookups -/

theorem mem_verify {p : NodeId → Bool} {cs seen : List NodeId} :
    n ∈ World.verify p seen cs ↔ n ∈ cs ∧ n ∉ seen ∧ p n = true := by
  induction cs generalizing seen with
  | nil => simp [World.verify]
  | cons _ _ ih =>
    unfold World.verify
    split
    · rename_i hc
      rw [ih]
      grind
    · split
      · rw [mem_cons, ih]
        grind
      · rw [ih]
        grind

theorem nodup_verify (p : NodeId → Bool) (cs seen : List NodeId) :
    (World.verify p seen cs).Nodup := by
  induction cs generalizing seen with
  | nil => exact nodup_nil
  | cons _ _ ih =>
    unfold World.verify
    split
    · exact ih seen
    · split
      · refine nodup_cons.mpr ⟨fun hmem => ?_, ih _⟩
        exact (mem_verify.mp hmem).2.1 mem_cons_self
      · exact ih _

/-- Where the planner lists an index, the handle a lookup takes is one of the tenant's own. -/
theorem Sound.serving (hw : Sound vals w) (horder : order.Perm w.propertyIndexManager.handles)
    (hplan : w.plannerLists t label property = true) : ∃ h ∈ w.propertyIndexManager.handles,
      w.propertyIndexManager.serving order t label property = some h ∧ h.tenant = t ∧
        h.label = label ∧ h.propertyName = property := by
  simp only [World.plannerLists, recover, any_map, any_eq_true, comp_apply,
    Bool.and_eq_true, beq_iff_eq] at hplan
  obtain ⟨r, hr, ⟨⟨rfl, rfl⟩, rfl⟩, -⟩ := hplan
  obtain ⟨h, hh, hmatch⟩ := hw.agreed.handle r (hw.catalog ▸ hr)
  have hfit : (order.find? fun g => g.label == r.label && g.propertyName == r.propertyName &&
      (indexesOn w.propertyIndexManager.catalog r.tenant r.label).any fun p =>
        p.1 == g.propertyKey && p.2.plannerVisible).isSome := by
    refine find?_isSome.mpr ⟨h, horder.mem_iff.mpr hh, ?_⟩
    have hdeclared := hw.agreed.declared hh hmatch.label
    rw [hmatch.tenant] at hdeclared
    simp only [hmatch.label, hmatch.propertyName, beq_self_eq_true, Bool.true_and]
    exact any_eq_true.mpr ⟨_, hdeclared, by simp [IndexState.plannerVisible]⟩
  obtain ⟨g, hg⟩ := Option.isSome_iff_exists.mp hfit
  have hgmem : g ∈ w.propertyIndexManager.handles :=
    horder.mem_iff.mp (mem_of_find?_eq_some hg)
  have hgfit := find?_some hg
  simp only [Bool.and_eq_true, beq_iff_eq] at hgfit
  obtain ⟨⟨hglabel, hgname⟩, -⟩ := hgfit
  refine ⟨g, hgmem, hg, ?_, hglabel, hgname⟩
  rw [hw.agreed.alone h hh g hgmem (hglabel.trans hmatch.label.symm)
    (hgname.trans hmatch.propertyName.symm), hmatch.tenant]

theorem Sound.mem_candidates [DecidableEq K] (hw : Sound vals w)
    (horder : order.Perm w.propertyIndexManager.handles)
    (hplan : w.plannerLists t label property = true)
    (hkey : (vals.canonicalKey value).isSome = true)
    (hholds : w.holds vals t label property value n = true) :
    n ∈ w.propertyIndexManager.lookupCandidates vals order t label property value := by
  obtain ⟨k, hk⟩ := Option.isSome_iff_exists.mp hkey
  obtain ⟨h, hh, hserving, rfl, rfl, rfl⟩ := hw.serving horder hplan
  simp only [lookupCandidates, hk, hserving]
  unfold World.holds at hholds
  split at hholds
  · cases hholds
  · rename_i node hnode
    rw [Bool.and_eq_true, beq_iff_eq] at hholds
    obtain ⟨hlabel, hequal⟩ := hholds
    split at hequal
    · cases hequal
    · rename_i stored hstored
      have hstoredKey : vals.canonicalKey stored = some k :=
        (vals.key_eq_of_equal stored value hequal).trans hk
      have hmem := hw.lists h hh n node hnode hlabel stored k hstored hstoredKey
      exact mem_map.mpr ⟨_, mem_filter.mpr ⟨hmem, by simp⟩, rfl⟩

/-- In every state of such a history, a lookup on an index the planner lists returns the
nodes a scan returns, each once, in whichever order the map yields its handles. -/
theorem lookup_eq_scan [DecidableEq K] (vals : Values V K) (intern : TenantId → String → Nat)
    {w : World V K} (h : System.Reach (system vals intern) (Admissible vals) w)
    (order : List (Handle K)) (horder : order.Perm w.propertyIndexManager.handles)
    (t : TenantId) (label : LabelId) (property : String) (value : V)
    (hplan : w.plannerLists t label property = true)
    (hkey : (vals.canonicalKey value).isSome = true) :
    (w.propertyIndexLookup vals order t label property value).Nodup ∧
      ∀ n, n ∈ w.propertyIndexLookup vals order t label property value ↔
        w.holds vals t label property value n = true := by
  have hw : Sound vals w := by
    refine h.invariant (P := Sound vals) sound_init ?_
    intro s a s' hs hok hstep
    cases hstep
    exact sound_act hs hok
  refine ⟨nodup_verify _ _ _, fun n => ?_⟩
  rw [World.propertyIndexLookup, mem_verify]
  constructor
  · exact fun hn => hn.2.2
  · exact fun hholds => ⟨hw.mem_candidates horder hplan hkey hholds, by simp, hholds⟩

def numbers : Values Nat Nat where
  same a b := a == b
  equal a b := a == b
  canonicalKey := some
  equal_of_same _ _ h := h
  key_eq_of_equal _ _ h := congrArg some (beq_iff_eq.mp h)

/-- Every tenant numbers its names from one, so ids of different tenants coincide. -/
def internOne : TenantId → String → Nat := fun _ _ => 1

def aged (age : Nat) : Bag Nat := fun name => if name = "age" then some age else none

def declared : World Nat Nat :=
  (World.act numbers internOne {} (.createNode 1 7 (aged 30))).act numbers internOne
    (.createIndex 1 "by_age" false 7 "age")

/-- The index finds the node it was built from after the node has changed. -/
theorem lookup_eq_scan_renewed :
    ∃ w : World Nat Nat, System.Reach (system numbers internOne) (Admissible numbers) w ∧
      w.plannerLists 1 7 "age" = true ∧
      (0 ∈ w.propertyIndexLookup numbers w.propertyIndexManager.handles 1 7 "age" 31) ∧
      0 ∉ w.propertyIndexLookup numbers w.propertyIndexManager.handles 1 7 "age" 30 := by
  have hreach : System.Reach (system numbers internOne) (Admissible numbers)
      (declared.act numbers internOne (.setNode 1 0 fun _ => aged 31)) := by
    have h1 : System.Reach (system numbers internOne) (Admissible numbers)
        (.act numbers internOne {} (.createNode 1 7 (aged 30))) :=
      .step (a := .createNode 1 7 (aged 30)) .init trivial rfl
    have h2 : System.Reach (system numbers internOne) (Admissible numbers) declared :=
      .step (a := .createIndex 1 "by_age" false 7 "age") h1 (fun h hh => by cases hh) rfl
    exact .step (a := .setNode 1 0 fun _ => aged 31) h2 trivial rfl
  have hexact := fun value => lookup_eq_scan numbers internOne hreach _ (Perm.refl _) 1 7
    "age" value (by decide) rfl
  refine ⟨_, hreach, by decide, ((hexact 31).2 0).mpr (by decide), ?_⟩
  rw [(hexact 30).2 0]
  decide

/-- After a restart the planner lists the index and the lookup returns nothing; without one, a
handle of another tenant with the same label id and property name answers first; and a node
that is ingested is not found. -/
theorem lookup_misses_node :
    (∃ w : World Nat Nat, System.Reach (system numbers internOne) (fun _ _ => True) w ∧
      w.plannerLists 1 7 "age" = true ∧ w.holds numbers 1 7 "age" 30 0 = true ∧
      w.propertyIndexLookup numbers w.propertyIndexManager.handles 1 7 "age" 30 = []) ∧
    (∃ w : World Nat Nat, System.Reach (system numbers internOne) (fun _ _ => True) w ∧
      w.plannerLists 1 7 "age" = true ∧ w.holds numbers 1 7 "age" 30 0 = true ∧
      w.propertyIndexLookup numbers w.propertyIndexManager.handles.reverse 1 7 "age" 30 = []) ∧
    ∃ w : World Nat Nat, System.Reach (system numbers internOne) (fun _ _ => True) w ∧
      w.plannerLists 1 7 "age" = true ∧ w.holds numbers 1 7 "age" 31 1 = true ∧
      w.propertyIndexLookup numbers w.propertyIndexManager.handles 1 7 "age" 31 = [] := by
  have h0 : System.Reach (system numbers internOne) (fun _ _ => True)
      (.act numbers internOne {} (.createNode 1 7 (aged 30))) :=
    .step (a := .createNode 1 7 (aged 30)) .init trivial rfl
  have h1 : System.Reach (system numbers internOne) (fun _ _ => True) declared :=
    .step (a := .createIndex 1 "by_age" false 7 "age") h0 trivial rfl
  refine ⟨⟨_, .step (a := .restart) h1 trivial rfl, by decide, by decide, by decide⟩,
    ⟨_, .step (a := .createIndex 2 "theirs" false 7 "age") h1 trivial rfl, by decide, by decide,
      by decide⟩, ?_⟩
  exact ⟨_, .step (a := .ingestNode 1 7 (aged 31)) h1 trivial rfl, by decide, by decide, by decide⟩

end ArcGraph.PropertyIndex.Lookup
