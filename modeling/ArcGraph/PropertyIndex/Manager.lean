import ArcGraph.Basic
import ArcGraph.PropertyIndex.Build

/-!
# The property-index manager

The durable catalog, the manager's copy of it and the handles with their trees; index
statements, node writes with their maintenance, lookups and restarts over them. Statements
and writes follow one another, so `CREATE INDEX` is one step.
-/

namespace ArcGraph.PropertyIndex.Lookup
open Foundation ArcGraph.Graph Function

/-- Property values as the index sees them: equality of stored values, the equality of the
engine, which compares an integer with a float, and the key of an indexable value. Values
the engine calls equal have one key, the contract of `canonical_row_key`. -/
structure Values (V K : Type) where
  same : V → V → Bool
  equal : V → V → Bool
  canonicalKey : V → Option K
  equal_of_same : ∀ a b, same a b = true → equal a b = true
  key_eq_of_equal : ∀ a b, equal a b = true → canonicalKey a = canonicalKey b

namespace Values
variable {V K : Type} (vals : Values V K)

def changed : Option V → Option V → Bool
  | some a, some b => !vals.same a b
  | none, none => false
  | _, _ => true

end Values

structure Record where
  tenant : TenantId
  name : String
  label : LabelId
  propertyKey : Nat
  propertyName : String
  state : IndexState
deriving DecidableEq

structure SecondaryKey (K : Type) where
  tenant : TenantId
  label : LabelId
  propertyKey : Nat
  value : K
deriving DecidableEq

/-- A runtime handle under its key in the map; the tree is a multimap. -/
structure Handle (K : Type) where
  tenant : TenantId
  name : String
  label : LabelId
  propertyKey : Nat
  propertyName : String
  tree : List (SecondaryKey K × NodeId) := []

structure Manager (K : Type) where
  catalog : List Record
  handles : List (Handle K)

structure CreateIndexSpec where
  tenant : TenantId
  name : String
  ifNotExists : Bool
  label : LabelId
  propertyKey : Nat
  propertyName : String

def Record.named (r : Record) (tenant : TenantId) (name : String) : Bool :=
  r.tenant == tenant && r.name == name

def indexesOn (catalog : List Record) (tenant : TenantId) (label : LabelId) :
    List (Nat × IndexState) :=
  (catalog.filter fun r => r.tenant == tenant && r.label == label).map fun r =>
    (r.propertyKey, r.state)

def recover (durable : List Record) : List Record :=
  durable.map fun r =>
    { r with state := if r.state = .online then .online else .building }

namespace Handle
variable {V K : Type} (vals : Values V K) (h : Handle K)

def named (tenant : TenantId) (name : String) : Bool :=
  h.tenant == tenant && h.name == name

def key (tenant : TenantId) (k : K) : SecondaryKey K := ⟨tenant, h.label, h.propertyKey, k⟩

def insertOne (tenant : TenantId) (value : V) (n : NodeId) : Handle K :=
  { h with tree := h.tree ++ ((vals.canonicalKey value).map fun k => (h.key tenant k, n)).toList }

def backfillOne (tenant : TenantId) (p : NodeId × NodeBag V) : Handle K :=
  if p.2.label = h.label then
    match p.2.bag h.propertyName with
    | some value => h.insertOne vals tenant value p.1
    | none => h
  else h

def backfill (tenant : TenantId) (nodes : List (NodeId × NodeBag V)) : Handle K :=
  nodes.foldl (fun h p => h.backfillOne vals tenant p) h

/-- What `maintain_node` does at one handle, whosever it is. -/
def maintain (declaredKeys : List (Nat × IndexState)) (tenant : TenantId) (n : NodeId)
    (label : LabelId) (oldBag : Option (Bag V)) (newBag : Bag V) : Handle K :=
  if h.label ≠ label then h
  else
    match declaredKeys.find? fun p => p.1 == h.propertyKey with
    | none => h
    | some (_, state) =>
      if !state.maintenanceActive then h
      else if vals.changed (newBag h.propertyName)
          (oldBag.bind fun bag => bag h.propertyName) then
        match newBag h.propertyName with
        | some value => h.insertOne vals tenant value n
        | none => h
      else h

end Handle

namespace Manager
variable {V K : Type} (vals : Values V K) (m : Manager K)

def btreeFor (spec : CreateIndexSpec) : Manager K :=
  if m.handles.any fun h => h.named spec.tenant spec.name then m
  else
    { m with
      handles := m.handles ++
        [⟨spec.tenant, spec.name, spec.label, spec.propertyKey, spec.propertyName, []⟩] }

/-- The manager and whether the index is new. `IF NOT EXISTS` decides only whether an
existing index is reported as an error. -/
def registerBuilding (spec : CreateIndexSpec) : Manager K × Bool :=
  let m := m.btreeFor spec
  if m.catalog.any fun r => r.named spec.tenant spec.name then (m, false)
  else
    ({ m with
       catalog := m.catalog ++
         [⟨spec.tenant, spec.name, spec.label, spec.propertyKey, spec.propertyName,
           .building⟩] }, true)

def backfillAndFlip (tenant : TenantId) (name : String) (nodes : List (NodeId × NodeBag V)) :
    Manager K where
  handles := m.handles.map fun h =>
    if h.named tenant name then h.backfill vals tenant nodes else h
  catalog := m.catalog.map fun r => if r.named tenant name then { r with state := .online } else r

def maintainNode (tenant : TenantId) (n : NodeId) (label : LabelId) (oldBag : Option (Bag V))
    (newBag : Bag V) : Manager K :=
  let declaredKeys := indexesOn m.catalog tenant label
  if declaredKeys.isEmpty then m
  else
    { m with
      handles := m.handles.map fun h =>
        h.maintain vals declaredKeys tenant n label oldBag newBag }

/-- The handle a lookup takes, `order` being the order in which the map yields them. -/
def serving (order : List (Handle K)) (tenant : TenantId) (label : LabelId)
    (property : String) : Option (Handle K) :=
  let declaredKeys := indexesOn m.catalog tenant label
  order.find? fun h =>
    h.label == label && h.propertyName == property &&
      declaredKeys.any fun p => p.1 == h.propertyKey && p.2.plannerVisible

def lookupCandidates [DecidableEq K] (order : List (Handle K)) (tenant : TenantId)
    (label : LabelId) (property : String) (value : V) : List NodeId :=
  match vals.canonicalKey value with
  | none => []
  | some k =>
    match m.serving order tenant label property with
    | none => []
    | some h => (h.tree.filter fun e => e.1 = h.key tenant k).map (·.2)

def dropIndex (tenant : TenantId) (name : String) : Manager K × Bool :=
  if m.catalog.any fun r => r.named tenant name then
    (⟨m.catalog.filter fun r => !r.named tenant name,
      m.handles.filter fun h => !h.named tenant name⟩, true)
  else (m, false)

end Manager

/-! ## The system -/

structure World (V K : Type) where
  nodes : TenantId → NodeId → Option (NodeBag V) := fun _ _ => none
  nextNode : TenantId → NodeId := fun _ => 0
  durable : List Record := []
  manager : Option (Manager K) := none

inductive Action (V : Type)
  | createIndex (tenant : TenantId) (name : String) (ifNotExists : Bool) (label : LabelId)
      (property : String)
  | dropIndex (tenant : TenantId) (name : String) (ifExists : Bool)
  | createNode (tenant : TenantId) (label : LabelId) (bag : Bag V)
  | ingestNode (tenant : TenantId) (label : LabelId) (bag : Bag V)
  | setNode (tenant : TenantId) (node : NodeId) (mutation : Bag V → Bag V)
  | deleteNode (tenant : TenantId) (node : NodeId)
  | lookup
  | restart

namespace World
variable {V K : Type} (vals : Values V K) (intern : TenantId → String → Nat) (w : World V K)

def propertyIndexManager : Manager K := w.manager.getD ⟨recover w.durable, []⟩

def setManager (m : Manager K) (changed : Bool) : World V K :=
  { w with manager := some m, durable := if changed then m.catalog else w.durable }

def setNodes (tenant : TenantId) (n : NodeId) (node : Option (NodeBag V)) : World V K :=
  { w with
    nodes := update w.nodes tenant (update (w.nodes tenant) n node) }

def scanForBackfill (tenant : TenantId) (label : LabelId) : List (NodeId × NodeBag V) :=
  (List.range (w.nextNode tenant)).filterMap fun n =>
    (w.nodes tenant n).bind fun node => if node.label = label then some (n, node) else none

def createIndex (spec : CreateIndexSpec) : World V K :=
  let (m, created) := w.propertyIndexManager.registerBuilding spec
  if created then
    w.setManager (m.backfillAndFlip vals spec.tenant spec.name
      (w.scanForBackfill spec.tenant spec.label)) true
  else w.setManager m false

/-- Maintenance runs only where the process has a manager. -/
def maintainBestEffort (tenant : TenantId) (n : NodeId) (label : LabelId)
    (oldBag : Option (Bag V)) (newBag : Bag V) : World V K :=
  match w.manager with
  | none => w
  | some m => { w with manager := some (m.maintainNode vals tenant n label oldBag newBag) }

def addNode (tenant : TenantId) (label : LabelId) (bag : Bag V) : World V K :=
  { w.setNodes tenant (w.nextNode tenant) (some ⟨label, bag⟩) with
    nextNode := update w.nextNode tenant (w.nextNode tenant + 1) }

def act : Action V → World V K
  | .createIndex tenant name ifNotExists label property =>
    w.createIndex vals ⟨tenant, name, ifNotExists, label, intern tenant property, property⟩
  | .dropIndex tenant name _ =>
    let (m, removed) := w.propertyIndexManager.dropIndex tenant name
    w.setManager m removed
  | .createNode tenant label bag =>
    (w.addNode tenant label bag).maintainBestEffort vals tenant (w.nextNode tenant) label none bag
  -- `StorageIngestProvider` does not look at the indexes
  | .ingestNode tenant label bag => w.addNode tenant label bag
  | .setNode tenant n mutation =>
    match w.nodes tenant n with
    | none => w
    | some node =>
      (w.setNodes tenant n (some { node with bag := mutation node.bag })).maintainBestEffort
        vals tenant n node.label (some node.bag) (mutation node.bag)
  | .deleteNode tenant n => w.setNodes tenant n none
  | .lookup => w.setManager w.propertyIndexManager false
  | .restart => { w with manager := none }

/-- The planner's catalog is recovered from the durable one. -/
def plannerLists (tenant : TenantId) (label : LabelId) (property : String) : Bool :=
  (recover w.durable).any fun r =>
    r.tenant == tenant && r.label == label && r.propertyName == property &&
      r.state.plannerVisible

/-- What a scan asks of a node: live, of the label, and its property equal to the value. -/
def holds (tenant : TenantId) (label : LabelId) (property : String) (value : V) (n : NodeId) :
    Bool :=
  match w.nodes tenant n with
  | none => false
  | some node =>
    node.label == label &&
      match node.bag property with
      | none => false
      | some stored => vals.equal stored value

/-- `verify_property_candidates_in_tx`: each candidate is looked at once. -/
def verify (p : NodeId → Bool) : List NodeId → List NodeId → List NodeId
  | _, [] => []
  | seen, c :: rest =>
    if c ∈ seen then verify p seen rest
    else if p c then c :: verify p (c :: seen) rest
    else verify p (c :: seen) rest

def propertyIndexLookup [DecidableEq K] (order : List (Handle K)) (tenant : TenantId)
    (label : LabelId) (property : String) (value : V) : List NodeId :=
  verify (w.holds vals tenant label property value) []
    (w.propertyIndexManager.lookupCandidates vals order tenant label property value)

end World

variable {V K : Type} (vals : Values V K) (intern : TenantId → String → Nat)

def system : System (World V K) (Action V) where
  init := {}
  step w a := some (w.act vals intern a)

end ArcGraph.PropertyIndex.Lookup
