import ArcGraph.Foundation.Bytes
import ArcGraph.Index.Pages
import Mathlib.Data.Prod.Lex

/-!
# The primary index

The primary index maps a record's key to the page and slot that hold it. A removed
key keeps its entry as a tombstone, which a later write of the key revives in place.
-/

namespace ArcGraph.Index.Primary
open Foundation

inductive RecordKind
  | node
  | rel
deriving DecidableEq

def RecordKind.asByte : RecordKind → Nat
  | .node => 0
  | .rel => 1

/-- Ordered by tenant, then kind, then id. -/
structure PrimaryKey where
  tenant : TenantId
  kind : RecordKind
  id : UInt64
deriving DecidableEq

def PrimaryKey.rank (k : PrimaryKey) : Nat ×ₗ Nat ×ₗ Nat :=
  toLex (k.tenant.toNat, toLex (k.kind.asByte, k.id.toNat))

theorem PrimaryKey.rank_injective : Function.Injective PrimaryKey.rank := by
  rintro ⟨t, c, i⟩ ⟨t', c', i'⟩ h
  have hparts := Prod.mk.inj (toLex_inj.mp h)
  have hrest := Prod.mk.inj (toLex_inj.mp hparts.2)
  obtain rfl : t = t' := UInt64.toNat_inj.mp hparts.1
  obtain rfl : i = i' := UInt64.toNat_inj.mp hrest.2
  cases c <;> cases c' <;> first | rfl | cases hrest.1

instance PrimaryKey.linearOrder : LinearOrder PrimaryKey :=
  LinearOrder.lift' PrimaryKey.rank PrimaryKey.rank_injective

structure PageSlot where
  page : UInt64
  slot : UInt16
deriving DecidableEq

structure LeafEntry where
  key : PrimaryKey
  value : PageSlot
  tombstone : Bool
deriving DecidableEq

def leafCapacity : Nat := 203

def internalCapacity : Nat := 254

def config : TreeConfig PrimaryKey where
  indexName := "primary index"
  leafCapacity := leafCapacity
  internalCapacity := internalCapacity
  duplicatePair _ key := .duplicateKey key
  two_le_leaf := by decide
  two_le_internal := by decide

/-! ## Leaf pages -/

variable (entries : List LeafEntry)

abbrev binarySearch (needle : PrimaryKey) : LeafFindResult LeafEntry :=
  findInLeaf LeafEntry.key entries needle

abbrev Error := IndexError PrimaryKey

variable (pageId : Nat)

def insertAt (entries : List LeafEntry) (position : Nat) (key : PrimaryKey)
    (value : PageSlot) : Except Error (List LeafEntry) :=
  if leafCapacity ≤ entries.length then
    .error (.corruptPage pageId "leaf insert into full page (split required before insert)")
  else .ok (entries.insertIdx position ⟨key, value, false⟩)

/-- `LeafPageMut::insert`: a tombstone is revived in place, a live entry refused. -/
def leafInsert (entries : List LeafEntry) (key : PrimaryKey) (value : PageSlot) :
    Except Error (List LeafEntry) :=
  match binarySearch entries key with
  | .found index entry =>
    if entry.tombstone then .ok (entries.set index { entry with value := value, tombstone := false })
    else .error (.duplicateKey key)
  | .absent position => insertAt pageId entries position key value

/-- `LeafPageMut::upsert`: the entries and the live value that was replaced. -/
def leafUpsert (entries : List LeafEntry) (key : PrimaryKey) (value : PageSlot) :
    Except Error (List LeafEntry × Option PageSlot) :=
  match binarySearch entries key with
  | .found index entry =>
    .ok (entries.set index { entry with value := value, tombstone := false },
      if entry.tombstone then none else some entry.value)
  | .absent position => (insertAt pageId entries position key value).map (·, none)

/-- `LeafPageMut::remove` -/
def leafRemove (key : PrimaryKey) : List LeafEntry × Option PageSlot :=
  match binarySearch entries key with
  | .found index entry =>
    if entry.tombstone then (entries, none)
    else (entries.set index { entry with tombstone := true }, some entry.value)
  | .absent _ => (entries, none)

/-- `LeafPageRef::lookup` -/
def leafLookup (key : PrimaryKey) : Option PageSlot :=
  match binarySearch entries key with
  | .found _ entry => if entry.tombstone then none else some entry.value
  | .absent _ => none

def containsIncludingTombstoned (key : PrimaryKey) : Bool :=
  match binarySearch entries key with
  | .found _ _ => true
  | .absent _ => false

/-! ## The tree -/

abbrev PrimaryPage := Page PrimaryKey LeafEntry Empty

/-- The state of a primary index. What only this index has is the side-channel
writes of the transaction: the root pointer under the system tenant. -/
abbrev State := IndexState PrimaryPage (List SideChannelWrite)

abbrev PrimaryM := IndexM PrimaryKey PrimaryPage (List SideChannelWrite)

inductive WriteOp
  | insert
  | upsert
  | remove
deriving DecidableEq

structure WriteResult where
  previous : Option PageSlot
  existed : Bool
deriving DecidableEq

variable (leafId : Nat)

def finishLeaf (entries : List LeafEntry) (previous : Option PageSlot) :
    PrimaryM (WriteResult × Option (SplitInfo PrimaryKey)) := do
  writePage leafId (.leaf entries)
  stageEmit leafId (.leaf entries)
  return (⟨previous, previous.isSome⟩, none)

/-- The leaf is split, then the entry is put into the half it belongs to. The left
half is cut in place before the insert, which can still fail. -/
def splitAndInsert (entries : List LeafEntry) (key : PrimaryKey) (value : PageSlot) :
    PrimaryM (WriteResult × Option (SplitInfo PrimaryKey)) := do
  let newId ← alloc
  let halves ← liftExcept (splitLeaf LeafEntry.key leafId entries)
  writePage leafId (.leaf halves.left)
  if key < halves.promotedKey then
    let left ← liftExcept (leafInsert leafId halves.left key value)
    writePage leafId (.leaf left)
    stageEmit newId (.leaf halves.right)
    stageEmit leafId (.leaf left)
    installForTxn config newId (.leaf halves.right)
  else
    let right ← liftExcept (leafInsert newId halves.right key value)
    stageEmit newId (.leaf right)
    stageEmit leafId (.leaf halves.left)
    installForTxn config newId (.leaf right)
  return (⟨none, false⟩, some ⟨halves.promotedKey, newId⟩)

/-- `apply_leaf_op`, on the entries of the leaf. -/
def applyOp (entries : List LeafEntry) (key : PrimaryKey) (value : Option PageSlot) :
    WriteOp → PrimaryM (WriteResult × Option (SplitInfo PrimaryKey))
  | .insert =>
    match value with
    | none => throw (.corruptPage leafId "WriteOp::Insert without value")
    | some v =>
      if leafCapacity ≤ entries.length then splitAndInsert leafId entries key v
      else do
        let entries ← liftExcept (leafInsert leafId entries key v)
        finishLeaf leafId entries none
  | .upsert =>
    match value with
    | none => throw (.corruptPage leafId "WriteOp::Upsert without value")
    | some v =>
      if entries.length < leafCapacity ∨ containsIncludingTombstoned entries key then do
        let (entries, previous) ← liftExcept (leafUpsert leafId entries key v)
        finishLeaf leafId entries previous
      else splitAndInsert leafId entries key v
  | .remove =>
    let (entries, previous) := leafRemove entries key
    finishLeaf leafId entries previous

def applyLeafOp (key : PrimaryKey) (value : Option PageSlot) (op : WriteOp) :
    PrimaryM (WriteResult × Option (SplitInfo PrimaryKey)) := do
  let page ← latch leafId
  captureFromGuard leafId page
  match page with
  | .leaf entries => applyOp leafId entries key value op
  | page => throw (.corruptPage leafId s!"expected IndexLeaf page_type, got byte {page.typeByte}")

def applyInternalInsert (incoming : SplitInfo PrimaryKey) :
    PrimaryM (Option (SplitInfo PrimaryKey)) := do
  let page ← latch pageId
  captureFromGuard pageId page
  insertSplit config pageId incoming

def primaryIndexRootKey : MvccKey := 1

def publishRoot (newRootId : Nat) (scWrites : List SideChannelWrite) : List SideChannelWrite :=
  scWrites ++ [⟨TenantId.system, primaryIndexRootKey, some (leBytes 8 newRootId)⟩]

variable (key : PrimaryKey)

/-- The write path: the result, and the page images it staged. -/
def writeDeferred (value : Option PageSlot) (op : WriteOp) :
    PrimaryM (WriteResult × List (Nat × PrimaryPage)) := do
  modify fun s => { s with staged := [] }
  let rootId ← root
  let (leafId, path) ← descendWrite config (fun _ _ => pure ()) key (← get).nextPage rootId []
  let (result, leafSplit) ← applyLeafOp leafId key value op
  absorb config applyInternalInsert publishRoot path leafSplit
  return (result, (← get).staged)

variable (value : PageSlot)

def insertDeferred : PrimaryM (List (Nat × PrimaryPage)) := do
  return (← writeDeferred key (some value) .insert).2

def upsertDeferred :
    PrimaryM (Option PageSlot × List (Nat × PrimaryPage)) := do
  let (result, staged) ← writeDeferred key (some value) .upsert
  return (result.previous, staged)

def removeDeferred : PrimaryM (Option PageSlot × List (Nat × PrimaryPage)) := do
  let (result, staged) ← writeDeferred key none .remove
  return (result.previous, staged)

/-- The standalone write: its own log, which nobody rolls back, and its own
side-channel writes. The bundle it commits them in is the caller's WAL. -/
def write (value : Option PageSlot) (op : WriteOp) : PrimaryM WriteResult := do
  modify fun s => { s with log := {}, extra := [] }
  return (← writeDeferred key value op).1

def insert : PrimaryM Unit := do
  let _ ← write key (some value) .insert

def upsert : PrimaryM (Option PageSlot) := do
  return (← write key (some value) .upsert).previous

def remove : PrimaryM (Option PageSlot) := do
  return (← write key none .remove).previous

def lookup : PrimaryM (Option PageSlot) := do
  let rootId ← root
  let entries ← descendRead key (← get).nextPage rootId
  return leafLookup entries key

/-- A new index: the first page the allocator hands out is its root, an empty
leaf. -/
def new : State where
  pages := Function.update (fun _ => none) 1 (some (.leaf []))
  rootCache := 1
  nextPage := 2
  log := {}
  staged := []
  extra := []

end ArcGraph.Index.Primary
