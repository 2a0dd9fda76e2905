import ArcGraph.Index.Pages
import Mathlib.Data.Prod.Lex

/-!
# The secondary index

The secondary index maps a property value to the nodes that have it. A leaf entry
holds up to four nodes inline and the head of a chain of overflow pages for the rest.
A removed node leaves an empty slot, which the inline array uses again and the chain
does not. `overflow_tail_cache` remembers for each chain where the last append was.
-/

namespace ArcGraph.Index.Secondary
open Foundation Function

/-- A node id; zero is an empty slot. -/
abbrev NodeId := UInt64

inductive PropertyValue
  | u32 (v : UInt32)
  | u64 (v : UInt64)
  | stringId (id : UInt32)
  | strHash (h : UInt64)
deriving DecidableEq

def PropertyValue.variantTag : PropertyValue → Nat
  | .u32 _ => 0
  | .u64 _ => 1
  | .stringId _ => 2
  | .strHash _ => 3

def PropertyValue.payload : PropertyValue → Nat
  | .u32 v => v.toNat
  | .u64 v => v.toNat
  | .stringId id => id.toNat
  | .strHash h => h.toNat

/-- Ordered by tenant, label, property key and value; values by variant first. -/
structure SecondaryKey where
  tenant : TenantId
  label : UInt32
  propertyKey : UInt32
  value : PropertyValue
deriving DecidableEq

variable (k : SecondaryKey)

def SecondaryKey.rank : Nat ×ₗ Nat ×ₗ Nat ×ₗ Nat ×ₗ Nat :=
  toLex (k.tenant.toNat, toLex (k.label.toNat, toLex (k.propertyKey.toNat,
    toLex (k.value.variantTag, k.value.payload))))

theorem PropertyValue.eq_of_parts {v w : PropertyValue} (htag : v.variantTag = w.variantTag)
    (hpayload : v.payload = w.payload) : v = w := by
  cases v <;> cases w <;>
    simp_all [PropertyValue.variantTag, PropertyValue.payload, UInt32.toNat_inj, UInt64.toNat_inj]

theorem SecondaryKey.rank_injective : Injective SecondaryKey.rank := by
  rintro ⟨t, l, p, v⟩ ⟨t', l', p', v'⟩ h
  obtain ⟨ht, h⟩ := Prod.mk.inj (toLex_inj.mp h)
  obtain ⟨hl, h⟩ := Prod.mk.inj (toLex_inj.mp h)
  obtain ⟨hp, h⟩ := Prod.mk.inj (toLex_inj.mp h)
  obtain ⟨htag, hpayload⟩ := Prod.mk.inj (toLex_inj.mp h)
  obtain rfl : t = t' := UInt64.toNat_inj.mp ht
  obtain rfl : l = l' := UInt32.toNat_inj.mp hl
  obtain rfl : p = p' := UInt32.toNat_inj.mp hp
  obtain rfl : v = v' := PropertyValue.eq_of_parts htag hpayload
  rfl

instance SecondaryKey.linearOrder : LinearOrder SecondaryKey :=
  LinearOrder.lift' SecondaryKey.rank SecondaryKey.rank_injective

abbrev Error := IndexError SecondaryKey

/-! ## The key codec

The value has seven bytes on a page. `encode_into` writes tenant, label, property
key and variant tag before it finds out that the value does not fit. -/

def SecondaryKey.encode : Except Error SecondaryKey :=
  match k.value with
  | .u64 v => if 2 ^ 56 - 1 < v.toNat then .error (.valueOverflow v.toNat) else .ok k
  | .strHash h => .ok { k with value := .strHash (UInt64.ofNat (h.toNat % 2 ^ 56)) }
  | _ => .ok k

/-- What stands where `old` stood when the encoding of a `U64` key was given up: the
seven value bytes are still the old ones. -/
def SecondaryKey.halfEncoded (old : SecondaryKey) : SecondaryKey :=
  { k with value := .u64 (UInt64.ofNat (old.value.payload % 2 ^ 56)) }

/-- The keys that come back as they are. -/
def SecondaryKey.Encodable : Prop := k.encode = .ok k

instance SecondaryKey.Encodable.decidable (k : SecondaryKey) : Decidable k.Encodable :=
  inferInstanceAs (Decidable (_ = _))

/-! ## Leaf pages -/

structure LeafEntry where
  key : SecondaryKey
  inline : List NodeId
  overflowHead : Nat
deriving DecidableEq

def LeafEntry.liveInline (e : LeafEntry) : List NodeId := e.inline.filter (· ≠ 0)

def LeafEntry.firstEmptyInline (e : LeafEntry) : Option Nat := e.inline.findIdx? (· = 0)

variable (key : SecondaryKey) (node : NodeId)

def LeafEntry.fresh : LeafEntry := ⟨key, [node, 0, 0, 0], 0⟩

def leafCapacity : Nat := 127

def internalCapacity : Nat := 254

def config : TreeConfig SecondaryKey where
  indexName := "secondary index"
  leafCapacity := leafCapacity
  internalCapacity := internalCapacity
  duplicatePair pageId _ := .corruptPage pageId "internal insert: duplicate key"
  two_le_leaf := by decide
  two_le_internal := by decide

/-- `LeafPageRef::find`, with the entry that is found. -/
abbrev find (entries : List LeafEntry) (needle : SecondaryKey) : LeafFindResult LeafEntry :=
  findInLeaf LeafEntry.key entries needle

/-- The entries behind an `insert_at` whose key did not encode: the tail is shifted,
the slot half overwritten, and the count not raised. -/
def halfInserted (entries : List LeafEntry) (position : Nat) (key : SecondaryKey) :
    List LeafEntry :=
  match entries[position]? with
  | some e =>
    (entries.insertIdx position { e with key := key.halfEncoded e.key }).take entries.length
  | none => entries

variable (pageId : Nat) (entries : List LeafEntry)

/-- The entries behind an insert, and its error if it has one. -/
def insertAt (position : Nat) (entry : LeafEntry) :
    List LeafEntry × Option Error :=
  if leafCapacity ≤ entries.length then
    (entries, some (.corruptPage pageId
      "leaf insert into full page (split required before insert)"))
  else
    match entry.key.encode with
    | .ok key => (entries.insertIdx position { entry with key := key }, none)
    | .error e => (halfInserted entries position entry.key, some e)

variable (entry : LeafEntry)

def insertEntry :
    List LeafEntry × Option Error :=
  match find entries entry.key with
  | .found _ _ =>
    (entries, some (.corruptPage pageId "insert_entry called for key that already exists"))
  | .absent position => insertAt pageId entries position entry

/-! ## Overflow pages -/

/-- The written slots of an overflow page and the next page of the chain, zero at its
end. -/
structure OverflowPage where
  slots : List NodeId
  next : Nat
deriving DecidableEq

def overflowSlotsPerPage : Nat := 1017

def OverflowPage.append (o : OverflowPage) (node : NodeId) : OverflowPage :=
  { o with slots := o.slots ++ [node] }

def tombstone (slots : List NodeId) : List NodeId :=
  slots.map fun slot => if slot = node then 0 else slot

/-! ## The tree -/

abbrev SecondaryPage := Page SecondaryKey LeafEntry OverflowPage

/-- What only this index has: for the head of a chain the page of the last append, and
a new root that is not yet persisted. -/
structure Extra where
  overflowTailCache : Nat → Option Nat
  pendingRoot : Nat

abbrev State := IndexState SecondaryPage Extra

abbrev SecondaryM := IndexM SecondaryKey SecondaryPage Extra

inductive WriteOp
  | insert
  | remove
deriving DecidableEq

structure WriteOutcome where
  removed : Bool
  insertedFreshEntry : Bool
deriving DecidableEq

def cacheTail (head tail : Nat) : SecondaryM Unit :=
  modify fun s => { s with extra := { s.extra with
    overflowTailCache := update s.extra.overflowTailCache head (some tail) } }

def latchOverflow : SecondaryM OverflowPage := do
  let page ← latch pageId
  captureFromGuard pageId page
  match page with
  | .overflow o => return o
  | page => throw (.corruptPage pageId
      s!"expected IndexOverflow page_type, got byte {page.typeByte}")

/-- The loop of `append_at_or_past_tail`. The number of allocated pages is enough fuel
for any chain. -/
def appendAtOrPastTail (head : Nat) (node : NodeId) : Nat → Nat → SecondaryM Unit
  | 0, _ => throw .diverges
  | fuel + 1, current => do
      let o ← latchOverflow current
      if o.slots.length < overflowSlotsPerPage then
        writePage current (.overflow (o.append node))
        stageEmit current (.overflow (o.append node))
        cacheTail head current
      else if o.next ≠ 0 then
        appendAtOrPastTail head node fuel o.next
      else
        let newTail ← alloc
        stageEmit newTail (.overflow ⟨[node], 0⟩)
        installForTxn config newTail (.overflow ⟨[node], 0⟩)
        writePage current (.overflow { o with next := newTail })
        stageEmit current (.overflow { o with next := newTail })
        cacheTail head newTail

/-- A node that has no room inline. The result is the head of a new chain. -/
def appendToOverflowChain (node : NodeId) : SecondaryM (Option Nat) := do
  if entry.overflowHead = 0 then
    let newHead ← alloc
    stageEmit newHead (.overflow ⟨[node], 0⟩)
    installForTxn config newHead (.overflow ⟨[node], 0⟩)
    cacheTail newHead newHead
    return some newHead
  else
    let s ← get
    let tailCandidate := (s.extra.overflowTailCache entry.overflowHead).getD entry.overflowHead
    appendAtOrPastTail entry.overflowHead node s.nextPage tailCandidate
    return none

variable (leafId : Nat)

def writeEntry (entries : List LeafEntry) (index : Nat) (entry : LeafEntry) :
    SecondaryM Unit := do
  writePage leafId (.leaf (entries.set index entry))
  stageEmit leafId (.leaf (entries.set index entry))

/-- An entry goes to a leaf in place: what the insert did to the page stays, also if it
failed. -/
def insertInPlace (entries : List LeafEntry) (entry : LeafEntry) :
    SecondaryM (List LeafEntry) := do
  let (entries, error) := insertEntry leafId entries entry
  writePage leafId (.leaf entries)
  match error with
  | some e => throw e
  | none => return entries

def splitAndInsert (entries : List LeafEntry) (entry : LeafEntry) :
    SecondaryM (SplitInfo SecondaryKey) := do
  let newId ← alloc
  let halves ← liftExcept (splitLeaf LeafEntry.key leafId entries)
  writePage leafId (.leaf halves.left)
  if entry.key < halves.promotedKey then
    let left ← insertInPlace leafId halves.left entry
    stageEmit newId (.leaf halves.right)
    stageEmit leafId (.leaf left)
    installForTxn config newId (.leaf halves.right)
  else
    let (right, error) := insertEntry newId halves.right entry
    match error with
    | some e => throw e
    | none =>
      stageEmit newId (.leaf right)
      stageEmit leafId (.leaf halves.left)
      installForTxn config newId (.leaf right)
  return ⟨halves.promotedKey, newId⟩

def applyLeafInsert (entries : List LeafEntry) (key : SecondaryKey)
    (node : NodeId) : SecondaryM (WriteOutcome × Option (SplitInfo SecondaryKey)) := do
  match find entries key with
  | .found index entry =>
    match entry.firstEmptyInline with
    | some pos =>
      writeEntry leafId entries index { entry with inline := entry.inline.set pos node }
    | none =>
      match ← appendToOverflowChain entry node with
      | some newHead => writeEntry leafId entries index { entry with overflowHead := newHead }
      | none => pure ()
    return (⟨false, false⟩, none)
  | .absent _ =>
    if leafCapacity ≤ entries.length then
      let split ← splitAndInsert leafId entries (.fresh key node)
      return (⟨false, true⟩, some split)
    else
      let entries ← insertInPlace leafId entries (.fresh key node)
      stageEmit leafId (.leaf entries)
      return (⟨false, true⟩, none)

/-- The chain part of a remove: every copy of the node on every page. -/
def removeFromChain (node : NodeId) : Nat → Nat → SecondaryM Bool
  | 0, next => if next = 0 then return false else throw .diverges
  | fuel + 1, next =>
    if next = 0 then return false
    else do
      let o ← latchOverflow next
      -- `tombstone_first` finds nothing for the zero node
      let pageChanged := decide (node ≠ 0) && o.slots.contains node
      if pageChanged then
        writePage next (.overflow { o with slots := tombstone node o.slots })
        stageEmit next (.overflow { o with slots := tombstone node o.slots })
      let rest ← removeFromChain node fuel o.next
      return pageChanged || rest

def applyLeafRemove (entries : List LeafEntry) (key : SecondaryKey)
    (node : NodeId) : SecondaryM (WriteOutcome × Option (SplitInfo SecondaryKey)) := do
  match find entries key with
  | .found index entry =>
    let inlineChanged := entry.inline.contains node
    if inlineChanged then
      writeEntry leafId entries index { entry with inline := tombstone node entry.inline }
    let chainChanged ← removeFromChain node (← get).nextPage entry.overflowHead
    return (⟨inlineChanged || chainChanged, false⟩, none)
  | .absent _ => return (⟨false, false⟩, none)

def applyOp (entries : List LeafEntry) (key : SecondaryKey) (node : Option NodeId)
    (op : WriteOp) : SecondaryM (WriteOutcome × Option (SplitInfo SecondaryKey)) :=
  match op, node with
  | .insert, some node => applyLeafInsert leafId entries key node
  | .insert, none => throw (.corruptPage leafId "WriteOp::Insert without node")
  | .remove, some node => applyLeafRemove leafId entries key node
  | .remove, none => throw (.corruptPage leafId "WriteOp::Remove without node")

def applyLeafOp (key : SecondaryKey) (node : Option NodeId) (op : WriteOp) :
    SecondaryM (WriteOutcome × Option (SplitInfo SecondaryKey)) := do
  match ← latch leafId with
  | .leaf entries => applyOp leafId entries key node op
  | page => throw (.corruptPage leafId s!"expected IndexLeaf page_type, got byte {page.typeByte}")

def publishRoot (newRootId : Nat) (extra : Extra) : Extra := { extra with pendingRoot := newRootId }

def writeDeferred (node : Option NodeId) (op : WriteOp) :
    SecondaryM (WriteOutcome × List (Nat × SecondaryPage)) := do
  modify fun s => { s with staged := [] }
  let rootId ← root
  let rootPage ← latch rootId
  captureFromGuard rootId rootPage
  let (leafId, path) ← descendWrite config captureFromGuard key (← get).nextPage rootId []
  let (outcome, leafSplit) ← applyLeafOp leafId key node op
  absorb config (insertSplit config) publishRoot path leafSplit
  return (outcome, (← get).staged)

def insertDeferred :
    SecondaryM (List (Nat × SecondaryPage)) := do
  return (← writeDeferred key (some node) .insert).2

def removeDeferred :
    SecondaryM (Bool × List (Nat × SecondaryPage)) := do
  let (outcome, staged) ← writeDeferred key (some node) .remove
  return (outcome.removed, staged)

/-- The standalone write: its own log, which nobody rolls back, and the pending root
taken along in its bundle. -/
def write (node : Option NodeId) (op : WriteOp) :
    SecondaryM WriteOutcome := do
  modify fun s => { s with log := {} }
  let (outcome, _) ← writeDeferred key node op
  modify fun s => { s with extra := { s.extra with pendingRoot := 0 } }
  return outcome

def insert : SecondaryM Unit := do
  let _ ← write key (some node) .insert

def remove : SecondaryM Bool := do
  return (← write key (some node) .remove).removed

/-! ## The read path -/

def collectChain : Nat → Nat → SecondaryM (List NodeId)
  | 0, next => if next = 0 then return [] else throw .diverges
  | fuel + 1, next =>
    if next = 0 then return []
    else do
      match ← latch next with
      | .overflow o =>
        let rest ← collectChain fuel o.next
        return o.slots.filter (· ≠ 0) ++ rest
      | page => throw (.corruptPage next
          s!"expected IndexOverflow page_type, got byte {page.typeByte}")

def lookup : SecondaryM (List NodeId) := do
  let rootId ← root
  let entries ← descendRead key (← get).nextPage rootId
  match find entries key with
  | .found _ entry =>
    let chain ← collectChain (← get).nextPage entry.overflowHead
    return entry.liveInline ++ chain
  | .absent _ => return []

/-- A new index, after the allocator, which the indexes share, has handed out
`allocated` pages. -/
def new (allocated : Nat) : State where
  pages := update (fun _ => none) (allocated + 1) (some (.leaf []))
  rootCache := allocated + 1
  nextPage := allocated + 2
  log := {}
  staged := []
  extra := ⟨fun _ => none, 0⟩

end ArcGraph.Index.Secondary
