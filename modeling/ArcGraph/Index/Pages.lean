import ArcGraph.Basic
import ArcGraph.Foundation.BinarySearch

/-!
# The page scaffold of the B+tree indexes

The primary and the secondary index are two copies of one B+tree over pages in an
in-memory store; what differs is the key, the leaf entry and the operation at the
leaf. This module holds what the copies share: the store, the mutation log of a
transaction, the internal page, the descent with write-crabbing, the propagation
of a split through the latched ancestors and the growth of the root.

Latches are not modelled: `write_gate` makes a write one step. A page is changed
in place, so that an operation that fails leaves behind what it had done; the
monad `EStateM` keeps the state of an error. A page id is a natural number; the
allocator's 64-bit counter is documented never to be exhausted. The root pointer
is the cached one, which the constructor sets.
-/

namespace ArcGraph.Index
open Foundation Function

inductive IndexError (K : Type)
  | missingPage (pageId : Nat)
  | corruptPage (pageId : Nat) (reason : String)
  | duplicateKey (key : K)
  | valueOverflow (value : Nat)
  /-- A loop of the source that does not end. -/
  | diverges
deriving DecidableEq

/-- The contents of a page. `X` is what an overflow page holds. -/
inductive Page (K E X : Type)
  | leaf (entries : List E)
  | internal (firstChild : Nat) (pairs : List (K × Nat))
  | overflow (contents : X)
deriving DecidableEq

/-- Where a leaf has a key. -/
inductive LeafFindResult (E : Type)
  | found (index : Nat) (entry : E)
  | absent (insertAt : Nat)
deriving DecidableEq

section
variable {K E : Type} [LinearOrder K] {key : E → K} {entries : List E}

def findInLeaf (key : E → K) (entries : List E) (needle : K) : LeafFindResult E :=
  match searchIn key entries needle with
  | .found index =>
    match entries[index]? with
    | some entry => .found index entry
    | none => .absent index
  | .absent insertAt => .absent insertAt

theorem findInLeaf_cases (h : AscendingBy key entries) (k : K) :
    (∃ a e b, entries = a ++ e :: b ∧ key e = k ∧ (∀ y ∈ a, key y < k) ∧
      findInLeaf key entries k = .found a.length e ∧ findKey key entries k = some e) ∨
    (∃ a b, entries = a ++ b ∧ (∀ y ∈ a, key y < k) ∧ (∀ y ∈ b, k < key y) ∧
      findInLeaf key entries k = .absent a.length ∧ findKey key entries k = none) := by
  rcases h.searchIn_cases k with ⟨a, e, b, rfl, hk, ha, hb, hfound⟩ | ⟨a, b, rfl, ha, hb, habsent⟩
  · exact .inl ⟨a, e, b, rfl, hk, ha, by simp [findInLeaf, hfound], findKey_found ha hk⟩
  · exact .inr ⟨a, b, rfl, ha, hb, by simp [findInLeaf, habsent], findKey_absent ha hb⟩

end

def Page.typeByte {K E X : Type} : Page K E X → Nat
  | .internal _ _ => 4
  | .leaf _ => 5
  | .overflow _ => 8

/-- The share of `TxnMutationLog` that one index writes. -/
structure TxnMutationLog (P : Type) where
  pageMutations : List (Nat × P) := []
  newPages : List Nat := []
  rootChanges : List Nat := []

def TxnMutationLog.hasCaptured {P : Type} (log : TxnMutationLog P) (pageId : Nat) : Bool :=
  log.pageMutations.any (·.1 = pageId)

/-- An index, with the log and the staged page images of the transaction that
writes to it. `extra` is what only one of the two indexes has. -/
structure IndexState (P σ : Type) where
  pages : Nat → Option P
  rootCache : Nat
  nextPage : Nat
  log : TxnMutationLog P
  staged : List (Nat × P)
  extra : σ

abbrev IndexM (K P σ : Type) := EStateM (IndexError K) (IndexState P σ)

/-- What sets the two copies apart in the shared code. -/
structure TreeConfig (K : Type) where
  indexName : String
  leafCapacity : Nat
  internalCapacity : Nat
  /-- The error of a pair whose key is already on an internal page. -/
  duplicatePair : Nat → K → IndexError K
  two_le_leaf : 2 ≤ leafCapacity
  two_le_internal : 2 ≤ internalCapacity

structure SplitInfo (K : Type) where
  promotedKey : K
  newRightPage : Nat
deriving DecidableEq

/-! ## The page store -/

section
variable {K P σ : Type}

def latch (pageId : Nat) : IndexM K P σ P := fun s =>
  match s.pages pageId with
  | some page => .ok page s
  | none => .error (.missingPage pageId) s

def writePage (pageId : Nat) (page : P) : IndexM K P σ Unit := fun s =>
  .ok () { s with pages := update s.pages pageId (some page) }

def captureFromGuard (pageId : Nat) (page : P) : IndexM K P σ Unit := fun s =>
  if s.log.hasCaptured pageId then .ok () s
  else .ok () { s with
    log := { s.log with pageMutations := s.log.pageMutations ++ [(pageId, page)] } }

def install (cfg : TreeConfig K) (pageId : Nat) (page : P) : IndexM K P σ Unit := fun s =>
  match s.pages pageId with
  | some _ => .error (.corruptPage pageId s!"page id already mapped in {cfg.indexName}") s
  | none => .ok () { s with pages := update s.pages pageId (some page) }

def installForTxn (cfg : TreeConfig K) (pageId : Nat) (page : P) : IndexM K P σ Unit := do
  install cfg pageId page
  modify fun s => { s with log := { s.log with newPages := s.log.newPages ++ [pageId] } }

def alloc : IndexM K P σ Nat := fun s => .ok s.nextPage { s with nextPage := s.nextPage + 1 }

def stageEmit (pageId : Nat) (page : P) : IndexM K P σ Unit :=
  modify fun s => { s with staged := s.staged ++ [(pageId, page)] }

def root : IndexM K P σ Nat := fun s => .ok s.rootCache s

end

/-! ## What the steps do -/

section
variable {ε s α β : Type}

@[simp] theorem bind_apply (x : EStateM ε s α) (f : α → EStateM ε s β) (st : s) :
    (x >>= f) st = match x st with
      | .ok a st' => f a st'
      | .error e st' => .error e st' := rfl

theorem bind_ok {x : EStateM ε s α} {f : α → EStateM ε s β} {st st' : s} {b : β}
    (h : (x >>= f) st = .ok b st') : ∃ a st1, x st = .ok a st1 ∧ f a st1 = .ok b st' := by
  rw [bind_apply] at h
  cases hx : x st with
  | error e st1 => simp [hx] at h
  | ok a st1 => exact ⟨a, st1, rfl, by simpa [hx] using h⟩

@[simp] theorem pure_apply (a : α) (st : s) : (pure a : EStateM ε s α) st = .ok a st := rfl

@[simp] theorem throw_apply (e : ε) (st : s) : (throw e : EStateM ε s α) st = .error e st := rfl

@[simp]
theorem modify_apply (f : s → s) (st : s) : (modify f : EStateM ε s PUnit) st = .ok ⟨⟩ (f st) := rfl

@[simp] theorem get_apply (st : s) : (get : EStateM ε s s) st = .ok st st := rfl

/-- A pure result inside a write; it does not touch the state. -/
def liftExcept : Except ε α → EStateM ε s α
  | .ok a => pure a
  | .error e => throw e

@[simp]
theorem liftExcept_ok (a : α) (st : s) : liftExcept (.ok a : Except ε α) st = .ok a st := rfl

@[simp] theorem liftExcept_error (e : ε) (st : s) :
    liftExcept (.error e : Except ε α) st = .error e st := rfl

end

section
variable {K P σ : Type} {s : IndexState P σ} {pageId : Nat} {page : P}

theorem latch_of_some (h : s.pages pageId = some page) : latch (K := K) pageId s = .ok page s := by
  rw [latch, h]

theorem latch_of_none (h : s.pages pageId = none) :
    latch (K := K) pageId s = .error (.missingPage pageId) s := by
  rw [latch, h]

@[simp] theorem writePage_apply (pageId : Nat) (page : P) (s : IndexState P σ) :
    writePage (K := K) pageId page s =
      .ok () { s with pages := update s.pages pageId (some page) } := rfl

@[simp] theorem alloc_apply (s : IndexState P σ) :
    alloc (K := K) s = .ok s.nextPage { s with nextPage := s.nextPage + 1 } := rfl

@[simp] theorem stageEmit_apply (pageId : Nat) (page : P) (s : IndexState P σ) :
    stageEmit (K := K) pageId page s =
      .ok () { s with staged := s.staged ++ [(pageId, page)] } := rfl

@[simp] theorem root_apply (s : IndexState P σ) : root (K := K) s = .ok s.rootCache s := rfl

theorem installForTxn_of_none {cfg : TreeConfig K} (h : s.pages pageId = none) :
    installForTxn cfg pageId page s = .ok () { s with
      pages := update s.pages pageId (some page)
      log := { s.log with newPages := s.log.newPages ++ [pageId] } } := by
  simp [installForTxn, install, h]

end

/-! ## Internal pages -/

variable {K E X σ : Type} [LinearOrder K]

/-- The child whose subtree may hold the key: behind the last separator at or below
it. -/
def findChild (firstChild : Nat) (pairs : List (K × Nat)) (needle : K) : Nat :=
  let count := bisect (fun i => pairs[i]?.any (·.1 ≤ needle)) pairs.length 0 pairs.length
  if count = 0 then firstChild else (pairs[count - 1]?.map (·.2)).getD firstChild

/-- Where a new pair goes: before the first larger key. -/
def pairPosition (pairs : List (K × Nat)) (key : K) : Position :=
  match pairs with
  | [] => .absent 0
  | (k, _) :: rest =>
    match compare k key with
    | .lt =>
      match pairPosition rest key with
      | .found i => .found (i + 1)
      | .absent i => .absent (i + 1)
    | .eq => .found 0
    | .gt => .absent 0

/-- `InternalPageMut::insert` -/
def insertPair (cfg : TreeConfig K) (pageId : Nat) (pairs : List (K × Nat)) (key : K)
    (rightChild : Nat) : Except (IndexError K) (List (K × Nat)) :=
  if cfg.internalCapacity ≤ pairs.length then
    .error (.corruptPage pageId "internal insert into full page (split required before insert)")
  else
    match pairPosition pairs key with
    | .found _ => .error (cfg.duplicatePair pageId key)
    | .absent pos => .ok (pairs.insertIdx pos (key, rightChild))

/-- The halves of an internal page: the pairs that stay, the promoted key, and the
first child and the pairs of the new right page. -/
structure InternalHalves (K : Type) where
  left : List (K × Nat)
  promotedKey : K
  rightFirstChild : Nat
  right : List (K × Nat)

/-- `InternalPageMut::split_into` -/
def splitInternal (pageId : Nat) (pairs : List (K × Nat)) :
    Except (IndexError K) (InternalHalves K) :=
  match pairs.drop (pairs.length / 2) with
  | (promotedKey, rightFirstChild) :: right =>
    if pairs.length < 2 then
      .error (.corruptPage pageId s!"internal split requires >=2 pairs, have {pairs.length}")
    else .ok ⟨pairs.take (pairs.length / 2), promotedKey, rightFirstChild, right⟩
  | [] => .error (.corruptPage pageId s!"internal split requires >=2 pairs, have {pairs.length}")

/-- `apply_internal_insert`, from the open page on. -/
def insertSplit (cfg : TreeConfig K) (pageId : Nat) (incoming : SplitInfo K) :
    IndexM K (Page K E X) σ (Option (SplitInfo K)) := do
  match ← latch pageId with
  | .internal firstChild pairs =>
    if cfg.internalCapacity ≤ pairs.length then
      let newId ← alloc
      let halves ← liftExcept (splitInternal pageId pairs)
      writePage pageId (.internal firstChild halves.left)
      if incoming.promotedKey < halves.promotedKey then
        let left ← liftExcept
          (insertPair cfg pageId halves.left incoming.promotedKey incoming.newRightPage)
        writePage pageId (.internal firstChild left)
        stageEmit newId (.internal halves.rightFirstChild halves.right)
        stageEmit pageId (.internal firstChild left)
        installForTxn cfg newId (.internal halves.rightFirstChild halves.right)
      else
        let right ← liftExcept
          (insertPair cfg newId halves.right incoming.promotedKey incoming.newRightPage)
        stageEmit newId (.internal halves.rightFirstChild right)
        stageEmit pageId (.internal firstChild halves.left)
        installForTxn cfg newId (.internal halves.rightFirstChild right)
      return some ⟨halves.promotedKey, newId⟩
    else
      let pairs ← liftExcept
        (insertPair cfg pageId pairs incoming.promotedKey incoming.newRightPage)
      writePage pageId (.internal firstChild pairs)
      stageEmit pageId (.internal firstChild pairs)
      return none
  | page => throw (.corruptPage pageId
      s!"expected IndexInternal page_type, got byte {page.typeByte}")

/-! ## Leaf pages -/

/-- The halves of a leaf: the entries that stay, the promoted key and the entries of
the new right page, which start with it. -/
structure LeafHalves (K E : Type) where
  left : List E
  promotedKey : K
  right : List E

omit [LinearOrder K] in
/-- `LeafPageMut::split_into` -/
def splitLeaf (key : E → K) (pageId : Nat) (entries : List E) :
    Except (IndexError K) (LeafHalves K E) :=
  match entries.drop (entries.length / 2) with
  | e :: right =>
    if entries.length < 2 then
      .error (.corruptPage pageId s!"leaf split requires >=2 entries, have {entries.length}")
    else .ok ⟨entries.take (entries.length / 2), key e, e :: right⟩
  | [] => .error (.corruptPage pageId s!"leaf split requires >=2 entries, have {entries.length}")

/-! ## The write path -/

def isSafe (cfg : TreeConfig K) (pageId : Nat) : Page K E X → Except (IndexError K) Bool
  | .leaf entries => .ok (entries.length < cfg.leafCapacity)
  | .internal _ pairs => .ok (pairs.length < cfg.internalCapacity)
  | page => .error (.corruptPage pageId s!"unexpected child page_type {page.typeByte}")

/-- The descent of `write_deferred`: from the page `top` with the latched ancestors
`above`, innermost first, to a leaf and the ancestors that are still latched there.
A safe child releases all of them. `visit` is what the index does with a page as it
comes by. -/
def descendWrite (cfg : TreeConfig K) (visit : Nat → Page K E X → IndexM K (Page K E X) σ Unit)
    (key : K) : Nat → Nat → List Nat → IndexM K (Page K E X) σ (Nat × List Nat)
  | 0, _, _ => throw .diverges
  | fuel + 1, top, above => do
      match ← latch top with
      | .leaf _ => return (top, above)
      | .internal firstChild pairs =>
        let child := findChild firstChild pairs key
        let page ← latch child
        visit child page
        let safe ← liftExcept (isSafe cfg child page)
        descendWrite cfg visit key fuel child (if safe then [] else top :: above)
      | page => throw (.corruptPage top
          s!"unexpected page_type {page.typeByte} in write descent")

def propagate (apply : Nat → SplitInfo K → IndexM K (Page K E X) σ (Option (SplitInfo K))) :
    List Nat → Option (SplitInfo K) → IndexM K (Page K E X) σ (Option (SplitInfo K))
  | _, none => return none
  | [], some split => return some split
  | parent :: rest, some split => do
      let pending ← apply parent split
      propagate apply rest pending

/-- `grow_root`, up to the publication of the new root, which it returns. -/
def newRoot (cfg : TreeConfig K) (split : SplitInfo K) : IndexM K (Page K E X) σ Nat := do
  let oldRoot ← root
  let newRootId ← alloc
  let pairs ← liftExcept (insertPair cfg newRootId [] split.promotedKey split.newRightPage)
  modify fun s => { s with log := { s.log with rootChanges := s.log.rootChanges ++ [oldRoot] } }
  stageEmit newRootId (.internal oldRoot pairs)
  installForTxn cfg newRootId (.internal oldRoot pairs)
  modify fun s => { s with rootCache := newRootId }
  return newRootId

/-- The way back up from the leaf. A split that gets past the latched ancestors
grows the root, and `publish` is how the index announces the new root. -/
def absorb (cfg : TreeConfig K)
    (apply : Nat → SplitInfo K → IndexM K (Page K E X) σ (Option (SplitInfo K)))
    (publish : Nat → σ → σ) (path : List Nat) (leafSplit : Option (SplitInfo K)) :
    IndexM K (Page K E X) σ Unit := do
  match ← propagate apply path leafSplit with
  | some split =>
    let newRootId ← newRoot cfg split
    modify fun s => { s with extra := publish newRootId s.extra }
  | none => return ()

/-! ## The read path -/

/-- The descent of a lookup. No page is visited twice on a tree, so that the number
of allocated pages is enough fuel. -/
def descendRead (key : K) : Nat → Nat → IndexM K (Page K E X) σ (List E)
  | 0, _ => throw .diverges
  | fuel + 1, pageId => do
      match ← latch pageId with
      | .leaf entries => return entries
      | .internal firstChild pairs => descendRead key fuel (findChild firstChild pairs key)
      | page => throw (.corruptPage pageId
          s!"unexpected page_type {page.typeByte} in read descent")

end ArcGraph.Index
