import ArcGraph.Basic
import ArcGraph.Foundation.System
import Mathlib.Data.Finset.Basic

/-!
# The resident permission index

Documents with equal grant sets share a class. A document maps to its class, a class to
its grants, and neither the grants of a class nor its number ever change. A snapshot of a
principal's permissions freezes the set of classes the principal may read; whether a
document is visible through it is decided by the document's class at the time of the
question. Snapshots are cached under the generation that was current when their
resolution began, and every change of a document's class moves the generation.

The maps are functions, and a set of classes is its characteristic function. The
64-bit generation is taken not to wrap. The assertion at the last class number ends a run.
-/

namespace ArcGraph.Permissions
open Foundation Function

abbrev NodeId := UInt64

abbrev Principal := String

abbrev GrantSet := Finset Principal

abbrev AclClassId := Nat

def publicPrincipal : Principal := "__public__"

/-- The set grants the principal, by name or because it is public. -/
def Permits (p : Principal) (g : GrantSet) : Prop := p ∈ g ∨ publicPrincipal ∈ g

instance (p : Principal) (g : GrantSet) : Decidable (Permits p g) :=
  inferInstanceAs (Decidable (p ∈ g ∨ publicPrincipal ∈ g))

structure EffectivePermissions where
  principal : Principal
  generation : Nat
  allowed : AclClassId → Bool

structure PermissionIndex where
  classIntern : GrantSet → Option AclClassId := fun _ => none
  classGrants : AclClassId → Option GrantSet := fun _ => none
  docClass : NodeId → Option AclClassId := fun _ => none
  cache : Principal → Option EffectivePermissions := fun _ => none
  generation : Nat := 0
  nextClass : Nat := 0

/-- The class number that the allocator never hands out. -/
def lastClass : Nat := 2 ^ 32 - 1

variable {o : Option AclClassId} {idx : PermissionIndex} {doc : NodeId}

namespace PermissionIndex

def new : PermissionIndex := {}

def internClass (idx : PermissionIndex) (g : GrantSet) : Option (AclClassId × PermissionIndex) :=
  match idx.classIntern g with
  | some c => some (c, idx)
  | none =>
    if idx.nextClass = lastClass then none
    else
      some (idx.nextClass,
        { idx with
          classIntern := update idx.classIntern g (some idx.nextClass)
          classGrants := update idx.classGrants idx.nextClass (some g)
          nextClass := idx.nextClass + 1 })

def setClass (idx : PermissionIndex) (doc : NodeId) (c : Option AclClassId) : PermissionIndex :=
  { idx with docClass := update idx.docClass doc c }

@[simp] theorem docClass_setClass_self (idx : PermissionIndex) (doc : NodeId)
    (c : Option AclClassId) : (idx.setClass doc c).docClass doc = c := update_self ..

theorem docClass_setClass_ne (idx : PermissionIndex) {doc' : NodeId} (c : Option AclClassId)
    (h : doc' ≠ doc) : (idx.setClass doc c).docClass doc' = idx.docClass doc' :=
  update_of_ne h ..

def bump (idx : PermissionIndex) : PermissionIndex := { idx with generation := idx.generation + 1 }

/-- The part of `apply_doc_acl` after the sink. -/
def applyDocAcl (idx : PermissionIndex) (doc : NodeId) (g : GrantSet) : Option PermissionIndex :=
  (idx.internClass g).map fun (c, idx) => (idx.setClass doc (some c)).bump

/-- The part of `revoke_doc` after the sink. -/
def revokeDoc (idx : PermissionIndex) (doc : NodeId) : PermissionIndex :=
  (idx.setClass doc none).bump

/-- The cached snapshot, if it is of this generation. -/
def probe (idx : PermissionIndex) (p : Principal) (generation : Nat) :
    Option EffectivePermissions :=
  (idx.cache p).filter fun hit => hit.generation = generation

/-- The snapshot with every class whose grants permit the principal. -/
def resolve (idx : PermissionIndex) (p : Principal) (generation : Nat) : EffectivePermissions where
  principal := p
  generation := generation
  allowed c := (idx.classGrants c).any fun g => decide (Permits p g)

def insertCache (idx : PermissionIndex) (snapshot : EffectivePermissions) : PermissionIndex :=
  { idx with cache := update idx.cache snapshot.principal (some snapshot) }

def effective (idx : PermissionIndex) (p : Principal) : EffectivePermissions × PermissionIndex :=
  match idx.probe p idx.generation with
  | some hit => (hit, idx)
  | none =>
    let snapshot := idx.resolve p idx.generation
    (snapshot, idx.insertCache snapshot)

def grants (idx : PermissionIndex) (doc : NodeId) : Option GrantSet :=
  (idx.docClass doc).bind idx.classGrants

end PermissionIndex

def EffectivePermissions.isVisible (s : EffectivePermissions) (idx : PermissionIndex)
    (doc : NodeId) : Bool :=
  (idx.docClass doc).any s.allowed

/-! ## Classes -/

structure ClassTables (idx : PermissionIndex) : Prop where
  named : ∀ {g c}, idx.classIntern g = some c → idx.classGrants c = some g
  known : ∀ {c g}, idx.classGrants c = some g → c < idx.nextClass
  mapped : ∀ {doc c}, idx.docClass doc = some c → ∃ g, idx.classGrants c = some g

open PermissionIndex

namespace ClassTables
variable {idx idx' : PermissionIndex} {g g' : GrantSet} {c : AclClassId} {doc : NodeId}

theorem new : ClassTables new where
  named h := nomatch h
  known h := nomatch h
  mapped h := nomatch h

theorem eq_of_classIntern (h : ClassTables idx) (hg : idx.classIntern g = some c)
    (hg' : idx.classIntern g' = some c) : g = g' :=
  Option.some.inj ((h.named hg).symm.trans (h.named hg'))

theorem internClass_cases (h : idx.internClass g = some (c, idx')) :
    (idx.classIntern g = some c ∧ idx' = idx) ∨
      (idx.classIntern g = none ∧ c = idx.nextClass ∧ idx' = { idx with
        classIntern := update idx.classIntern g (some idx.nextClass)
        classGrants := update idx.classGrants idx.nextClass (some g)
        nextClass := idx.nextClass + 1 }) := by
  unfold internClass at h
  split at h
  · next c' hc =>
      cases h
      exact .inl ⟨hc, rfl⟩
  · next hnone =>
      split at h
      · cases h
      · cases h
        exact .inr ⟨hnone, rfl, rfl⟩

theorem internClass_same (h : idx.internClass g = some (c, idx')) :
    idx'.cache = idx.cache ∧ idx'.generation = idx.generation := by
  rcases internClass_cases h with ⟨-, rfl⟩ | ⟨-, -, rfl⟩
  · exact ⟨rfl, rfl⟩
  · exact ⟨rfl, rfl⟩

variable (h : ClassTables idx)
include h

theorem classGrants_internClass
    (hintern : idx.internClass g = some (c, idx')) {c' : AclClassId} {g' : GrantSet}
    (hc' : idx.classGrants c' = some g') : idx'.classGrants c' = some g' := by
  rcases internClass_cases hintern with ⟨-, rfl⟩ | ⟨-, -, rfl⟩
  · exact hc'
  · have hne : c' ≠ idx.nextClass := Nat.ne_of_lt (h.known hc')
    exact (update_of_ne hne ..).trans hc'

theorem internClass (hintern : idx.internClass g = some (c, idx')) :
    ClassTables idx' ∧ idx'.classIntern g = some c := by
  have hkeep := @classGrants_internClass idx idx' g c h hintern
  rcases internClass_cases hintern with ⟨hc, rfl⟩ | ⟨hnone, rfl, rfl⟩
  · exact ⟨h, hc⟩
  · refine ⟨⟨?_, ?_, ?_⟩, update_self ..⟩
    · intro g' c' hc'
      rcases of_update_eq hc' with ⟨rfl, ⟨⟩⟩ | ⟨-, hold⟩
      · exact update_self ..
      · exact hkeep (h.named hold)
    · intro c' g' hc'
      rcases of_update_eq hc' with ⟨rfl, -⟩ | ⟨-, hold⟩
      · exact Nat.lt_succ_self _
      · exact Nat.lt_succ_of_lt (h.known hold)
    · intro doc c' hc'
      obtain ⟨g', hg'⟩ := h.mapped hc'
      exact ⟨g', hkeep hg'⟩

theorem setClass (ho : ∀ c, o = some c → ∃ g, idx.classGrants c = some g) :
    ClassTables (idx.setClass doc o) where
  named hc := h.named hc
  known hc := h.known hc
  mapped := by
    intro doc' c hc
    rcases of_update_eq hc with ⟨-, heq⟩ | ⟨-, hold⟩
    · exact ho c heq
    · exact h.mapped hold

theorem grants_internClass (hintern : idx.internClass g = some (c, idx')) :
    idx'.grants doc = idx.grants doc := by
  have hdoc : idx'.docClass = idx.docClass := by
    rcases internClass_cases hintern with ⟨-, rfl⟩ | ⟨-, -, rfl⟩
    · rfl
    · rfl
  unfold grants
  rw [hdoc]
  cases hc : idx.docClass doc with
  | none => rfl
  | some c' =>
    obtain ⟨g', hg'⟩ := h.mapped hc
    show idx'.classGrants c' = idx.classGrants c'
    rw [hg', h.classGrants_internClass hintern hg']

theorem bump : ClassTables idx.bump where
  named hc := h.named hc
  known hc := h.known hc
  mapped hc := h.mapped hc

theorem insertCache (s : EffectivePermissions) : ClassTables (idx.insertCache s) where
  named hc := h.named hc
  known hc := h.known hc
  mapped hc := h.mapped hc

end ClassTables

theorem PermissionIndex.grants_setClass
    : (idx.setClass doc o).grants = update idx.grants doc (o.bind idx.classGrants) := by
  funext doc'
  by_cases heq : doc' = doc
  · subst heq
    rw [update_self, grants, docClass_setClass_self]
    rfl
  · rw [update_of_ne heq, grants, idx.docClass_setClass_ne o heq]
    rfl

theorem PermissionIndex.cache_insertCache {p : Principal}
    {s s' : EffectivePermissions} (h : (idx.insertCache s).cache p = some s') :
    (p = s.principal ∧ s' = s) ∨ idx.cache p = some s' := by
  by_cases heq : p = s.principal
  · subst heq
    cases (update_self ..).symm.trans h
    exact .inl ⟨rfl, rfl⟩
  · exact .inr ((update_of_ne heq ..).symm.trans h)

end ArcGraph.Permissions
