import ArcGraph.Basic

/-!
# The idempotency store

The unbounded store of `external_id → internal_id` bindings: a forward map and a
reverse map, each a concurrent hash map in the source and a partial function here.
An install that moves a name to another id takes the reverse entry of the old id
away; a release takes both entries.

As long as no internal id goes by two names, the reverse map is determined by the
forward map. `Consistent` says so, and both operations keep it.
-/

namespace ArcGraph.Idempotency
open Function

structure BindingKey where
  tenant : TenantId
  kind : UInt8
  externalId : String
deriving DecidableEq

structure IdKey where
  tenant : TenantId
  kind : UInt8
  internalId : UInt64
deriving DecidableEq

namespace BindingKey

def idKey (k : BindingKey) (id : UInt64) : IdKey := ⟨k.tenant, k.kind, id⟩

end BindingKey

namespace IdKey

def named (i : IdKey) (externalId : String) : BindingKey := ⟨i.tenant, i.kind, externalId⟩

end IdKey

structure IdempotencyBinding where
  internalId : UInt64
  payloadHash : Option UInt64
deriving DecidableEq

@[ext] structure IdempotencyStore where
  forward : BindingKey → Option IdempotencyBinding
  reverse : IdKey → Option String

namespace IdempotencyStore

def new : IdempotencyStore where
  forward _ := none
  reverse _ := none

variable (s : IdempotencyStore)

def get (k : BindingKey) : Option IdempotencyBinding := s.forward k

def reverseWithout (k : BindingKey) (id : UInt64) : IdKey → Option String :=
  match s.forward k with
  | some old =>
    if old.internalId ≠ id then update s.reverse (k.idKey old.internalId) none
    else s.reverse
  | none => s.reverse

def installWithPayloadHash (k : BindingKey) (id : UInt64)
    (payloadHash : Option UInt64) : IdempotencyStore where
  forward := update s.forward k (some ⟨id, payloadHash⟩)
  reverse := update (s.reverseWithout k id) (k.idKey id) (some k.externalId)

def install (k : BindingKey) (id : UInt64) : IdempotencyStore :=
  s.installWithPayloadHash k id none

def release (k : BindingKey) : IdempotencyStore :=
  match s.forward k with
  | some old =>
    { forward := update s.forward k none
      reverse := update s.reverse (k.idKey old.internalId) none }
  | none => s

/-! ## Lookups -/

@[simp] theorem get_installWithPayloadHash (k k' : BindingKey) (id : UInt64)
    (payloadHash : Option UInt64) :
    (s.installWithPayloadHash k id payloadHash).get k' =
      if k' = k then some ⟨id, payloadHash⟩ else s.get k' := by
  by_cases hk : k' = k
  · subst hk
    simp [get, installWithPayloadHash]
  · simp [get, installWithPayloadHash, hk]

@[simp] theorem get_release (k k' : BindingKey) :
    (s.release k).get k' = if k' = k then none else s.get k' := by
  unfold get release
  cases hold : s.forward k with
  | none =>
    by_cases hk : k' = k
    · rw [if_pos hk, hk]
      exact hold
    · rw [if_neg hk]
  | some old =>
    by_cases hk : k' = k
    · subst hk
      simp
    · simp [hk]

/-! ## Consistency -/

/-- The reverse map is the inverse of the forward map. -/
def Consistent : Prop :=
  ∀ i x, s.reverse i = some x ↔ ∃ b, s.forward (i.named x) = some b ∧ b.internalId = i.internalId

theorem consistent_new : new.Consistent := by
  intro i x
  simp [new]

def Unused (k : BindingKey) (id : UInt64) : Prop :=
  ∀ x b, x ≠ k.externalId → s.forward ((k.idKey id).named x) = some b → b.internalId ≠ id

namespace Consistent
variable {s s' : IdempotencyStore}

theorem ext (h : s.Consistent) (h' : s'.Consistent) (hforward : ∀ k, s.get k = s'.get k) :
    s = s' := by
  have hmaps : s.forward = s'.forward := funext hforward
  refine IdempotencyStore.ext hmaps (funext fun i => Option.ext fun x => ?_)
  rw [h i x, h' i x, hmaps]

theorem injective (h : s.Consistent) {i : IdKey} {x y : String} {b c : IdempotencyBinding}
    (hx : s.forward (i.named x) = some b) (hb : b.internalId = i.internalId)
    (hy : s.forward (i.named y) = some c) (hc : c.internalId = i.internalId) : x = y := by
  have hrevx : s.reverse i = some x := (h i x).mpr ⟨b, hx, hb⟩
  have hrevy : s.reverse i = some y := (h i y).mpr ⟨c, hy, hc⟩
  exact Option.some.inj (hrevx.symm.trans hrevy)

end Consistent

variable {s : IdempotencyStore}

theorem reverseWithout_eq_some (h : s.Consistent) (k : BindingKey)
    (id : UInt64) (i : IdKey) (x : String) :
    s.reverseWithout k id i = some x ↔ ∃ b, s.forward (i.named x) = some b ∧
      b.internalId = i.internalId ∧ (i.named x = k → b.internalId = id) := by
  unfold reverseWithout
  cases hold : s.forward k with
  | none =>
    rw [h i x]
    constructor
    · rintro ⟨b, hb, hid⟩
      refine ⟨b, hb, hid, fun hk => ?_⟩
      rw [hk, hold] at hb
      cases hb
    · rintro ⟨b, hb, hid, -⟩
      exact ⟨b, hb, hid⟩
  | some old =>
    have hkeep : s.reverse i = some x ↔ ∃ b, s.forward (i.named x) = some b ∧
        b.internalId = i.internalId := h i x
    dsimp only
    by_cases hmove : old.internalId = id
    · rw [if_neg (not_not.mpr hmove), hkeep]
      constructor
      · rintro ⟨b, hb, hid⟩
        refine ⟨b, hb, hid, fun hk => ?_⟩
        rw [hk, hold] at hb
        cases hb
        exact hmove
      · rintro ⟨b, hb, hid, -⟩
        exact ⟨b, hb, hid⟩
    · rw [if_pos hmove]
      by_cases hi : i = k.idKey old.internalId
      · -- the only name of the old id is `k` itself
        subst hi
        rw [update_self]
        refine iff_of_false (by simp) ?_
        rintro ⟨b, hb, hid, hk⟩
        have hname : x = k.externalId := h.injective hb hid (c := old) hold rfl
        subst hname
        exact hmove (hid.symm.trans (hk rfl))
      · rw [update_of_ne hi, hkeep]
        constructor
        · rintro ⟨b, hb, hid⟩
          refine ⟨b, hb, hid, fun hk => absurd ?_ hi⟩
          rw [hk, hold] at hb
          cases hb
          rw [hid, ← hk]
          rfl
        · rintro ⟨b, hb, hid, -⟩
          exact ⟨b, hb, hid⟩

theorem consistent_installWithPayloadHash (h : s.Consistent)
    {k : BindingKey} {id : UInt64} (hunused : s.Unused k id) (payloadHash : Option UInt64) :
    (s.installWithPayloadHash k id payloadHash).Consistent := by
  intro i x
  simp only [installWithPayloadHash]
  by_cases hi : i = k.idKey id
  · subst hi
    rw [update_self]
    by_cases hx : x = k.externalId
    · subst hx
      refine iff_of_true rfl ⟨⟨id, payloadHash⟩, ?_, rfl⟩
      exact update_self ..
    · have hk : (k.idKey id).named x ≠ k := fun hk => hx (congrArg BindingKey.externalId hk)
      refine iff_of_false (by simpa using Ne.symm hx) ?_
      rintro ⟨b, hb, hid⟩
      rw [update_of_ne hk] at hb
      exact hunused x b hx hb hid
  · rw [update_of_ne hi, reverseWithout_eq_some h]
    by_cases hk : i.named x = k
    · have hother : id ≠ i.internalId := by
        rintro rfl
        exact hi (by rw [← hk]; rfl)
      rw [hk, update_self]
      refine iff_of_false ?_ ?_
      · rintro ⟨b, -, hid, hb⟩
        exact hother ((hb rfl).symm.trans hid)
      · rintro ⟨b, hb, hid⟩
        cases hb
        exact hother hid
    · rw [update_of_ne hk]
      constructor
      · rintro ⟨b, hb, hid, -⟩
        exact ⟨b, hb, hid⟩
      · rintro ⟨b, hb, hid⟩
        exact ⟨b, hb, hid, fun hk' => absurd hk' hk⟩

theorem consistent_release (h : s.Consistent) (k : BindingKey) : (s.release k).Consistent := by
  unfold release
  cases hold : s.forward k with
  | none => exact h
  | some old =>
    intro i x
    simp only
    by_cases hk : i.named x = k
    · rw [hk, update_self]
      refine iff_of_false ?_ (by simp)
      by_cases hi : i = k.idKey old.internalId
      · rw [hi, update_self]
        simp
      · rw [update_of_ne hi, h i x, hk, hold]
        rintro ⟨b, hb, hid⟩
        cases hb
        exact hi (by rw [hid, ← hk]; rfl)
    · rw [update_of_ne hk]
      by_cases hi : i = k.idKey old.internalId
      · subst hi
        rw [update_self]
        refine iff_of_false (by simp) ?_
        rintro ⟨b, hb, hid⟩
        have hname : x = k.externalId := h.injective hb hid (c := old) hold rfl
        subst hname
        exact hk rfl
      · rw [update_of_ne hi, h i x]

end IdempotencyStore
end ArcGraph.Idempotency
