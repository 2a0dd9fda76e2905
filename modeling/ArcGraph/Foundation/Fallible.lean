import Mathlib.Data.List.Nodup
import Mathlib.Data.List.Pairwise

/-!
# Computations that may fail

How a successful run of an `Except` computation comes apart: one rule for each
combinator the decoders and page operations are written with.
-/

namespace ArcGraph.Foundation
open List Except
variable {ε ε' α β : Type}

variable {x : Except ε α} {a : α} {c : Prop} {e : ε} {values : α → List β} {l : List α}

theorem bind_eq_ok {f : α → Except ε β} {b : β} :
    x >>= f = .ok b ↔ ∃ a, x = .ok a ∧ f a = .ok b := by
  constructor
  · intro h
    cases x with
    | error => cases h
    | ok a => exact ⟨a, rfl, h⟩
  · rintro ⟨a, rfl, h⟩
    exact h

theorem pure_eq_ok {b : α} : (pure a : Except ε α) = .ok b ↔ a = b :=
  ⟨fun h => ok.inj h, fun h => congrArg _ h⟩

theorem mapError_eq_ok {f : ε → ε'} : x.mapError f = .ok a ↔ x = .ok a := by
  constructor
  · intro h
    cases x with
    | error => cases h
    | ok =>
      cases h
      rfl
  · rintro rfl
    rfl

/-- A check in front of a computation. -/
theorem ite_throw_eq_ok [Decidable c] : (if c then throw e else x) = .ok a ↔ ¬ c ∧ x = .ok a := by
  constructor
  · intro h
    split at h
    · cases h
    · exact ⟨‹_›, h⟩
  · rintro ⟨hc, h⟩
    rwa [if_neg hc]

/-- A check in a `do` block. -/
theorem ite_throw_bind_eq_ok [Decidable c] {f : β → Except ε α} :
    (if c then throw e >>= f else x) = .ok a ↔ ¬ c ∧ x = .ok a :=
  ite_throw_eq_ok

theorem toOption_eq_some : x.toOption = some a ↔ x = .ok a := by
  cases x with
  | error =>
    constructor
    · intro h
      cases h
    · intro h
      cases h
  | ok => exact ⟨fun h => congrArg _ (Option.some.inj h), fun h => congrArg _ (ok.inj h)⟩

/-- Two computations that can only give one value. -/
theorem toOption_eq_toOption_iff {y : Except ε' α} {p q : Prop} (hx : ∀ b, x = .ok b ↔ p ∧ b = a)
    (hy : ∀ b, y = .ok b ↔ q ∧ b = a) : x.toOption = y.toOption ↔ (p ↔ q) := by
  rw [Option.ext_iff]
  simp only [toOption_eq_some, hx, hy]
  exact ⟨fun h => by simpa using h a, fun h b => by rw [h]⟩

/-- The value of a computation that is known to succeed. -/
theorem eq_ok_getD (d : α) (h : x.isOk = true) : x = .ok (x.toOption.getD d) := by
  cases x with
  | error => cases h
  | ok => rfl

/-- A loop that collects distinct values and stops at the first bad element. -/
theorem foldlM_collect {f : List β → α → Except ε (List β)} {good : α → Prop}
    (hf : ∀ acc a r, acc.Nodup → (f acc a = .ok r ↔ good a ∧ (values a ++ acc).Nodup ∧
      r = values a ++ acc)) {acc r : List β} (hacc : acc.Nodup) :
    l.foldlM f acc = .ok r ↔ (∀ a ∈ l, good a) ∧ (l.reverse.flatMap values ++ acc).Nodup ∧
      r = l.reverse.flatMap values ++ acc := by
  induction l generalizing acc with
  | nil =>
    show ok acc = .ok r ↔ _
    simp only [not_mem_nil, false_implies, implies_true, reverse_nil, flatMap_nil,
      nil_append, hacc, true_and, ok.injEq]
    exact eq_comm
  | cons a l ih =>
    have happ : (a :: l).reverse.flatMap values ++ acc =
        l.reverse.flatMap values ++ (values a ++ acc) := by
      simp [flatMap_append]
    rw [foldlM_cons, bind_eq_ok, happ]
    constructor
    · rintro ⟨m, hm, h⟩
      obtain ⟨hgood, hnodup, rfl⟩ := (hf acc a m hacc).mp hm
      obtain ⟨hall, hrest, rfl⟩ := (ih hnodup).mp h
      exact ⟨forall_mem_cons.mpr ⟨hgood, hall⟩, hrest, rfl⟩
    · rintro ⟨hall, hnodup, hr⟩
      have hvalues : (values a ++ acc).Nodup := hnodup.of_append_right
      refine ⟨values a ++ acc, (hf acc a _ hacc).mpr ⟨hall a mem_cons_self, hvalues, rfl⟩, ?_⟩
      exact (ih hvalues).mpr ⟨fun b hb => hall b (mem_cons_of_mem a hb), hnodup, hr⟩

/-- What a loop collects from distinct elements is distinct if no element repeats a value and no
two elements share one. -/
theorem nodup_flatMap_iff (hl : l.Nodup) : (l.flatMap values).Nodup ↔ (∀ a ∈ l, (values a).Nodup) ∧
      ∀ a ∈ l, ∀ b ∈ l, ∀ x ∈ values a, x ∈ values b → a = b := by
  rw [nodup_flatMap]
  refine and_congr_right fun _ => ?_
  constructor
  · intro h a ha b hb x hxa hxb
    by_contra hne
    have : Std.Symm (Function.onFun Disjoint values) :=
      ⟨fun _ _ hd _ hx hx' => hd hx' hx⟩
    exact h.forall ha hb hne hxa hxb
  · intro h
    refine hl.pairwise_of_forall_ne fun a ha b hb hne x hxa hxb => ?_
    exact hne (h a ha b hb x hxa hxb)

end ArcGraph.Foundation
