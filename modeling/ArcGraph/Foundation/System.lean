import Mathlib.Logic.Function.Basic

/-!
# Transition systems with a partial step function

A system is an initial state and a step function on labelled actions; `none`
says the action is not enabled. Runs carry a side condition on every step they
take, so that one step function serves both the unrestricted system and the
system under a discipline its callers promise.
-/

namespace ArcGraph.Foundation

universe u v

/-- A value found after one index was updated is the new one there or an old one elsewhere. -/
theorem of_update_eq {ι : Type u} {β : Type v} [DecidableEq ι] {f : ι → β} {i j : ι} {b b' : β}
    (h : Function.update f i b j = b') : j = i ∧ b = b' ∨ j ≠ i ∧ f j = b' := by
  rcases eq_or_ne j i with rfl | hne
  · exact .inl ⟨rfl, (Function.update_self ..).symm.trans h⟩
  · exact .inr ⟨hne, (Function.update_of_ne hne ..).symm.trans h⟩

structure System (σ : Type u) (α : Type v) where
  init : σ
  step : σ → α → Option σ

namespace System
variable {σ : Type u} {α : Type v} {S : System σ α} {ok : σ → α → Prop}

/-- The states reached by runs each of whose steps meets `ok`. -/
inductive Reach (S : System σ α) (ok : σ → α → Prop) : σ → Prop
  | init : Reach S ok S.init
  | step {s s' : σ} {a : α} : Reach S ok s → ok s a → S.step s a = some s' → Reach S ok s'

/-- A predicate that holds initially and is kept by every admitted step holds in
every reached state. -/
theorem Reach.invariant {P : σ → Prop} (hinit : P S.init)
    (hstep : ∀ s a s', P s → ok s a → S.step s a = some s' → P s') {s : σ}
    (h : Reach S ok s) : P s := by
  induction h with
  | init => exact hinit
  | step _ hok hs ih => exact hstep _ _ _ ih hok hs

/-- A run under one condition is one under another that follows where `P` holds. -/
theorem Reach.strengthen {ok' : σ → α → Prop} {P : σ → Prop} (hinit : P S.init)
    (hstep : ∀ s a s', P s → ok s a → S.step s a = some s' → ok' s a ∧ P s') {s : σ}
    (h : Reach S ok s) : Reach S ok' s ∧ P s := by
  induction h with
  | init => exact ⟨.init, hinit⟩
  | step _ hok hs ih =>
    obtain ⟨hok', hP⟩ := hstep _ _ _ ih.2 hok hs
    exact ⟨.step ih.1 hok' hs, hP⟩

/-- Run a list of actions, checking the side condition before each. -/
def runIf (S : System σ α) (ok : σ → α → Prop) [∀ s a, Decidable (ok s a)] (s : σ) :
    List α → Option σ
  | [] => some s
  | a :: rest => if ok s a then (S.step s a).bind fun s' => runIf S ok s' rest else none

theorem Reach.of_runIf [∀ s a, Decidable (ok s a)] {acts : List α} {s s' : σ}
    (hs : Reach S ok s) (h : S.runIf ok s acts = some s') : Reach S ok s' := by
  induction acts generalizing s with
  | nil =>
    cases h
    exact hs
  | cons a rest ih =>
    simp only [runIf] at h
    split at h
    · rename_i hok
      obtain ⟨s1, hs1, hrest⟩ := Option.bind_eq_some_iff.mp h
      exact ih (.step hs hok hs1) hrest
    · cases h

/-- The state after a list of actions from the initial state. -/
def after (S : System σ α) (ok : σ → α → Prop) [∀ s a, Decidable (ok s a)] (acts : List α) : σ :=
  (S.runIf ok S.init acts).getD S.init

theorem Reach.after [∀ s a, Decidable (ok s a)] {acts : List α}
    (h : (S.runIf ok S.init acts).isSome = true) : Reach S ok (S.after ok acts) := by
  obtain ⟨s, hs⟩ := Option.isSome_iff_exists.mp h
  rw [System.after, hs]
  exact .of_runIf .init hs

/-- The state an action leads to, `s` itself where it is not enabled. -/
def next (S : System σ α) (s : σ) (a : α) : σ := (S.step s a).getD s

theorem step_next {s : σ} {a : α} (h : (S.step s a).isSome = true) :
    S.step s a = some (S.next s a) := by
  obtain ⟨s', hs⟩ := Option.isSome_iff_exists.mp h
  simp [next, hs]

end System
end ArcGraph.Foundation
