import ArcGraph.Foundation.Fallible

/-!
# Replaying a log

A log is run through a step function that may fail. The step function absorbs when an
operation that went through does nothing to any later state. Then running a whole log
from the state after a prefix of it ends where running it once ends
(`Absorbs.foldlM_of_initial`).

A keyed store runs every operation on the state of the operation's key. There the states
of different keys may come from different prefixes (`Absorbs.stepAt_of_prefixes`).
-/

namespace ArcGraph.Foundation
open List Function Except
variable {σ α ε κ : Type}

/-- What went through once changes nothing, and stays so. -/
structure Absorbs (f : σ → α → Except ε σ) : Prop where
  step : ∀ {s s' : σ} {a : α}, f s a = .ok s' → f s' a = .ok s'
  keep : ∀ {s s' : σ} {a b : α}, f s a = .ok s → f s b = .ok s' → f s' a = .ok s'

section
variable {f : σ → α → Except ε σ} {l l' : List α} {s m s' : σ} {a : α}

theorem foldlM_cons_ok : (a :: l).foldlM f s = .ok s' ↔
    ∃ m, f s a = .ok m ∧ l.foldlM f m = .ok s' := by
  rw [foldlM_cons]
  exact bind_eq_ok

theorem foldlM_append_ok : (l ++ l').foldlM f s = .ok s' ↔
    ∃ m, l.foldlM f s = .ok m ∧ l'.foldlM f m = .ok s' := by
  rw [foldlM_append]
  exact bind_eq_ok

theorem Absorbs.keep_foldlM (hf : Absorbs f) (ha : f s a = .ok s) (h : l.foldlM f s = .ok s') :
    f s' a = .ok s' := by
  induction l generalizing s with
  | nil =>
    cases h
    exact ha
  | cons b l ih =>
    obtain ⟨m, hm, h⟩ := foldlM_cons_ok.mp h
    exact ih (hf.keep ha hm) h

theorem Absorbs.absorbed (hf : Absorbs f) (h : l.foldlM f s = .ok s') (ha : a ∈ l) :
    f s' a = .ok s' := by
  induction l generalizing s with
  | nil => cases ha
  | cons b l ih =>
    obtain ⟨m, hm, hrest⟩ := foldlM_cons_ok.mp h
    rcases mem_cons.mp ha with rfl | ha
    · exact hf.keep_foldlM (hf.step hm) hrest
    · exact ih hrest ha

theorem foldlM_fixed (h : ∀ a ∈ l, f s a = .ok s) : l.foldlM f s = .ok s := by
  induction l with
  | nil => rfl
  | cons a l ih =>
    exact foldlM_cons_ok.mpr ⟨s, h a mem_cons_self, ih fun b hb =>
      h b (mem_cons_of_mem _ hb)⟩

/-- Running the whole log from the state after a prefix. -/
theorem Absorbs.foldlM_of_initial (hf : Absorbs f) (hl : l.foldlM f s = .ok m)
    (hl' : l'.foldlM f m = .ok s') : (l ++ l').foldlM f m = .ok s' :=
  foldlM_append_ok.mpr ⟨m, foldlM_fixed fun _ ha => hf.absorbed hl ha, hl'⟩

end

variable [DecidableEq κ] (key : α → κ) (f : σ → α → Except ε σ)

/-- One operation of a keyed store. -/
def stepAt (st : κ → σ) (a : α) : Except ε (κ → σ) := do
  let s ← f (st (key a)) a
  return update st (key a) s

variable {key f} {st st' mid : κ → σ} {l : List α} {a : α}

theorem stepAt_ok : stepAt key f st a = .ok st' ↔
    ∃ s, f (st (key a)) a = .ok s ∧ st' = update st (key a) s := by
  unfold stepAt
  rw [bind_eq_ok]
  exact exists_congr fun s => and_congr_right fun _ => pure_eq_ok.trans eq_comm

/-- A run of the store is a run of every key on the operations with that key. -/
theorem foldlM_stepAt_ok : l.foldlM (stepAt key f) st = .ok st' ↔
    ∀ k, (l.filter (key · = k)).foldlM f (st k) = .ok (st' k) := by
  induction l generalizing st with
  | nil =>
    change ok st = .ok st' ↔ ∀ k, ok (st k) = .ok (st' k)
    simp only [ok.injEq]
    exact funext_iff
  | cons a l ih =>
    rw [foldlM_cons_ok]
    constructor
    · rintro ⟨m, hm, h⟩ k
      obtain ⟨s, hs, rfl⟩ := stepAt_ok.mp hm
      have hk := ih.mp h k
      by_cases hka : key a = k
      · subst hka
        rw [update_self] at hk
        rw [filter_cons_of_pos (by simp)]
        exact foldlM_cons_ok.mpr ⟨s, hs, hk⟩
      · rw [update_of_ne (Ne.symm hka)] at hk
        rwa [filter_cons_of_neg (by simp [hka])]
    · intro h
      have ha := h (key a)
      rw [filter_cons_of_pos (by simp)] at ha
      obtain ⟨s, hs, ha⟩ := foldlM_cons_ok.mp ha
      refine ⟨update st (key a) s, stepAt_ok.mpr ⟨s, hs, rfl⟩, ih.mpr fun k => ?_⟩
      by_cases hka : key a = k
      · subst hka
        rwa [update_self]
      · have hk := h k
        rw [filter_cons_of_neg (by simp [hka])] at hk
        rwa [update_of_ne (Ne.symm hka)]

/-- Every key may start from a prefix of its own. -/
theorem Absorbs.stepAt_of_prefixes (hf : Absorbs f) (h : l.foldlM (stepAt key f) st = .ok st')
    (hmid : ∀ k, ∃ n m, (l.take n).foldlM (stepAt key f) st = .ok m ∧ mid k = m k) :
    l.foldlM (stepAt key f) mid = .ok st' := by
  rw [foldlM_stepAt_ok] at h ⊢
  intro k
  obtain ⟨n, m, hm, hk⟩ := hmid k
  have hwhole := h k
  have hbefore := foldlM_stepAt_ok.mp hm k
  rw [← hk] at hbefore
  rw [← take_append_drop n l, filter_append] at hwhole ⊢
  obtain ⟨m', hm', hrest⟩ := foldlM_append_ok.mp hwhole
  cases hbefore.symm.trans hm'
  exact hf.foldlM_of_initial hbefore hrest

end ArcGraph.Foundation
