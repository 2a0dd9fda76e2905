import ArcGraph.Foundation.BinarySearch

/-!
# Chains of children between separators

A search tree node has children `c₀, c₁, …` and separators `k₁ < k₂ < …` between
them. `Chain P` says that the children satisfy `P`, each within the two separators
next to it, and collects what they hold: their entries in order, and the names of
the parts they are made of. `P` is the predicate of one child, so that the same
chain serves every level of a tree.

The rules are those a tree needs: a chain can be cut at a separator and joined
again (`chain_append`), and a key leads to one child, which can be replaced by
another, or by two with a new separator between them, while the rest of the chain
stays (`Chain.focus`).
-/

namespace ArcGraph.Foundation
open List

section
variable {κ : Type} [LinearOrder κ] {lo hi : Option κ} {k sep : κ}

/-- At or above the lower bound and below the upper one. -/
def InBounds (lo hi : Option κ) (k : κ) : Prop := (∀ l ∈ lo, l ≤ k) ∧ ∀ h ∈ hi, k < h

/-- A separator: strictly between the bounds. -/
def Separates (lo hi : Option κ) (k : κ) : Prop := (∀ l ∈ lo, l < k) ∧ ∀ h ∈ hi, k < h

theorem inBounds_none (k : κ) : InBounds none none k := ⟨by simp, by simp⟩

theorem InBounds.left (h : InBounds lo (some sep) k) (hsep : Separates lo hi sep) :
    InBounds lo hi k :=
  ⟨h.1, fun x hx => (h.2 sep rfl).trans (hsep.2 x hx)⟩

theorem InBounds.right (h : InBounds (some sep) hi k) (hsep : Separates lo hi sep) :
    InBounds lo hi k :=
  ⟨fun x hx => (hsep.1 x hx).le.trans (h.1 sep rfl), h.2⟩

theorem Separates.left (h : Separates lo (some sep) k) (hsep : Separates lo hi sep) :
    Separates lo hi k :=
  ⟨h.1, fun x hx => (h.2 sep rfl).trans (hsep.2 x hx)⟩

theorem Separates.right (h : Separates (some sep) hi k) (hsep : Separates lo hi sep) :
    Separates lo hi k :=
  ⟨fun x hx => (hsep.1 x hx).trans (h.1 sep rfl), h.2⟩

end

variable {κ γ α ι : Type} [LinearOrder κ]

/-- The predicate of one child: its bounds, its name, its entries and its parts. -/
abbrev ChildPred (κ γ α ι : Type) := Option κ → Option κ → γ → List α → List ι → Prop

/-- The children `first` and those of the pairs, between `lo` and `hi`. -/
inductive Chain (P : ChildPred κ γ α ι) :
    Option κ → Option κ → γ → List (κ × γ) → List α → List ι → Prop
  | last {lo hi : Option κ} {c : γ} {es : List α} {ids : List ι} :
      P lo hi c es ids → Chain P lo hi c [] es ids
  | cons {lo hi : Option κ} {c c' : γ} {k : κ} {rest : List (κ × γ)} {es₁ es₂ : List α}
      {ids₁ ids₂ : List ι} : Separates lo hi k → P lo (some k) c es₁ ids₁ →
      Chain P (some k) hi c' rest es₂ ids₂ →
      Chain P lo hi c ((k, c') :: rest) (es₁ ++ es₂) (ids₁ ++ ids₂)

section
variable {P P' : ChildPred κ γ α ι} {lo hi : Option κ} {c c' : γ} {k : κ}
  {pairs left right : List (κ × γ)} {es : List α} {ids : List ι}

theorem Chain.separates (h : Chain P lo hi c pairs es ids) : ∀ p ∈ pairs, Separates lo hi p.1 := by
  induction h with
  | last => simp
  | cons hk _ _ ih =>
    refine forall_mem_cons.mpr ⟨hk, fun p hp => ?_⟩
    exact (ih p hp).right hk

theorem Chain.ascending (h : Chain P lo hi c pairs es ids) : AscendingBy Prod.fst pairs := by
  induction h with
  | last => exact Pairwise.nil
  | cons _ _ hrest ih =>
    exact ascendingBy_cons.mpr ⟨fun p hp => (hrest.separates p hp).1 _ rfl, ih⟩

/-- A chain is cut at any of its separators. -/
theorem chain_append : Chain P lo hi c (left ++ (k, c') :: right) es ids ↔
    ∃ es1 es2 ids1 ids2, Separates lo hi k ∧ Chain P lo (some k) c left es1 ids1 ∧
      Chain P (some k) hi c' right es2 ids2 ∧ es = es1 ++ es2 ∧ ids = ids1 ++ ids2 := by
  induction left generalizing lo c es ids with
  | nil =>
    constructor
    · intro h
      cases h with
      | cons hk hc hrest => exact ⟨_, _, _, _, hk, .last hc, hrest, rfl, rfl⟩
    · rintro ⟨es1, es2, ids1, ids2, hk, hleft, hright, rfl, rfl⟩
      cases hleft with
      | last hc => exact .cons hk hc hright
  | cons p _ ih =>
    obtain ⟨k0, _⟩ := p
    constructor
    · intro h
      cases h with
      | cons hk0 hc hrest =>
        obtain ⟨es1, es2, ids1, ids2, hk, hleft, hright, rfl, rfl⟩ := ih.mp hrest
        have hk0' : Separates lo (some k) k0 := ⟨hk0.1, fun x hx => by
          cases hx
          exact hk.1 k0 rfl⟩
        exact ⟨_, es2, _, ids2, hk.right hk0, .cons hk0' hc hleft, hright,
          (append_assoc ..).symm, (append_assoc ..).symm⟩
    · rintro ⟨es1, es2, ids1, ids2, hk, hleft, hright, rfl, rfl⟩
      cases hleft with
      | cons hk0 hc hrest =>
        rw [append_assoc, append_assoc]
        refine .cons (hk0.left hk) hc (ih.mpr ⟨_, _, _, _, ?_, hrest, hright, rfl, rfl⟩)
        exact ⟨fun x hx => by cases hx; exact hk0.2 k rfl, hk.2⟩

section
variable (h : Chain P lo hi c pairs es ids)
include h

theorem Chain.mono
    (hP : ∀ {lo hi c es ids'}, P lo hi c es ids' → (∀ i ∈ ids', i ∈ ids) → P' lo hi c es ids') :
    Chain P' lo hi c pairs es ids := by
  induction h with
  | last hc => exact .last (hP hc fun _ hi => hi)
  | cons hk hc _ ih =>
    exact .cons hk (hP hc fun i hi => mem_append_left _ hi)
      (ih fun hc' hsub => hP hc' fun i hi => mem_append_right _ (hsub i hi))

theorem Chain.forall_ids {Q : ι → Prop}
    (hQ : ∀ {lo hi c es ids}, P lo hi c es ids → ∀ i ∈ ids, Q i) : ∀ i ∈ ids, Q i := by
  induction h with
  | last hc => exact hQ hc
  | cons _ hc _ ih => exact forall_mem_append.mpr ⟨hQ hc, ih⟩

/-- The entries of a chain are sorted and within its bounds if those of each child
are. -/
theorem Chain.entries {key : α → κ} (hP : ∀ {lo hi c es ids}, P lo hi c es ids →
      AscendingBy key es ∧ ∀ e ∈ es, InBounds lo hi (key e)) :
    AscendingBy key es ∧ ∀ e ∈ es, InBounds lo hi (key e) := by
  induction h with
  | last hc => exact hP hc
  | cons hk hc _ ih =>
    obtain ⟨hasc, hin⟩ := hP hc
    refine ⟨ascendingBy_append.mpr ⟨hasc, ih.1, fun x hx y hy => ?_⟩, ?_⟩
    · exact ((hin x hx).2 _ rfl).trans_le ((ih.2 y hy).1 _ rfl)
    · refine forall_mem_append.mpr ⟨fun e he => ?_, fun e he => ?_⟩
      · exact (hin e he).left hk
      · exact (ih.2 e he).right hk

end

/-- What holds of the entries of every child at or above a bound holds of the
entries of a chain that starts there. -/
theorem Chain.forall_above {Q : α → Prop} {low : κ} (h : Chain P (some low) hi c pairs es ids)
    (hQ : ∀ {x hi c es ids}, low ≤ x → P (some x) hi c es ids → ∀ e ∈ es, Q e) : ∀ e ∈ es, Q e := by
  generalize hlo : some low = lo at h
  induction h generalizing low with subst hlo
  | last hc =>
    exact hQ le_rfl hc
  | cons hk hc _ ih =>
    refine forall_mem_append.mpr ⟨hQ le_rfl hc, ?_⟩
    exact ih (fun hx => hQ ((hk.1 low rfl).le.trans hx)) rfl

end

/-! ## The child of a key -/

/-- The child behind the pairs. -/
def childBehind (first : γ) : List (κ × γ) → γ
  | [] => first
  | (_, c) :: rest => childBehind c rest

omit [LinearOrder κ] in
@[simp] theorem childBehind_nil (first : γ) : childBehind first ([] : List (κ × γ)) = first := rfl

omit [LinearOrder κ] in
theorem childBehind_append (first c : γ) (k : κ) (pairs : List (κ × γ)) :
    childBehind first (pairs ++ [(k, c)]) = c := by
  induction pairs generalizing first with
  | nil => rfl
  | cons p _ ih => exact ih p.2

/-- One child of a chain, with what is before and behind it. -/
structure ChainFocus (κ γ α ι : Type) where
  left : List (κ × γ)
  right : List (κ × γ)
  lo : Option κ
  hi : Option κ
  before : List α
  entries : List α
  after : List α
  idsBefore : List ι
  ids : List ι
  idsAfter : List ι

/-- The focus is on the child of a key, and the child can be exchanged. Behind the
exchange the other children may satisfy another predicate, as long as it follows
for children made of other parts. -/
structure ChainFocus.At (f : ChainFocus κ γ α ι) (P : ChildPred κ γ α ι) (lo hi : Option κ)
    (first : γ) (pairs : List (κ × γ)) (es : List α) (ids : List ι) (key : κ) : Prop where
  pairs_eq : pairs = f.left ++ f.right
  left_le : ∀ {x}, InBounds f.lo f.hi x → ∀ p ∈ f.left, p.1 ≤ x
  lt_right : ∀ {x}, InBounds f.lo f.hi x → ∀ p ∈ f.right, x < p.1
  entries_eq : es = f.before ++ f.entries ++ f.after
  ids_eq : ids = f.idsBefore ++ f.ids ++ f.idsAfter
  inBounds : InBounds f.lo f.hi key
  within : ∀ {x}, InBounds f.lo f.hi x → InBounds lo hi x
  lo_le : ∀ l ∈ lo, ∃ m ∈ f.lo, l ≤ m
  child : P f.lo f.hi (childBehind first f.left) f.entries f.ids
  before_below : ∀ {Q : α → Prop}, (∀ {x lo c es ids}, x ≤ key → P lo (some x) c es ids →
    ∀ e ∈ es, Q e) → ∀ e ∈ f.before, Q e
  after_above : ∀ {Q : α → Prop}, (∀ {x hi c es ids}, key < x → P (some x) hi c es ids →
    ∀ e ∈ es, Q e) → ∀ e ∈ f.after, Q e
  left_lt : ∀ {sep}, Separates f.lo f.hi sep → ∀ p ∈ f.left, p.1 < sep
  sep_lt : ∀ {sep}, Separates f.lo f.hi sep → ∀ p ∈ f.right, sep < p.1
  refill : ∀ {P' : ChildPred κ γ α ι},
    (∀ {lo hi c es ids'}, P lo hi c es ids' → (∀ i ∈ ids', i ∈ f.idsBefore ++ f.idsAfter) →
      P' lo hi c es ids') → ∀ {es' ids'}, P' f.lo f.hi (childBehind first f.left) es' ids' →
      Chain P' lo hi first pairs (f.before ++ es' ++ f.after) (f.idsBefore ++ ids' ++ f.idsAfter)
  refillTwo : ∀ {P' : ChildPred κ γ α ι},
    (∀ {lo hi c es ids'}, P lo hi c es ids' → (∀ i ∈ ids', i ∈ f.idsBefore ++ f.idsAfter) →
      P' lo hi c es ids') → ∀ {sep c' es₁ es₂ ids₁ ids₂}, Separates f.lo f.hi sep →
      P' f.lo (some sep) (childBehind first f.left) es₁ ids₁ → P' (some sep) f.hi c' es₂ ids₂ →
      Chain P' lo hi first (f.left ++ (sep, c') :: f.right) (f.before ++ (es₁ ++ es₂) ++ f.after)
        (f.idsBefore ++ (ids₁ ++ ids₂) ++ f.idsAfter)

/-- A key within the bounds of a chain leads to one child. -/
theorem Chain.focus {P : ChildPred κ γ α ι} {lo hi : Option κ} {c : γ} {pairs : List (κ × γ)}
    {es : List α} {ids : List ι} (h : Chain P lo hi c pairs es ids) {key : κ}
    (hkey : InBounds lo hi key) : ∃ f : ChainFocus κ γ α ι, f.At P lo hi c pairs es ids key := by
  induction h with
  | @last lo hi c es ids hc =>
    refine ⟨⟨[], [], lo, hi, [], es, [], [], ids, []⟩, ?_⟩
    exact
      { pairs_eq := rfl
        left_le := by simp
        lt_right := by simp
        entries_eq := by simp
        ids_eq := by simp
        inBounds := hkey
        within := fun hx => hx
        lo_le := fun l hl => ⟨l, hl, le_rfl⟩
        child := hc
        before_below := by simp
        after_above := by simp
        left_lt := by simp
        sep_lt := by simp
        refill := by
          intro P' _ es' ids' hc'
          simpa using Chain.last hc'
        refillTwo := by
          intro P' _ sep c' es1 es2 ids1 ids2 hsep h1 h2
          simpa using Chain.cons hsep h1 (.last h2) }
  | @cons lo hi c c' k rest es1 es2 ids1 ids2 hk hc hrest ih =>
    rcases lt_or_ge key k with hlt | hge
    · -- the key belongs to the first child
      have hright : ∀ {x}, x < k → ∀ p ∈ (k, c') :: rest, x < p.1 := by
        intro x hx
        refine forall_mem_cons.mpr ⟨hx, fun p hp => ?_⟩
        exact hx.trans ((hrest.separates p hp).1 k rfl)
      refine ⟨⟨[], (k, c') :: rest, lo, some k, [], es1, es2, [], ids1, ids2⟩, ?_⟩
      exact
        { pairs_eq := rfl
          left_le := by simp
          lt_right := fun hx => hright (hx.2 k rfl)
          entries_eq := by simp
          ids_eq := by simp
          inBounds := ⟨hkey.1, fun x hx => by cases hx; exact hlt⟩
          within := fun hx => hx.left hk
          lo_le := fun l hl => ⟨l, hl, le_rfl⟩
          child := hc
          before_below := by simp
          after_above := fun hQ => hrest.forall_above fun hx => hQ (hlt.trans_le hx)
          left_lt := by simp
          sep_lt := fun hsep => hright (hsep.2 k rfl)
          refill := by
            intro P' hP es' ids' hc'
            have hrest' := hrest.mono fun hx hsub => hP hx (by simpa using hsub)
            simpa using Chain.cons hk hc' hrest'
          refillTwo := by
            intro P' hP sep c'' e1 e2 i1 i2 hsep h1 h2
            have hrest' := hrest.mono fun hx hsub => hP hx (by simpa using hsub)
            have hk' : Separates (some sep) hi k := ⟨fun x hx => by
              cases hx
              exact hsep.2 k rfl, hk.2⟩
            simpa using Chain.cons (hsep.left hk) h1 (.cons hk' h2 hrest') }
    · have hkey' : InBounds (some k) hi key := ⟨fun x hx => by cases hx; exact hge, hkey.2⟩
      obtain ⟨f, hf⟩ := ih hkey'
      obtain ⟨m, hm, hkm⟩ := hf.lo_le k rfl
      refine ⟨⟨(k, c') :: f.left, f.right, f.lo, f.hi, es1 ++ f.before, f.entries, f.after,
        ids1 ++ f.idsBefore, f.ids, f.idsAfter⟩, ?_⟩
      exact
        { pairs_eq := by rw [hf.pairs_eq]; rfl
          left_le := by
            intro x hx
            refine forall_mem_cons.mpr ⟨?_, hf.left_le hx⟩
            exact hkm.trans (hx.1 m hm)
          lt_right := hf.lt_right
          entries_eq := by simp only [hf.entries_eq, append_assoc]
          ids_eq := by simp only [hf.ids_eq, append_assoc]
          inBounds := hf.inBounds
          within := fun hx => (hf.within hx).right hk
          lo_le := fun l hl => ⟨m, hm, (hk.1 l hl).le.trans hkm⟩
          child := hf.child
          before_below := by
            intro Q hQ
            exact forall_mem_append.mpr ⟨hQ hge hc, hf.before_below hQ⟩
          after_above := hf.after_above
          left_lt := by
            intro sep hsep
            refine forall_mem_cons.mpr ⟨?_, hf.left_lt hsep⟩
            exact hkm.trans_lt (hsep.1 m hm)
          sep_lt := hf.sep_lt
          refill := by
            intro P' hP es' ids' hc'
            have hc1 := hP hc fun i hi => by simp [hi]
            have hrest' := hf.refill (fun hx hsub => hP hx fun i hi => by
              have := hsub i hi
              simp only [mem_append] at this ⊢
              grind) hc'
            simpa using Chain.cons hk hc1 hrest'
          refillTwo := by
            intro P' hP sep c'' e1 e2 i1 i2 hsep h1 h2
            have hc1 := hP hc fun i hi => by simp [hi]
            have hrest' := hf.refillTwo (fun hx hsub => hP hx fun i hi => by
              have := hsub i hi
              simp only [mem_append] at this ⊢
              grind) hsep h1 h2
            simpa using Chain.cons hk hc1 hrest' }

end ArcGraph.Foundation
