import ArcGraph.Index.TreeSplit

/-!
# What a write does to the tree

A write goes down to the leaf of its key, changes it, and sends a split of the leaf
up through the ancestors that are still latched. The descent ends at the leaf the
key leads to, and the tree of the latched part is whole again behind the
propagation, whatever was done at the leaf (`Leads.write`). An ancestor is let go
only below a page with room, and a page with room absorbs a split, so no split gets
past the latched part. `Holds.write` is the same for the whole tree, with the
growth of the root.
-/

namespace ArcGraph.Index
open Foundation Function List

/-! ## Down and up again -/

open Place

section
variable {K E X σ : Type} [LinearOrder K]

def Visits (visit : Nat → Page K E X → IndexM K (Page K E X) σ Unit) : Prop :=
  ∀ id page s, ∃ s', visit id page s = .ok () s' ∧ SameTree s s'

def Applies (cfg : TreeConfig K)
    (apply : Nat → SplitInfo K → IndexM K (Page K E X) σ (Option (SplitInfo K))) : Prop :=
  ∀ id split page s, s.pages id = some page →
    ∃ s', SameTree s s' ∧ apply id split s = insertSplit cfg id split s'

variable {cfg : TreeConfig K} {key : E → K} {pages : Nat → Option (Page K E X)} {h id : Nat}
  {lo hi : Option K} {es : List E} {ids : List Nat} {k : K} {p : Place K E}
  {visit : Nat → Page K E X → IndexM K (Page K E X) σ Unit}
  {apply : Nat → SplitInfo K → IndexM K (Page K E X) σ (Option (SplitInfo K))}

omit [LinearOrder K] in
theorem propagate_none (path : List Nat) (s : IndexState (Page K E X) σ) :
    propagate apply path none s = .ok none s := by
  cases path <;> rfl

omit [LinearOrder K] in
theorem propagate_append (path path' : List Nat) (pending : Option (SplitInfo K))
    (s : IndexState (Page K E X) σ) : propagate apply (path ++ path') pending s =
      (propagate apply path pending >>= propagate apply path') s := by
  induction path generalizing pending s with
  | nil =>
    cases pending with
    | none => simp only [nil_append, bind_apply, propagate_none]
    | some => rfl
  | cons parent _ ih =>
    cases pending with
    | none => simp only [bind_apply, propagate_none]
    | some split =>
      simp only [cons_append, propagate, bind_apply]
      cases apply parent split s with
      | ok pending s' => simpa only [bind_apply] using ih pending s'
      | error => rfl

theorem Subtree.isSafe (ht : Subtree cfg key pages h lo hi id es ids) :
    ∃ page safe, pages id = some page ∧ isSafe cfg id page = .ok safe := by
  cases h with
  | zero => exact ⟨_, _, ht.1, rfl⟩
  | succ =>
    obtain ⟨_, _, _, hpage, -⟩ := ht
    exact ⟨_, _, hpage, rfl⟩

theorem Leads.subtree (hl : Leads cfg key pages k h lo hi id es ids p) :
    Subtree cfg key pages h lo hi id es ids := by
  cases hl with
  | leaf hleaf => exact hleaf
  | node hpage hlen hf =>
      refine ⟨_, _, _, hpage, hlen, ?_, rfl⟩
      rw [hf.entries_eq, hf.ids_eq]
      exact hf.refill (fun hc _ => hc) hf.child

def HasRoom (cfg : TreeConfig K) (pages : Nat → Option (Page K E X)) (id : Nat) : Prop :=
  ∃ page, pages id = some page ∧ isSafe cfg id page = .ok true

/-- The node `id` is restored by the propagation through `path`, whatever happened
at the leaf, and hands a split on only if it was full and is still latched. -/
def Restores (cfg : TreeConfig K) (key : E → K)
    (apply : Nat → SplitInfo K → IndexM K (Page K E X) σ (Option (SplitInfo K)))
    (pages : Nat → Option (Page K E X)) (h : Nat) (lo hi : Option K) (id : Nat) (p : Place K E)
    (path : List Nat) (keeps : Bool) : Prop :=
  ∀ s pending newEs newIds, IndexState.Fresh s → (∀ i ∈ p.others, s.pages i = pages i) →
    Outcome cfg key s.pages 0 p.lo p.hi p.leaf newEs newIds pending →
    (p.entries.length < cfg.leafCapacity → pending = none) →
    (p.idsBefore ++ newIds ++ p.idsAfter).Nodup →
    ∃ s' pending' newIds', propagate apply path pending s = .ok pending' s' ∧
      Grows p.others s s' ∧
      Outcome cfg key s'.pages h lo hi id (p.before ++ newEs ++ p.after) newIds' pending' ∧
      Extends s s' (p.idsBefore ++ newIds ++ p.idsAfter) newIds' ∧
      (keeps = false ∨ HasRoom cfg pages id → pending' = none)

theorem restores_leaf (hleaf : Subtree cfg key pages 0 lo hi id es [id]) :
    Restores cfg key apply pages 0 lo hi id ⟨id, lo, hi, [], es, [], [], []⟩ [] true := by
  intro s pending newEs newIds hs _ hout hroom _
  refine ⟨s, pending, newIds, ?_, .refl _ hs, by simpa using hout, ?_, ?_⟩
  · cases pending <;> rfl
  · simpa using Extends.refl s s newIds
  · rintro (h | ⟨page, hpage, hsafe⟩)
    · cases h
    · obtain rfl : .leaf es = page := Option.some.inj (hleaf.1.symm.trans hpage)
      simp only [isSafe, Except.ok.injEq, decide_eq_true_eq] at hsafe
      exact hroom hsafe

section
variable {first : Nat} {pairs : List (K × Nat)} {rest : List Nat} {f : ChainFocus K Nat E Nat}
  {path newIds : List Nat} {keeps safe : Bool} {s s' : IndexState (Page K E X) σ}

omit [LinearOrder K] in
theorem Place.within_disjoint (hnodup : ((p.within id f).idsBefore ++ newIds ++
    (p.within id f).idsAfter).Nodup) : (p.idsBefore ++ newIds ++ p.idsAfter).Nodup ∧
      (∀ i ∈ id :: (f.idsBefore ++ f.idsAfter), i ∉ p.others ∧ i ∉ newIds) ∧
      id ∉ f.idsBefore ++ f.idsAfter := by
  simp only [within, others, cons_append, append_assoc, nodup_cons,
    nodup_append, mem_append, mem_cons] at hnodup ⊢
  grind

section
variable (hf : f.At (Subtree cfg key pages h) lo hi first pairs es rest k)
  (hpage : pages id = some (.internal first pairs)) (hlen : pairs.length ≤ cfg.internalCapacity)
  (hkept : ∀ i ∈ id :: (f.idsBefore ++ f.idsAfter), s.pages i = pages i) {ids₁ : List Nat}
include hf hpage hlen hkept

theorem Outcome.refill {newEs : List E}
    (hchild : Outcome cfg key s.pages h f.lo f.hi (childBehind first f.left)
      (p.before ++ newEs ++ p.after) ids₁ none) : Outcome cfg key s.pages (h + 1) lo hi id
      ((p.within id f).before ++ newEs ++ (p.within id f).after)
      (id :: (f.idsBefore ++ ids₁ ++ f.idsAfter)) none := by
  refine ⟨first, pairs, _, (hkept id mem_cons_self).trans hpage, hlen, ?_, rfl⟩
  have hchain : Chain (Subtree cfg key s.pages h) _ _ _ _ _ _ := hf.refill (fun hc hsub =>
    hc.frame fun i hi => hkept i (mem_cons_of_mem _ (hsub i hi))) hchild
  simpa only [within, append_assoc] using hchain

theorem Outcome.refillTwo {newEs : List E} {split : SplitInfo K}
    (hs : s.Fresh) (hid : id ∉ f.idsBefore ++ ids₁ ++ f.idsAfter)
    (hchild : Outcome cfg key s.pages h f.lo f.hi (childBehind first f.left)
      (p.before ++ newEs ++ p.after) ids₁ (some split)) :
    ∃ s' pending' newIds', insertSplit cfg id split s = .ok pending' s' ∧ Grows [id] s s' ∧
      Outcome cfg key s'.pages (h + 1) lo hi id
        ((p.within id f).before ++ newEs ++ (p.within id f).after) newIds' pending' ∧
      Extends s s' (id :: (f.idsBefore ++ ids₁ ++ f.idsAfter)) newIds' ∧
      (HasRoom cfg pages id → pending' = none) := by
  obtain ⟨hsep, _, _, _, _, hes, rfl, hleft, hright⟩ := hchild
  have hchain : Chain (Subtree cfg key s.pages h) _ _ _ _ _ _ := hf.refillTwo (fun hc hsub =>
    hc.frame fun i hi => hkept i (mem_cons_of_mem _ (hsub i hi))) hsep hleft hright
  obtain ⟨s', pending', newIds', hrun, hgrows, hout, hext, hroom⟩ := insertSplit_spec hs
    (((hkept id mem_cons_self).trans hpage).trans (by rw [hf.pairs_eq]))
    (hf.pairs_eq ▸ hlen) hchain hid
  refine ⟨s', pending', newIds', hrun, hgrows, ?_, hext, ?_⟩
  · rw [← hes] at hout
    simpa only [within, append_assoc] using hout
  · rintro ⟨page, hpage', hsafe⟩
    obtain rfl : .internal first pairs = page := Option.some.inj (hpage.symm.trans hpage')
    simp only [isSafe, Except.ok.injEq, decide_eq_true_eq] at hsafe
    exact hroom (hf.pairs_eq ▸ hsafe)

end

theorem Restores.node (happly : Applies cfg apply) (hpage : pages id = some (.internal first pairs))
    (hlen : pairs.length ≤ cfg.internalCapacity)
    (hf : f.At (Subtree cfg key pages h) lo hi first pairs es rest k)
    (hmapped : ∀ i ∈ id :: (f.idsBefore ++ f.idsAfter), ∃ page, pages i = some page)
    (hchild : Restores cfg key apply pages h f.lo f.hi (childBehind first f.left) p path keeps)
    (hsafe : safe = true → HasRoom cfg pages (childBehind first f.left)) :
    Restores cfg key apply pages (h + 1) lo hi id (p.within id f)
      (path ++ if !safe && keeps then [id] else []) (!safe && keeps) := by
  intro s pending newEs newIds hs hothers hout hroom hnodup
  obtain ⟨hnodup', hdisjoint, hself⟩ := within_disjoint hnodup
  have hothers' : ∀ i ∈ p.others, s.pages i = pages i := fun i hi =>
    hothers i (mem_within_others.mpr (.inr hi))
  obtain ⟨s1, pending1, ids1, hrun, hgrows, hout1, hext, hnone⟩ :=
    hchild s pending newEs newIds hs hothers' hout hroom hnodup'
  have hbelow : ∀ i ∈ id :: (f.idsBefore ++ f.idsAfter),
      s.pages i = pages i ∧ i < s.nextPage := by
    intro i hi
    obtain ⟨_, hpage⟩ := hmapped i hi
    have heq : s.pages i = pages i := hothers i (mem_within_others.mpr (.inl hi))
    exact ⟨heq, hs.lt (heq.trans hpage)⟩
  have hkept : ∀ i ∈ id :: (f.idsBefore ++ f.idsAfter), s1.pages i = pages i := fun i hi =>
    (hgrows.kept i (hbelow i hi).2 (hdisjoint i hi).1).trans (hbelow i hi).1
  have hgrows' : Grows (p.within id f).others s s1 := hgrows.mono fun i hi =>
    mem_within_others.mpr (.inr hi)
  have hext' : Extends s s1 ((p.within id f).idsBefore ++ newIds ++ (p.within id f).idsAfter)
      (id :: (f.idsBefore ++ ids1 ++ f.idsAfter)) := by
    have := hext.wrap (id :: f.idsBefore) f.idsAfter
    simpa only [within, append_assoc, cons_append] using this
  have hid1 : id ∉ f.idsBefore ++ ids1 ++ f.idsAfter := by
    have hlt := (hbelow id mem_cons_self).2
    obtain ⟨hnot, hnew⟩ := hdisjoint id mem_cons_self
    intro hmem
    have hmem1 : id ∈ ids1 := by
      simp only [mem_append, not_or] at hmem hself
      exact (hmem.resolve_right hself.2).resolve_left hself.1
    rcases hext.mem hmem1 with hold | hfresh
    · exact (mem_ids.mp hold).elim hnew hnot
    · omega
  cases pending1 with
  | none =>
    refine ⟨s1, none, _, ?_, hgrows', Outcome.refill hf hpage hlen hkept hout1, hext', fun _ => rfl⟩
    simp only [propagate_append, bind_apply, hrun, propagate_none]
  | some split =>
    -- the child was full and its parent is still latched
    have hkeeps : keeps = true := by
      cases keeps with
      | true => rfl
      | false => cases hnone (.inl rfl)
    have hfull : safe = false := by
      cases safe with
      | false => rfl
      | true => cases hnone (.inr (hsafe rfl))
    obtain ⟨s1', hsame, happ⟩ := happly id split _ s1 ((hkept id mem_cons_self).trans hpage)
    obtain ⟨s2, pending2, ids2, hrun2, hgrows2, hout2, hext2, hroom2⟩ :=
      Outcome.refillTwo hf hpage hlen (s := s1') (fun i hi => by rw [hsame.pages, hkept i hi])
        (hsame.grows hgrows.fresh).fresh hid1 (by rw [hsame.pages]; exact hout1)
    refine ⟨s2, pending2, ids2, ?_, ?_, hout2, ?_, ?_⟩
    · have hpath : (if !safe && keeps then [id] else []) = [id] := by simp [hkeeps, hfull]
      rw [hpath]
      simp only [propagate_append, bind_apply, hrun, propagate, happ, hrun2]
      cases pending2 <;> rfl
    · refine ((hgrows'.trans (hsame.grows hgrows.fresh)).trans hgrows2).mono fun i hi => ?_
      rw [append_nil] at hi
      rcases mem_append.mp hi with hi | hi
      · exact hi
      · exact mem_within_others.mpr (.inl (mem_singleton.mp hi ▸ mem_cons_self))
    · have hext2' := (Extends.refl s1 s1' _).trans hext2 hsame.nextPage.ge hgrows2.nextPage
      exact hext'.trans hext2' hgrows.nextPage (hsame.nextPage.ge.trans hgrows2.nextPage)
    · rintro (h | h)
      · simp [hkeeps, hfull] at h
      · exact hroom2 h

end

def Descends (cfg : TreeConfig K) (visit : Nat → Page K E X → IndexM K (Page K E X) σ Unit) (k : K)
    (pages : Nat → Option (Page K E X)) (h id leaf : Nat) (path : List Nat) (keeps : Bool) : Prop :=
  ∀ fuel above s, h < fuel → s.pages = pages → ∃ s', SameTree s s' ∧
    descendWrite cfg visit k fuel id above s =
      .ok (leaf, path ++ if keeps then above else []) s'

theorem Descends.node {first : Nat} {pairs : List (K × Nat)} {leaf child : Nat} {page : Page K E X}
    {path : List Nat} {keeps safe : Bool} (hvisit : Visits visit)
    (hpage : pages id = some (.internal first pairs)) (hchild : findChild first pairs k = child)
    (hpage' : pages child = some page) (hsafe : isSafe cfg child page = .ok safe)
    (ih : Descends cfg visit k pages h child leaf path keeps) :
    Descends cfg visit k pages (h + 1) id leaf (path ++ if !safe && keeps then [id] else [])
      (!safe && keeps) := by
  intro fuel above s hfuel hs
  obtain ⟨fuel, rfl⟩ : ∃ n, fuel = n + 1 := ⟨fuel - 1, by omega⟩
  obtain ⟨s1, hrun, hsame⟩ := hvisit child page s
  obtain ⟨s2, hsame2, hrun2⟩ := ih fuel (if safe then [] else id :: above) s1 (by omega)
    (hsame.pages.trans hs)
  refine ⟨s2, hsame.trans hsame2, ?_⟩
  simp only [descendWrite, bind_apply, latch_of_some ((congrFun hs id).trans hpage), hchild,
    latch_of_some ((congrFun hs child).trans hpage'), hrun, hsafe, liftExcept_ok, hrun2]
  cases safe <;> cases keeps <;> simp

/-- What a key leads to is what a write reaches, and what a write can restore. -/
theorem Leads.write (hvisit : Visits visit) (happly : Applies cfg apply)
    (hl : Leads cfg key pages k h lo hi id es ids p) :
    ∃ path keeps, Descends cfg visit k pages h id p.leaf path keeps ∧
      Restores cfg key apply pages h lo hi id p path keeps := by
  induction hl with
  | leaf hleaf =>
    refine ⟨[], true, fun fuel above s hfuel hs => ?_, restores_leaf hleaf⟩
    obtain ⟨fuel, rfl⟩ : ∃ n, fuel = n + 1 := ⟨fuel - 1, by omega⟩
    refine ⟨s, .refl s, ?_⟩
    simp only [descendWrite, bind_apply, latch_of_some ((congrFun hs _).trans hleaf.1)]
    rfl
  | @node h lo hi id first pairs es rest f p hpage hlen hf hp ih =>
    obtain ⟨_, _, hdesc, hrest⟩ := ih
    obtain ⟨page, _, hpage', hsafe⟩ := hp.subtree.isSafe
    have hchild : findChild first pairs k = childBehind first f.left := by
      rw [hf.pairs_eq, findChild_eq first (hf.left_le hf.inBounds) (hf.lt_right hf.inBounds)]
    have hmapped := (Leads.node hpage hlen hf hp).subtree.mapped
    refine ⟨_, _, hdesc.node hvisit hpage hchild hpage' hsafe, hrest.node happly hpage hlen hf
      (fun i hi => hmapped i ?_) fun h => ⟨page, hpage', h ▸ hsafe⟩⟩
    rw [hf.ids_eq]
    simp only [mem_append, mem_cons] at hi ⊢
    grind

end

/-! ## The whole tree -/

variable {K E X σ : Type} [LinearOrder K]

/-- The index is a well-formed tree that holds the entries `es` in order. -/
structure Holds (cfg : TreeConfig K) (key : E → K) (s : IndexState (Page K E X) σ) (h : Nat)
    (es : List E) (ids : List Nat) : Prop where
  fresh : s.Fresh
  tree : Subtree cfg key s.pages h none none s.rootCache es ids
  nodup : ids.Nodup

variable {cfg : TreeConfig K} {key : E → K} {s s' s₀ : IndexState (Page K E X) σ} {h id : Nat}
  {es : List E} {ids : List Nat} {k : K} {p : Place K E}
  {visit : Nat → Page K E X → IndexM K (Page K E X) σ Unit}
  {apply : Nat → SplitInfo K → IndexM K (Page K E X) σ (Option (SplitInfo K))}
  {publish : Nat → σ → σ} {pages : Nat → Option (Page K E X)} {hi lo : Option K}

section
variable (hs : Holds cfg key s h es ids)
include hs

theorem Holds.lt_nextPage {i : Nat} (hi : i ∈ ids) : i < s.nextPage := by
  obtain ⟨_, hpage⟩ := hs.tree.mapped i hi
  exact hs.fresh.lt hpage

/-- The pages are distinct, so the allocator has counted at least one for each
level. -/
theorem Holds.height_lt : h < s.nextPage := by
  have hsub : ids ⊆ range s.nextPage := fun i hi => mem_range.mpr (hs.lt_nextPage hi)
  have hlen := hs.nodup.length_le_of_subset hsub
  have := hs.tree.height_lt
  simp only [length_range] at hlen
  omega

theorem Holds.same (hsame : SameTree s s') : Holds cfg key s' h es ids where
  fresh := (hsame.grows hs.fresh).fresh
  tree := by
    rw [hsame.pages, hsame.rootCache]
    exact hs.tree
  nodup := hs.nodup

end

theorem newRoot_apply (split : SplitInfo K) (hfree : s.pages s.nextPage = none) :
    newRoot cfg split s = .ok s.nextPage { s with
      pages := update s.pages s.nextPage
        (some (.internal s.rootCache [(split.promotedKey, split.newRightPage)]))
      rootCache := s.nextPage
      nextPage := s.nextPage + 1
      log := { s.log with
        newPages := s.log.newPages ++ [s.nextPage]
        rootChanges := s.log.rootChanges ++ [s.rootCache] }
      staged := s.staged ++
        [(s.nextPage, .internal s.rootCache [(split.promotedKey, split.newRightPage)])] } := by
  have hroom : ([] : List (K × Nat)).length < cfg.internalCapacity := by
    have := cfg.two_le_internal
    simpa using by omega
  simp only [newRoot, bind_apply, root_apply, alloc_apply,
    insertPair_ok cfg s.nextPage split.newRightPage hroom (by simp), insertSorted, liftExcept_ok,
    modify_apply, stageEmit_apply, installForTxn_of_none, hfree, pure_apply]

theorem Holds.newRoot {split : SplitInfo K} (hfresh : s.Fresh) (hids : ids.Nodup)
    (hout : Outcome cfg key s.pages h none none s.rootCache es ids (some split)) :
    ∃ s', newRoot cfg split s = .ok s.nextPage s' ∧
      Holds cfg key s' (h + 1) es (s.nextPage :: ids) ∧
      (∀ i, i < s.nextPage → s'.pages i = s.pages i) ∧ s'.nextPage = s.nextPage + 1 ∧
      s'.log.rootChanges = s.log.rootChanges ++ [s.rootCache] ∧ s'.extra = s.extra := by
  obtain ⟨hsep, _, _, ids1, ids2, rfl, rfl, hleft, hright⟩ := hout
  have hlt : ∀ i ∈ ids1 ++ ids2, i < s.nextPage := by
    refine forall_mem_append.mpr ⟨fun i hi => ?_, fun i hi => ?_⟩
    · obtain ⟨_, hpage⟩ := hleft.mapped i hi
      exact hfresh.lt hpage
    · obtain ⟨_, hpage⟩ := hright.mapped i hi
      exact hfresh.lt hpage
  refine ⟨_, newRoot_apply split (hfresh _ (Nat.le_refl _)), ⟨?_, ?_, ?_⟩,
    fun i hi => update_of_ne hi.ne _ _, rfl, rfl, rfl⟩
  · intro i hi
    have hi' : s.nextPage + 1 ≤ i := hi
    exact (update_of_ne (by omega) _ _).trans (hfresh i (by omega))
  · refine ⟨_, _, ids1 ++ ids2, update_self .., ?_, ?_, rfl⟩
    · have := cfg.two_le_internal
      simpa using by omega
    · refine .cons hsep (hleft.frame fun i hi => ?_) (.last (hright.frame fun i hi => ?_))
      · exact update_of_ne (hlt i (mem_append_left _ hi)).ne _ _
      · exact update_of_ne (hlt i (mem_append_right _ hi)).ne _ _
  · exact nodup_cons.mpr ⟨fun hmem => Nat.lt_irrefl _ (hlt _ hmem), hids⟩

/-- What was done at the leaf of a key, between the descent and the way back up. -/
structure LeafDone (cfg : TreeConfig K) (key : E → K) (s s₁ : IndexState (Page K E X) σ)
    (p : Place K E) (newEs : List E) (newIds : List Nat) (pending : Option (SplitInfo K)) :
    Prop where
  fresh : s₁.Fresh
  kept : ∀ i ∈ p.others, s₁.pages i = s.pages i
  rootCache : s₁.rootCache = s.rootCache
  rootChanges : s₁.log.rootChanges = s.log.rootChanges
  outcome : Outcome cfg key s₁.pages 0 p.lo p.hi p.leaf newEs newIds pending
  room : p.entries.length < cfg.leafCapacity → pending = none
  nodup : (p.idsBefore ++ newIds ++ p.idsAfter).Nodup
  bounded : ∀ i ∈ p.idsBefore ++ newIds ++ p.idsAfter, i < s₁.nextPage

theorem LeafDone.of_same {s₁ : IndexState (Page K E X) σ} {newEs : List E} {newIds : List Nat}
    {pending : Option (SplitInfo K)} (hdone : LeafDone cfg key s₀ s₁ p newEs newIds pending)
    (hsame : SameTree s s₀) : LeafDone cfg key s s₁ p newEs newIds pending :=
  { hdone with
    kept := fun i hi => by rw [hdone.kept i hi, hsame.pages]
    rootCache := hdone.rootCache.trans hsame.rootCache
    rootChanges := hdone.rootChanges.trans hsame.rootChanges }

/-- A write grows the root at most once, and not if the root page has room. -/
def RootStep (cfg : TreeConfig K) (s s' : IndexState (Page K E X) σ) : Prop :=
  s'.rootCache = s.rootCache ∧ s'.log.rootChanges = s.log.rootChanges ∨
    s'.log.rootChanges = s.log.rootChanges ++ [s.rootCache] ∧ ¬HasRoom cfg s.pages s.rootCache

omit [LinearOrder K] in
theorem RootStep.of_same (h : RootStep cfg s₀ s') (hsame : SameTree s s₀) : RootStep cfg s s' := by
  rwa [RootStep, hsame.rootCache, hsame.rootChanges, hsame.pages] at h

/-- A write on a well-formed tree, around what it does at the leaf. -/
theorem Holds.write (hs : Holds cfg key s h es ids) (hvisit : Visits visit)
    (happly : Applies cfg apply) (publish : Nat → σ → σ) (k : K) :
    ∃ p path, Leads cfg key s.pages k h none none s.rootCache es ids p ∧ (∃ s', SameTree s s' ∧
        descendWrite cfg visit k s.nextPage s.rootCache [] s = .ok (p.leaf, path) s') ∧
      ∀ s₁ pending newEs newIds, LeafDone cfg key s s₁ p newEs newIds pending →
        ∃ s2 h' newIds', absorb cfg apply publish path pending s₁ = .ok () s2 ∧
          Holds cfg key s2 h' (p.before ++ newEs ++ p.after) newIds' ∧
          (∀ i, i < s₁.nextPage → i ∉ p.others → s2.pages i = s₁.pages i) ∧
          Extends s₁ s2 (p.idsBefore ++ newIds ++ p.idsAfter) newIds' ∧ s₁.nextPage ≤ s2.nextPage ∧
          RootStep cfg s s2 ∧ (s2.extra = s₁.extra ∨ ∃ id, s2.extra = publish id s₁.extra) := by
  obtain ⟨p, hleads⟩ := hs.tree.leads (inBounds_none k)
  obtain ⟨path, _, hdesc, hrest⟩ := hleads.write hvisit happly
  refine ⟨p, path, hleads, ?_, ?_⟩
  · obtain ⟨s', hsame, hrun⟩ := hdesc s.nextPage [] s hs.height_lt rfl
    refine ⟨s', hsame, ?_⟩
    simpa using hrun
  · intro s₁ pending newEs newIds hdone
    obtain ⟨s2, pending', ids2, hrun, hgrows, hout, hext, hroom⟩ := hrest s₁ pending newEs newIds
      hdone.fresh hdone.kept hdone.outcome hdone.room hdone.nodup
    have hnodup := hext.nodup hdone.nodup hdone.bounded
    have hroot : s2.rootCache = s.rootCache := hgrows.rootCache.trans hdone.rootCache
    have hchanges := hgrows.rootChanges.trans hdone.rootChanges
    cases pending' with
    | none =>
      refine ⟨s2, h, ids2, ?_, ⟨hgrows.fresh, ?_, hnodup⟩, hgrows.kept, hext, hgrows.nextPage,
        .inl ⟨hroot, hchanges⟩, .inl hgrows.extra⟩
      · simp [absorb, hrun]
      · rw [hroot]
        exact hout
    | some =>
      rw [← hroot] at hout
      obtain ⟨s3, hrun3, hholds, hkept, hnext, hchanges3, hextra⟩ :=
        Holds.newRoot hgrows.fresh hnodup hout
      refine ⟨{ s3 with extra := publish s2.nextPage s3.extra }, h + 1, s2.nextPage :: ids2, ?_,
        ⟨hholds.fresh, hholds.tree, hholds.nodup⟩, ?_, ?_, ?_, .inr ⟨?_, fun h => ?_⟩,
        .inr ⟨s2.nextPage, ?_⟩⟩
      · simp [absorb, hrun, hrun3]
      · intro i hi hnot
        exact (hkept i (Nat.lt_of_lt_of_le hi hgrows.nextPage)).trans (hgrows.kept i hi hnot)
      · exact hext.trans (.one (perm_append_singleton _ _).symm hnext)
          hgrows.nextPage (by simp [hnext])
      · exact hgrows.nextPage.trans (by simp [hnext])
      · exact hchanges3.trans (by rw [hchanges, hroot])
      · cases hroom (.inr h)
      · rw [hextra, hgrows.extra]

omit [LinearOrder K] in
theorem absorb_none [LinearOrder K] (path : List Nat) :
    absorb cfg apply publish path none s = .ok () s := by
  simp [absorb, propagate_none]

section
variable {s₁ : IndexState (Page K E X) σ} {newEs left right : List E} {lo hi : Option K}
  {id : Nat}

theorem Leads.nodup (hs : Holds cfg key s h es ids)
    (hl : Leads cfg key s.pages k h lo hi id es ids p) :
    (p.idsBefore ++ [p.leaf] ++ p.idsAfter).Nodup ∧ p.leaf ∉ p.others ∧ p.leaf < s.nextPage ∧
      ∀ i ∈ p.others, i < s.nextPage := by
  have hids := hl.ids_eq
  have hnodup := hs.nodup
  rw [hids] at hnodup
  refine ⟨by simpa using hnodup, ?_, hs.lt_nextPage (by simp [hids]), fun i hi => ?_⟩
  · simp only [others, nodup_append, nodup_cons, mem_append, mem_cons]
      at hnodup ⊢
    grind
  · refine hs.lt_nextPage ?_
    rw [hids, append_cons]
    exact mem_ids.mpr (.inr hi)

theorem Leads.inBounds
    (hl : Leads cfg key pages k h lo hi id es ids p) (hupd : UpdatesAt key k p.entries newEs) :
    ∀ e ∈ newEs, InBounds p.lo p.hi (key e) := by
  intro e he
  obtain ⟨hleaf, hk⟩ := hl.leaf_spec
  rcases hupd.keys e he with heq | hold
  · exact heq ▸ hk
  · exact hleaf.2.2.2.1 e hold

theorem Leads.updates
    (hl : Leads cfg key pages k h lo hi id es ids p) (hupd : UpdatesAt key k p.entries newEs) :
    findKey key (p.before ++ newEs ++ p.after) k = findKey key newEs k ∧
      ∀ k', k' ≠ k → findKey key (p.before ++ newEs ++ p.after) k' = findKey key es k' := by
  obtain ⟨hbefore, hafter⟩ := hl.around
  refine ⟨findKey_middle hbefore hafter, fun k' hk' => ?_⟩
  rw [hl.entries_eq, findKey_append, findKey_append, findKey_append, findKey_append,
    hupd.others k' hk']

section
variable (hs : Holds cfg key s h es ids) (hl : Leads cfg key s.pages k h lo hi id es ids p)
  (hroot : s₁.rootCache = s.rootCache) (hchanges : s₁.log.rootChanges = s.log.rootChanges)
  (hnext : s.nextPage ≤ s₁.nextPage) (hasc : AscendingBy key newEs)
  (hin : ∀ e ∈ newEs, InBounds p.lo p.hi (key e)) (hlen : newEs.length ≤ cfg.leafCapacity)
include hs hl hroot hchanges hnext hasc hin hlen

theorem LeafDone.inPlace (hfresh : s₁.Fresh) (hkept : ∀ i ∈ p.others, s₁.pages i = s.pages i)
    (hpage : s₁.pages p.leaf = some (.leaf newEs)) :
    LeafDone cfg key s s₁ p newEs [p.leaf] none := by
  obtain ⟨hnodup, -, hlt, hothers⟩ := hl.nodup hs
  refine ⟨hfresh, hkept, hroot, hchanges, ⟨hpage, rfl, hasc, hin, hlen⟩, fun _ => rfl, hnodup,
    fun i hi => hnext.trans_lt' ?_⟩
  rcases mem_ids.mp hi with hmem | hmem
  · exact mem_singleton.mp hmem ▸ hlt
  · exact hothers i hmem

theorem LeafDone.update (hpages : s₁.pages = update s.pages p.leaf (some (.leaf newEs))) :
    LeafDone cfg key s s₁ p newEs [p.leaf] none := by
  obtain ⟨-, hleaf, _, -⟩ := hl.nodup hs
  refine .inPlace hs hl hroot hchanges hnext hasc hin hlen (fun i hi => ?_)
    (fun i hi => ?_) ?_
  · rw [hpages, update_of_ne (by omega), hs.fresh i (hnext.trans hi)]
  · rw [hpages, update_of_ne fun h : i = p.leaf => hleaf (h ▸ hi)]
  · rw [hpages, update_self]

end

def IndexState.afterSplit (s : IndexState (Page K E X) σ) (leafId : Nat) (left right : List E) :
    IndexState (Page K E X) σ :=
  { s with
    pages := update (update s.pages leafId (some (.leaf left))) s.nextPage
      (some (.leaf right))
    nextPage := s.nextPage + 1
    log := { s.log with newPages := s.log.newPages ++ [s.nextPage] }
    staged := s.staged ++ [(s.nextPage, .leaf right), (leafId, .leaf left)] }

omit [LinearOrder K] in
theorem IndexState.update_nextPage (s : IndexState (Page K E X) σ) {leafId : Nat}
    (hfree : s.pages s.nextPage = none) (hne : leafId ≠ s.nextPage) (page : Page K E X) :
    update s.pages leafId (some page) s.nextPage = none := by
  rw [update_of_ne hne.symm, hfree]

variable (hs : Holds cfg key s h es ids) (hl : Leads cfg key s.pages k h lo hi id es ids p)
  (hfull : cfg.leafCapacity ≤ p.entries.length)
include hs hl hfull

theorem LeafDone.split {low mid : E} (hlow : low ∈ p.entries)
    (hmid : mid ∈ p.entries) (hlt : key low < key mid)
    (hupd : UpdatesAt key k p.entries (left ++ right)) (hleft : ∀ e ∈ left, key e < key mid)
    (hright : ∀ e ∈ right, key mid ≤ key e) (hlenLeft : left.length ≤ cfg.leafCapacity)
    (hlenRight : right.length ≤ cfg.leafCapacity) :
    LeafDone cfg key s (s.afterSplit p.leaf left right) p (left ++ right) [p.leaf, s.nextPage]
      (some ⟨key mid, s.nextPage⟩) := by
  have hpages : (s.afterSplit p.leaf left right).pages =
      Function.update (Function.update s.pages p.leaf (some (.leaf left))) s.nextPage
        (some (.leaf right)) := rfl
  have hnext : (s.afterSplit p.leaf left right).nextPage = s.nextPage + 1 := rfl
  have hin := hl.inBounds hupd
  have hentries := hl.leaf_spec.1.2.2.2.1
  have hsep : Separates p.lo p.hi (key mid) :=
    ⟨fun x hx => ((hentries low hlow).1 x hx).trans_lt hlt, (hentries mid hmid).2⟩
  obtain ⟨hnodup, hleaf, hlt, hothers⟩ := hl.nodup hs
  obtain ⟨hascLeft, hascRight, -⟩ := ascendingBy_append.mp hupd.ascending
  refine ⟨fun i hi => ?_, fun i hi => ?_, rfl, rfl, ⟨hsep, left, right, [p.leaf], [s.nextPage], rfl,
    rfl, ⟨?_, rfl, hascLeft, fun e he => ?_, hlenLeft⟩, ⟨?_, rfl, hascRight, fun e he => ?_,
    hlenRight⟩⟩, fun h => by omega, ?_, fun i hi => ?_⟩
  · rw [hnext] at hi
    rw [hpages, update_of_ne (by omega), update_of_ne (by omega), hs.fresh i (by omega)]
  · rw [hpages, update_of_ne (hothers i hi).ne, update_of_ne fun h : i = p.leaf => hleaf (h ▸ hi)]
  · rw [hpages, update_of_ne hlt.ne, update_self]
  · exact ⟨(hin e (mem_append_left _ he)).1, fun x hx => by
      cases hx
      exact hleft e he⟩
  · rw [hpages, update_self]
  · exact ⟨fun x hx => by
      cases hx
      exact hright e he, (hin e (mem_append_right _ he)).2⟩
  · have hnew : s.nextPage ∉ p.idsBefore ++ [p.leaf] ++ p.idsAfter := by
      intro hmem
      have : s.nextPage < s.nextPage := hs.lt_nextPage (by rw [hl.ids_eq]; simpa using hmem)
      omega
    simp only [nodup_append, mem_append, nodup_cons, mem_cons] at hnodup hnew ⊢
    grind
  · rw [hnext]
    rcases mem_ids.mp hi with hmem | hmem
    · simp only [mem_cons, not_mem_nil, or_false] at hmem
      omega
    · have := hothers i hmem
      omega

/-- A full leaf has two halves with room, and a change in either of them is a change at
the leaf. -/
theorem Leads.halves : ∃ left mid right, p.entries = left ++ mid :: right ∧
      splitLeaf key p.leaf p.entries = .ok ⟨left, key mid, mid :: right⟩ ∧
      left.length < cfg.leafCapacity ∧ (mid :: right).length < cfg.leafCapacity ∧
      (∀ new, k < key mid → UpdatesAt key k left new → new.length ≤ left.length + 1 →
        UpdatesAt key k p.entries (new ++ mid :: right) ∧
        LeafDone cfg key s (s.afterSplit p.leaf new (mid :: right)) p (new ++ mid :: right)
          [p.leaf, s.nextPage] (some ⟨key mid, s.nextPage⟩)) ∧
      ∀ new, key mid ≤ k → UpdatesAt key k (mid :: right) new →
        new.length ≤ (mid :: right).length + 1 → UpdatesAt key k p.entries (left ++ new) ∧
        LeafDone cfg key s (s.afterSplit p.leaf left new) p (left ++ new)
          [p.leaf, s.nextPage] (some ⟨key mid, s.nextPage⟩) := by
  obtain ⟨hasc, _⟩ : AscendingBy key p.entries ∧ p.entries.length ≤ cfg.leafCapacity :=
    ⟨hl.leaf_spec.1.2.2.1, hl.leaf_spec.1.2.2.2.2⟩
  have htwo := cfg.two_le_leaf
  obtain ⟨left, mid, right, hentries, _, hsplit⟩ := splitLeaf_ok key p.leaf
    (htwo.trans hfull)
  have hlens : left.length < cfg.leafCapacity ∧ (mid :: right).length < cfg.leafCapacity := by
    have hsum := congrArg length hentries
    rw [length_append] at hsum
    omega
  rw [hentries] at hasc
  obtain ⟨-, -, hbelow, habove⟩ := ascendingBy_insert.mp hasc
  obtain ⟨low, hlow⟩ : ∃ low, low ∈ left := exists_mem_of_length_pos (by omega)
  have hlow' : low ∈ p.entries := by simp [hentries, hlow]
  have hmid' : mid ∈ p.entries := by simp [hentries]
  have hupper : ∀ e ∈ mid :: right, key mid ≤ key e := by
    refine forall_mem_cons.mpr ⟨le_rfl, fun e he => ?_⟩
    exact (habove e he).le
  refine ⟨left, mid, right, hentries, hsplit, hlens.1, hlens.2, fun new hk hnew hlen => ?_,
    fun new hk hnew hlen => ?_⟩
  · obtain ⟨hupd, hnewBelow⟩ := hnew.lower hasc hk
    rw [← hentries] at hupd
    exact ⟨hupd, .split hs hl hfull hlow' hmid' (hbelow low hlow) hupd hnewBelow hupper
      (by omega) (by omega)⟩
  · obtain ⟨hupd, hnewAbove, -⟩ := hnew.upper hasc hk
    rw [← hentries] at hupd
    exact ⟨hupd, .split hs hl hfull hlow' hmid' (hbelow low hlow) hupd hbelow hnewAbove
      (by omega) (by omega)⟩

end

/-- A lookup of any key of a leaf reads that leaf, whatever was written there. -/
theorem Leads.read {x : K}
    {entries : List E} {fuel : Nat} (hl : Leads cfg key pages k h lo hi id es ids p)
    (hx : InBounds p.lo p.hi x) (hfuel : h < fuel) (hothers : ∀ i ∈ p.others, s.pages i = pages i)
    (hleaf : s.pages p.leaf = some (.leaf entries)) :
    InBounds lo hi x ∧ descendRead x fuel id s = .ok entries s := by
  induction hl generalizing fuel with
  | leaf =>
    obtain ⟨fuel, rfl⟩ : ∃ n, fuel = n + 1 := ⟨fuel - 1, by omega⟩
    refine ⟨hx, ?_⟩
    simp [descendRead, latch_of_some hleaf]
  | @node _ _ _ id first _ _ _ f p hpage _ hf _ ih =>
    obtain ⟨fuel, rfl⟩ : ∃ n, fuel = n + 1 := ⟨fuel - 1, by omega⟩
    have hpage' := (hothers id (mem_within_others.mpr (.inl mem_cons_self))).trans hpage
    obtain ⟨hin, hread⟩ := ih hx (show _ < fuel by omega)
      (fun i hi => hothers i (mem_within_others.mpr (.inr hi))) hleaf
    refine ⟨hf.within hin, ?_⟩
    simpa only [descendRead, bind_apply, latch_of_some hpage', hf.pairs_eq,
      findChild_eq first (hf.left_le hin) (hf.lt_right hin)] using hread

theorem Leads.findKey_eq
    (hl : Leads cfg key pages k h lo hi id es ids p) : findKey key es k = findKey key p.entries k := by
  obtain ⟨hbefore, hafter⟩ := hl.around
  rw [hl.entries_eq, findKey_middle hbefore hafter]

/-- A lookup on a well-formed tree ends at a leaf that answers for the whole tree. -/
theorem Holds.read (hs : Holds cfg key s h es ids) (k : K) :
    ∃ leaf, descendRead k s.nextPage s.rootCache s = .ok leaf s ∧ AscendingBy key leaf ∧
      findKey key leaf k = findKey key es k := by
  obtain ⟨p, hleads⟩ := hs.tree.leads (inBounds_none k)
  obtain ⟨hpage, hk⟩ := hleads.leaf_spec
  exact ⟨p.entries, (hleads.read hk hs.height_lt (fun _ _ => rfl) hpage.1).2, hpage.2.2.1,
    hleads.findKey_eq.symm⟩

end ArcGraph.Index
