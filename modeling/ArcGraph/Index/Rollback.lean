import ArcGraph.Index.TreeWrite

/-!
# The mutation log and its rollback

A deferred write records in the log of its transaction which pages it installed and
what the pages it changed held before. `rollback` drains the log. A page is changed
only when it is in the log (`Tracks`), so that the log knows the pages of the state it
was started in (`Undo`), and draining it brings them back (`rollback_pages`).
-/

namespace ArcGraph.Index
open Function List

/-! ## Draining the log -/

section
variable {P σ : Type}

/-- The old root is the cached one again. `clear` is what the index does besides. -/
def restoreRoot (clear : σ → σ) (s : IndexState P σ) (oldRoot : Nat) : IndexState P σ :=
  { s with rootCache := oldRoot, extra := clear s.extra }

variable (s : IndexState P σ)

def removePage (pageId : Nat) : IndexState P σ :=
  { s with pages := update s.pages pageId none }

/-- A page that is not mapped is not restored; the caller logs a warning. -/
def restorePageBytes (capture : Nat × P) : IndexState P σ :=
  match s.pages capture.1 with
  | some _ => { s with pages := update s.pages capture.1 (some capture.2) }
  | none => s

/-- The rollback closure of a commit, as far as it is about one index: root changes,
then new pages, then captured pages, each in the order of the log. -/
def rollback (clear : σ → σ) (s : IndexState P σ) : IndexState P σ :=
  let log := s.log
  let s := log.rootChanges.foldl (restoreRoot clear) s
  let s := log.newPages.foldl removePage s
  let s := log.pageMutations.foldl restorePageBytes s
  { s with log := {} }

end

/-! ## What the log knows -/

section
variable {P σ : Type} {b s s' : IndexState P σ} {capture : Nat × P} {root : Nat}

/-- The page was captured or installed by the transaction. -/
def IndexState.Logged (s : IndexState P σ) (i : Nat) : Prop :=
  s.log.hasCaptured i = true ∨ i ∈ s.log.newPages

/-- The log leads back from the pages of `s` to those of `b`. -/
structure Undo (b s : IndexState P σ) : Prop where
  captured : ∀ i page, (i, page) ∈ s.log.pageMutations →
    i ∈ s.log.newPages ∨ b.pages i = some page ∧ s.pages i ≠ none
  untouched : ∀ i, ¬s.Logged i → s.pages i = b.pages i
  new : ∀ i ∈ s.log.newPages, b.pages i = none

theorem Undo.start (b : IndexState P σ) : Undo b { b with log := {} } :=
  ⟨by simp, fun _ _ => rfl, by simp⟩

theorem Undo.same {s0 : IndexState P σ} (h : Undo b s) (hpages : s0.pages = s.pages)
    (hlog : s0.log = s.log) : Undo b s0 := by
  refine ⟨?_, fun i hi => ?_, ?_⟩
  · rw [hpages, hlog]
    exact h.captured
  · rw [hpages]
    exact h.untouched i (by rwa [IndexState.Logged, hlog] at hi)
  · rw [hlog]
    exact h.new

theorem removePages_pages (ids : List Nat) (s : IndexState P σ) (i : Nat) :
    (ids.foldl removePage s).pages i = if i ∈ ids then none else s.pages i := by
  induction ids generalizing s with
  | nil => simp
  | cons id _ ih =>
    rw [foldl_cons, ih]
    by_cases hi : i = id
    · simp [hi, removePage]
    · simp [hi, removePage]

theorem restorePageBytes_of_none (h : s.pages capture.1 = none) :
    restorePageBytes s capture = s := by
  rw [restorePageBytes, h]

theorem restorePageBytes_of_ne_none (h : s.pages capture.1 ≠ none) : restorePageBytes s capture =
      { s with pages := update s.pages capture.1 (some capture.2) } := by
  obtain ⟨_, hpage⟩ := Option.ne_none_iff_exists'.mp h
  rw [restorePageBytes, hpage]

theorem restorePages_pages (captures : List (Nat × P)) (s : IndexState P σ)
    (hrest : ∀ i, s.pages i = b.pages i ∨ s.pages i ≠ none ∧ ∃ page, (i, page) ∈ captures)
    (hcapture : ∀ i page, (i, page) ∈ captures →
      s.pages i = none ∧ b.pages i = none ∨ s.pages i ≠ none ∧ b.pages i = some page) :
    (captures.foldl restorePageBytes s).pages = b.pages := by
  induction captures generalizing s with
  | nil =>
    funext i
    rcases hrest i with heq | ⟨-, page, hmem⟩
    · exact heq
    · cases hmem
  | cons capture rest ih =>
    obtain ⟨j, q⟩ := capture
    rw [foldl_cons]
    have hrest' : ∀ i, i ≠ j ∨ s.pages i = none →
        s.pages i = b.pages i ∨ s.pages i ≠ none ∧ ∃ page, (i, page) ∈ rest := by
      intro i hi
      rcases hrest i with heq | ⟨hne, page, hmem⟩
      · exact .inl heq
      · refine .inr ⟨hne, page, (mem_cons.mp hmem).resolve_left fun heq => ?_⟩
        exact hi.elim (· (Prod.mk.inj heq).1) hne
    have hcapture' : ∀ i page, (i, page) ∈ rest →
        s.pages i = none ∧ b.pages i = none ∨ s.pages i ≠ none ∧ b.pages i = some page :=
      fun i page hmem => hcapture i page (mem_cons_of_mem _ hmem)
    rcases hcapture j q mem_cons_self with ⟨hnone, -⟩ | ⟨hsome, hq⟩
    · rw [restorePageBytes_of_none hnone]
      refine ih s (fun i => ?_) hcapture'
      by_cases hi : i = j
      · exact hrest' i (.inr (hi ▸ hnone))
      · exact hrest' i (.inl hi)
    · rw [restorePageBytes_of_ne_none hsome]
      refine ih _ (fun i => ?_) fun i page hmem => ?_
      · by_cases hi : i = j
        · exact .inl (by simp [hi, hq])
        · simpa [update_of_ne hi] using hrest' i (.inl hi)
      · by_cases hi : i = j
        · subst hi
          refine .inr ⟨by simp, ?_⟩
          rcases hcapture' i page hmem with ⟨hnone, -⟩ | ⟨-, hpage⟩
          · exact absurd hnone hsome
          · exact hpage
        · simpa [update_of_ne hi] using hcapture' i page hmem

/-- A fold whose steps keep `f` keeps `f`. -/
theorem foldl_keeps {α β γ : Type} (f : β → γ) (g : β → α → β) (h : ∀ b a, f (g b a) = f b)
    (l : List α) (b : β) : f (l.foldl g b) = f b := by
  induction l generalizing b with
  | nil => rfl
  | cons a _ ih => exact (ih (g b a)).trans (h b a)

/-- Draining the log brings the pages back. -/
theorem rollback_pages (clear : σ → σ) (h : Undo b s) : (rollback clear s).pages = b.pages := by
  have hmiddle : ∀ i, (s.log.newPages.foldl removePage
      (s.log.rootChanges.foldl (restoreRoot clear) s)).pages i =
      if i ∈ s.log.newPages then none else s.pages i := by
    intro i
    rw [removePages_pages, foldl_keeps IndexState.pages (restoreRoot clear) fun _ _ => rfl]
  refine restorePages_pages _ _ (fun i => ?_) fun i page hmem => ?_
  · rw [hmiddle]
    by_cases hnew : i ∈ s.log.newPages
    · rw [if_pos hnew, h.new i hnew]
      exact .inl rfl
    · rw [if_neg hnew]
      by_cases hcaptured : s.log.hasCaptured i = true
      · obtain ⟨⟨j, page⟩, hmem, hj⟩ := any_eq_true.mp hcaptured
        obtain rfl : j = i := by simpa using hj
        exact .inr ⟨((h.captured j page hmem).resolve_left hnew).2, page, hmem⟩
      · exact .inl (h.untouched i fun hlogged => hlogged.elim hcaptured hnew)
  · rw [hmiddle]
    by_cases hnew : i ∈ s.log.newPages
    · rw [if_pos hnew]
      exact .inl ⟨rfl, h.new i hnew⟩
    · rw [if_neg hnew]
      obtain ⟨hpage, hmapped⟩ := (h.captured i page hmem).resolve_left hnew
      exact .inr ⟨hmapped, hpage⟩

/-! ### What else is rolled back -/

theorem rollback_fields (clear : σ → σ) (s : IndexState P σ) :
    (rollback clear s).rootCache = s.log.rootChanges.getLast?.getD s.rootCache ∧
      (rollback clear s).nextPage = s.nextPage ∧
      (rollback clear s).extra = s.log.rootChanges.foldl (fun extra _ => clear extra) s.extra := by
  let fields (s : IndexState P σ) := (s.rootCache, s.nextPage, s.extra)
  have hdrained : fields (rollback clear s) =
      fields (s.log.rootChanges.foldl (restoreRoot clear) s) := by
    refine (foldl_keeps fields restorePageBytes (fun s capture => ?_) _ _).trans
      (foldl_keeps fields removePage (fun _ _ => rfl) _ _)
    rw [restorePageBytes]
    cases s.pages capture.1 <;> rfl
  obtain ⟨hroot, hrest⟩ := Prod.mk.inj hdrained
  obtain ⟨hnext, hextra⟩ := Prod.mk.inj hrest
  have hroots : ∀ (roots : List Nat) (s : IndexState P σ),
      (roots.foldl (restoreRoot clear) s).rootCache = roots.getLast?.getD s.rootCache := by
    intro roots
    induction roots with
    | nil => exact fun _ => rfl
    | cons _ _ ih =>
      intro s
      rw [foldl_cons, ih, getLast?_cons]
      rfl
  exact ⟨hroot.trans (hroots _ s),
    hnext.trans (foldl_keeps IndexState.nextPage (restoreRoot clear) (fun _ _ => rfl) _ s),
    hextra.trans (foldl_hom IndexState.extra fun _ _ => rfl).symm⟩

/-! ### The cached root -/

/-- A rollback makes `root` the cached root. -/
def RestoresRoot (root : Nat) (s : IndexState P σ) : Prop :=
  s.log.rootChanges = [] ∧ s.rootCache = root ∨ s.log.rootChanges = [root]

theorem RestoresRoot.rollback (h : RestoresRoot root s) (clear : σ → σ) :
    (rollback clear s).rootCache = root := by
  rw [(rollback_fields clear s).1]
  rcases h with ⟨hnone, hsame⟩ | hone
  · rw [hnone]
    exact hsame
  · rw [hone]
    rfl

/-- The root does not grow a second time: the log's old roots are drained from the first
to the last, and the last is then a page that is removed. -/
def RootReady {K E X : Type} (cfg : TreeConfig K) (s : IndexState (Page K E X) σ) : Prop :=
  s.log.rootChanges = [] ∨ HasRoom cfg s.pages s.rootCache

theorem RestoresRoot.step {K E X : Type} {cfg : TreeConfig K} {s s' : IndexState (Page K E X) σ}
    (h : RestoresRoot root s) (hready : RootReady cfg s)
    (hroots : RootStep cfg s s') : RestoresRoot root s' := by
  rcases hroots with ⟨hroot, hchanges⟩ | ⟨hchanges, hfull⟩
  · rwa [RestoresRoot, hroot, hchanges]
  · have hempty : s.log.rootChanges = [] := hready.resolve_right hfull
    rcases h with ⟨-, hroot⟩ | hone
    · exact .inr (by rw [hchanges, hempty, hroot, nil_append])
    · rw [hempty] at hone
      cases hone

end

/-! ## Steps that keep the log -/

section
variable {K P σ α β : Type} {b s s' s'' : IndexState P σ} {i : Nat} {page : P}

/-- A part of a write that keeps the log: what it led back to, it still leads back
to. -/
structure Tracks (s s' : IndexState P σ) : Prop where
  undo : ∀ b, Undo b s → Undo b s'
  logged : ∀ i, s.Logged i → s'.Logged i
  nextPage : s.nextPage ≤ s'.nextPage

theorem Tracks.refl (s : IndexState P σ) : Tracks s s := ⟨fun _ h => h, fun _ h => h, le_rfl⟩

theorem Tracks.trans (h1 : Tracks s s') (h2 : Tracks s' s'') : Tracks s s'' :=
  ⟨fun b h => h2.undo b (h1.undo b h), fun i h => h2.logged i (h1.logged i h),
    h1.nextPage.trans h2.nextPage⟩

theorem Tracks.of_same (hpages : s'.pages = s.pages) (hmutations : s'.log.pageMutations =
    s.log.pageMutations) (hnew : s'.log.newPages = s.log.newPages)
    (hnext : s.nextPage ≤ s'.nextPage) : Tracks s s' := by
  have hlogged : ∀ i, s'.Logged i ↔ s.Logged i := by
    intro i
    rw [IndexState.Logged, IndexState.Logged, TxnMutationLog.hasCaptured,
      TxnMutationLog.hasCaptured, hmutations, hnew]
  refine ⟨fun b h => ⟨?_, fun i hi => ?_, ?_⟩, fun i h => (hlogged i).mpr h, hnext⟩
  · rw [hpages, hmutations, hnew]
    exact h.captured
  · rw [hpages]
    exact h.untouched i fun h' => hi ((hlogged i).mpr h')
  · rw [hnew]
    exact h.new

theorem Tracks.write (hi : s.Logged i) (page : P) :
    Tracks s { s with pages := update s.pages i (some page) } := by
  refine ⟨fun b h => ⟨fun j q hmem => ?_, fun j hj => ?_, h.new⟩, fun _ h => h, le_rfl⟩
  · refine (h.captured j q hmem).imp_right fun hq => ⟨hq.1, ?_⟩
    by_cases hj : j = i
    · simp [hj]
    · simpa [update_of_ne hj] using hq.2
  · have hne : j ≠ i := fun heq => hj (heq ▸ hi)
    exact (update_of_ne hne _ _).trans (h.untouched j hj)

theorem hasCaptured_append (log : TxnMutationLog P) (i j : Nat) (page : P) :
    ({ log with pageMutations := log.pageMutations ++ [(j, page)] } : TxnMutationLog P).hasCaptured i
      = (log.hasCaptured i || decide (j = i)) := by
  simp [TxnMutationLog.hasCaptured]

theorem Tracks.capture (hpage : s.pages i = some page) (hfirst : s.log.hasCaptured i = false) :
    Tracks s { s with
      log := { s.log with pageMutations := s.log.pageMutations ++ [(i, page)] } } := by
  have hmono : ∀ j, s.Logged j → IndexState.Logged { s with
      log := { s.log with pageMutations := s.log.pageMutations ++ [(i, page)] } } j := by
    intro j hj
    refine hj.imp_left fun hcaptured => ?_
    rw [hasCaptured_append, hcaptured, Bool.true_or]
  refine ⟨fun b h => ⟨fun j q hmem => ?_, fun j hj => h.untouched j fun h' => hj (hmono j h'),
    h.new⟩, hmono, le_rfl⟩
  rcases mem_append.mp hmem with hold | hnew
  · exact h.captured j q hold
  · obtain ⟨rfl, rfl⟩ := Prod.mk.inj (mem_singleton.mp hnew)
    by_cases hinstalled : j ∈ s.log.newPages
    · exact .inl hinstalled
    · refine .inr ⟨?_, ?_⟩
      · rw [← h.untouched j fun h' => h'.elim (by simp [hfirst]) hinstalled, hpage]
      · exact hpage.trans_ne (Option.some_ne_none _)

theorem Tracks.install (hfree : s.pages i = none) (page : P) : Tracks s { s with
    pages := update s.pages i (some page)
    log := { s.log with newPages := s.log.newPages ++ [i] } } := by
  refine ⟨fun b h => ⟨fun j q hmem => ?_, fun j hj => ?_, fun j hmem => ?_⟩,
    fun j h => h.imp_right (mem_append_left _), le_rfl⟩
  · refine (h.captured j q hmem).imp (mem_append_left _) fun hq => ⟨hq.1, ?_⟩
    by_cases hj : j = i
    · simp [hj]
    · simpa [update_of_ne hj] using hq.2
  · have hne : j ≠ i := fun heq => hj (.inr (by simp [heq]))
    refine (update_of_ne hne _ _).trans (h.untouched j fun h' => hj ?_)
    exact h'.imp_right (mem_append_left _)
  · rcases mem_append.mp hmem with hold | hnew
    · exact h.new j hold
    · obtain rfl := mem_singleton.mp hnew
      by_cases hinstalled : j ∈ s.log.newPages
      · exact h.new j hinstalled
      · rw [← h.untouched j, hfree]
        rintro (hcaptured | hinstalled')
        · obtain ⟨⟨j', q⟩, hmem', hj'⟩ := any_eq_true.mp hcaptured
          obtain rfl : j' = j := by simpa using hj'
          exact ((h.captured j' q hmem').resolve_left hinstalled).2 hfree
        · exact hinstalled hinstalled'

/-! ### Programs -/

/-- Every outcome of `x` keeps the log, and a result satisfies `post`. -/
def Tracked (s : IndexState P σ) (x : IndexM K P σ α) (post : α → IndexState P σ → Prop) : Prop :=
  match x s with
  | .ok a s' => Tracks s s' ∧ post a s'
  | .error _ s' => Tracks s s'

variable {x : IndexM K P σ α} {post mid : α → IndexState P σ → Prop}

theorem Tracked.bind {f : α → IndexM K P σ β}
    {post : β → IndexState P σ → Prop} (hx : Tracked s x mid)
    (hf : ∀ a s', Tracks s s' → mid a s' → Tracked s' (f a) post) : Tracked s (x >>= f) post := by
  rw [Tracked, bind_apply]
  rw [Tracked] at hx
  cases hrun : x s with rw [hrun] at hx
  | ok a s' =>
    have hrest := hf a s' hx.1 hx.2
    rw [Tracked] at hrest
    cases hrun' : f a s' with rw [hrun'] at hrest
    | ok =>
      simp only [hrun']
      exact ⟨hx.1.trans hrest.1, hrest.2⟩
    | error =>
      simp only [hrun']
      exact hx.1.trans hrest
  | error =>
    exact hx

theorem Tracked.of_ok {a : α} (hx : Tracked s x post) (hrun : x s = .ok a s') : Tracks s s' := by
  rw [Tracked, hrun] at hx
  exact hx.1

theorem Tracked.of_error {e : IndexError K} (hx : Tracked s x post) (hrun : x s = .error e s') :
    Tracks s s' := by
  rwa [Tracked, hrun] at hx

theorem Tracked.mono (hx : Tracked s x mid) (hpost : ∀ a s', Tracks s s' → mid a s' → post a s') :
    Tracked s x post := by
  rw [Tracked] at hx ⊢
  cases hrun : x s with rw [hrun] at hx
  | ok a s' =>
    exact ⟨hx.1, hpost a s' hx.1 hx.2⟩
  | error =>
    exact hx

theorem tracked_pure (a : α) (hpost : post a s) : Tracked s (pure a : IndexM K P σ α) post :=
  ⟨.refl s, hpost⟩

/-- A last step whose result is only returned in another form. -/
theorem Tracked.map {f : α → β} (hx : Tracked s x mid) :
    Tracked s (do return f (← x)) fun _ _ => True :=
  hx.bind fun _ _ _ _ => tracked_pure _ trivial

theorem Tracked.ite {c : Prop} [Decidable c] {y : IndexM K P σ α} (hx : c → Tracked s x post)
    (hy : ¬c → Tracked s y post) : Tracked s (if c then x else y) post := by
  split
  · exact hx ‹_›
  · exact hy ‹_›

theorem tracked_throw (e : IndexError K) (post : α → IndexState P σ → Prop) :
    Tracked s (throw e : IndexM K P σ α) post :=
  .refl s

theorem tracked_modify (f : IndexState P σ → IndexState P σ) (hf : Tracks s (f s)) :
    Tracked s (modify f : IndexM K P σ PUnit) fun _ s' => s' = f s :=
  ⟨hf, rfl⟩

theorem tracked_get : Tracked s (get : IndexM K P σ _) fun a s' => a = s ∧ s' = s :=
  ⟨.refl s, rfl, rfl⟩

theorem tracked_root : Tracked s (root : IndexM K P σ Nat) fun _ s' => s' = s :=
  ⟨.refl s, rfl⟩

theorem tracked_liftExcept (x : Except (IndexError K) α) :
    Tracked s (liftExcept x : IndexM K P σ α) fun _ s' => s' = s := by
  cases x with
  | ok => exact ⟨.refl s, rfl⟩
  | error => exact .refl s

theorem tracked_latch (i : Nat) :
    Tracked s (latch i : IndexM K P σ P) fun page s' => s' = s ∧ s.pages i = some page := by
  rw [Tracked, latch]
  cases hpage : s.pages i with
  | none => exact .refl s
  | some => exact ⟨.refl s, rfl, rfl⟩

theorem tracked_capture (hpage : s.pages i = some page) :
    Tracked s (captureFromGuard i page : IndexM K P σ Unit) fun _ s' => s'.Logged i := by
  rw [Tracked, captureFromGuard]
  by_cases hcaptured : s.log.hasCaptured i = true
  · rw [if_pos hcaptured]
    exact ⟨.refl s, .inl hcaptured⟩
  · rw [if_neg hcaptured]
    refine ⟨.capture hpage (by simpa using hcaptured), .inl ?_⟩
    simp [hasCaptured_append]

theorem tracked_latch_capture (i : Nat) {f : P → IndexM K P σ α}
    (hf : ∀ page s', s'.Logged i → Tracked s' (f page) post) :
    Tracked s (do let page ← latch i; captureFromGuard i page; f page) post := by
  refine (tracked_latch i).bind fun page s1 _ hlatch => ?_
  obtain ⟨rfl, hpage⟩ := hlatch
  exact (tracked_capture hpage).bind fun _ s2 _ hlogged => hf page s2 hlogged

theorem tracked_writePage (hi : s.Logged i) (page : P) :
    Tracked s (writePage i page : IndexM K P σ Unit) fun _ s' => s'.Logged i :=
  ⟨.write hi page, hi⟩

theorem tracked_alloc : Tracked s (alloc : IndexM K P σ Nat) fun _ _ => True :=
  ⟨.of_same rfl rfl rfl (Nat.le_succ _), trivial⟩

theorem tracked_stageEmit (i : Nat) (page : P) :
    Tracked s (stageEmit i page : IndexM K P σ Unit) fun _ _ => True :=
  ⟨.of_same rfl rfl rfl le_rfl, trivial⟩

variable (cfg : TreeConfig K)

theorem tracked_installForTxn (i : Nat) (page : P) :
    Tracked s (installForTxn cfg i page : IndexM K P σ Unit) fun _ _ => True := by
  cases hpage : s.pages i with
  | none =>
    rw [Tracked, installForTxn_of_none hpage]
    exact ⟨.install hpage page, trivial⟩
  | some =>
    rw [Tracked, installForTxn, bind_apply, install, hpage]
    exact .refl s

/-- The end of every split: both halves are emitted and the new page is installed. -/
theorem tracked_emitSplit (newId id : Nat) (right left : P) (out : α) :
    Tracked s (do
      stageEmit newId right
      stageEmit id left
      installForTxn cfg newId right
      return out : IndexM K P σ α) fun _ _ => True := by
  refine (tracked_stageEmit _ _).bind fun _ s1 h1 _ => ?_
  refine (tracked_stageEmit _ _).bind fun _ s2 h2 _ => ?_
  exact (tracked_installForTxn _ _ _).map

end

/-! ## The tree code keeps the log -/

variable {K E X σ : Type} [LinearOrder K] {cfg : TreeConfig K}
  {s : IndexState (Page K E X) σ} {id : Nat}

theorem tracked_insertSplit (cfg : TreeConfig K) (hid : s.Logged id) (incoming : SplitInfo K) :
    Tracked s (insertSplit (E := E) (X := X) cfg id incoming) fun _ _ => True := by
  refine .bind (tracked_latch id) fun page s1 h1 hlatch => ?_
  have hid1 := h1.logged id hid
  cases page with
  | leaf => exact tracked_throw _ _
  | overflow => exact tracked_throw _ _
  | internal _ pairs =>
    refine .ite (fun _ => ?_) fun _ => ?_
    · refine tracked_alloc.bind fun newId s2 h2 _ => ?_
      refine (tracked_liftExcept _).bind fun halves s3 h3 _ => ?_
      have hid3 := h3.logged id (h2.logged id hid1)
      refine (tracked_writePage hid3 _).bind fun _ s4 h4 hid4 => ?_
      refine .ite (fun _ => ?_) fun _ => ?_
      · refine (tracked_liftExcept _).bind fun left s5 h5 _ => ?_
        refine (tracked_writePage (h5.logged id hid4) _).bind fun _ s6 h6 _ => ?_
        exact tracked_emitSplit _ _ _ _ _ _
      · refine (tracked_liftExcept _).bind fun right s5 h5 _ => ?_
        exact tracked_emitSplit _ _ _ _ _ _
    · refine (tracked_liftExcept _).bind fun pairs' s2 h2 _ => ?_
      refine (tracked_writePage (h2.logged id hid1) _).bind fun _ s3 h3 _ => ?_
      exact (tracked_stageEmit _ _).map

theorem tracked_newRoot (cfg : TreeConfig K) (split : SplitInfo K) :
    Tracked s (newRoot (E := E) (X := X) cfg split) fun _ _ => True := by
  refine tracked_root.bind fun oldRoot s1 h1 _ => ?_
  refine tracked_alloc.bind fun newRootId s2 h2 _ => ?_
  refine (tracked_liftExcept _).bind fun pairs s3 h3 _ => ?_
  refine (tracked_modify _ (.of_same rfl rfl rfl le_rfl)).bind fun _ s4 h4 _ => ?_
  refine (tracked_stageEmit _ _).bind fun _ s5 h5 _ => ?_
  refine (tracked_installForTxn _ _ _).bind fun _ s6 h6 _ => ?_
  exact (tracked_modify _ (.of_same rfl rfl rfl le_rfl)).map

-- what the descent establishes of the pages of the path, and the way back up needs
variable {Q : IndexState (Page K E X) σ → Nat → Prop}
  {visit : Nat → Page K E X → IndexM K (Page K E X) σ Unit}
  {apply : Nat → SplitInfo K → IndexM K (Page K E X) σ (Option (SplitInfo K))}

theorem tracked_descendWrite (hQ : ∀ s s' i, Tracks s s' → Q s i → Q s' i)
    (hvisit : ∀ s id page, s.pages id = some page →
      Tracked s (visit id page) fun _ s' => Q s' id) (k : K) (fuel top : Nat) (above : List Nat)
    (htop : Q s top) (habove : ∀ i ∈ above, Q s i) :
    Tracked s (descendWrite cfg visit k fuel top above) fun r s' =>
      Q s' r.1 ∧ ∀ i ∈ r.2, Q s' i := by
  induction fuel generalizing s top above with
  | zero => exact tracked_throw _ _
  | succ _ ih =>
    refine (tracked_latch top).bind fun page s1 h1 hlatch => ?_
    have htop1 := hQ _ _ _ h1 htop
    have habove1 : ∀ i ∈ above, Q s1 i := fun i hi => hQ _ _ _ h1 (habove i hi)
    cases page with
    | leaf => exact tracked_pure _ ⟨htop1, habove1⟩
    | overflow => exact tracked_throw _ _
    | internal =>
      refine (tracked_latch _).bind fun child s2 h2 hchild => ?_
      obtain ⟨rfl, hchild⟩ := hchild
      refine (hvisit s2 _ child hchild).bind fun _ s3 h3 hQ3 => ?_
      refine (tracked_liftExcept _).bind fun safe s4 h4 _ => ?_
      refine ih _ _ (hQ _ _ _ h4 hQ3) fun i hi => ?_
      have h24 := h3.trans h4
      cases safe with
      | true => cases hi
      | false =>
        rcases mem_cons.mp hi with rfl | hi
        · exact hQ _ _ _ h24 htop1
        · exact hQ _ _ _ h24 (habove1 i hi)

omit [LinearOrder K] in
theorem tracked_propagate (hQ : ∀ s s' i, Tracks s s' → Q s i → Q s' i)
    (happly : ∀ s id split, Q s id → Tracked s (apply id split) fun _ _ => True)
    (path : List Nat) (pending : Option (SplitInfo K)) (hpath : ∀ i ∈ path, Q s i) :
    Tracked s (propagate apply path pending) fun _ _ => True := by
  induction path generalizing s pending with
  | nil => cases pending <;> exact tracked_pure _ trivial
  | cons parent _ ih =>
    cases pending with
    | none => exact tracked_pure _ trivial
    | some split =>
      refine (happly s parent split (hpath parent mem_cons_self)).bind
        fun pending s1 h1 _ => ih pending fun i hi => ?_
      exact hQ _ _ _ h1 (hpath i (mem_cons_of_mem _ hi))

theorem tracked_absorb (hQ : ∀ s s' i, Tracks s s' → Q s i → Q s' i)
    (happly : ∀ s id split, Q s id → Tracked s (apply id split) fun _ _ => True)
    (cfg : TreeConfig K) (publish : Nat → σ → σ) (path : List Nat)
    (pending : Option (SplitInfo K)) (hpath : ∀ i ∈ path, Q s i) :
    Tracked s (absorb cfg apply publish path pending) fun _ _ => True := by
  refine (tracked_propagate hQ happly path pending hpath).bind fun pending s1 h1 _ => ?_
  cases pending with
  | none => exact tracked_pure _ trivial
  | some split =>
    refine (tracked_newRoot cfg split).bind fun newRootId s2 h2 _ => ?_
    exact (tracked_modify _ (.of_same rfl rfl rfl le_rfl)).mono fun _ _ _ _ => trivial

end ArcGraph.Index
