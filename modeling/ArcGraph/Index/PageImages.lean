import ArcGraph.Foundation.Sorting
import ArcGraph.Index.Commits

/-!
# Replay of page images

A builder's index write stages the image of every page it changed (`emits_writeDeferred`),
so that installing the staged images of all writes in the order of the writes rebuilds
the live pages. A bundle holds the images of one commit, and replay installs the bundles
in the order of their LSNs. The two orders agree if no commit writes to a page after one
with a larger LSN has (`InLsnOrder`).
-/

namespace ArcGraph.Index
open Foundation Function List System

/-! ## Writes that stage what they change -/

section
variable {K P σ α β : Type} {s s' s'' : IndexState P σ} (pages : Nat → Option P)

def installAll (images : List (Nat × P)) : Nat → Option P :=
  images.foldl (fun pages image => update pages image.1 (some image.2)) pages

theorem installAll_append (images images' : List (Nat × P)) :
    installAll pages (images ++ images') = installAll (installAll pages images) images' :=
  foldl_append

/-- The images staged on the way from `s` to `s'` are what became of the pages. -/
def Emitted (s s' : IndexState P σ) : Prop :=
  ∃ images, s'.staged = s.staged ++ images ∧ s'.pages = installAll s.pages images

theorem Emitted.of_same (hpages : s'.pages = s.pages) (hstaged : s'.staged = s.staged) :
    Emitted s s' := ⟨[], by rw [hstaged, append_nil], hpages⟩

theorem Emitted.trans (h : Emitted s s') (h' : Emitted s' s'') : Emitted s s'' := by
  obtain ⟨images, hstaged, hpages⟩ := h
  obtain ⟨images', hstaged', hpages'⟩ := h'
  refine ⟨images ++ images', ?_, ?_⟩
  · rw [hstaged', hstaged, append_assoc]
  · rw [hpages', hpages, installAll_append]

/-- A part of a write that, if it succeeds, has staged what it changed. -/
def Emits (x : IndexM K P σ α) : Prop := ∀ s a s', x s = .ok a s' → Emitted s s'

variable {x : IndexM K P σ α} {f : α → IndexM K P σ β}

theorem Emits.bind (hx : Emits x) (hf : ∀ a, Emits (f a)) : Emits (x >>= f) := by
  intro s b s'' h
  obtain ⟨a, s', hrun, h⟩ := bind_ok h
  exact (hx s a s' hrun).trans (hf a s' b s'' h)

theorem emits_of_same (h : ∀ s a s', x s = .ok a s' → s'.pages = s.pages ∧ s'.staged = s.staged) :
    Emits x :=
  fun s a s' hrun => .of_same (h s a s' hrun).1 (h s a s' hrun).2

theorem emits_pure (a : α) : Emits (pure a : IndexM K P σ α) :=
  emits_of_same fun s a s' h => by cases h; exact ⟨rfl, rfl⟩

theorem emits_throw (e : IndexError K) : Emits (throw e : IndexM K P σ α) :=
  fun s a s' h => by cases h

theorem Emits.ite {c : Prop} [Decidable c] {y : IndexM K P σ α} (hx : Emits x) (hy : Emits y) :
    Emits (if c then x else y) := by
  split
  · exact hx
  · exact hy

theorem emits_root : Emits (root : IndexM K P σ Nat) :=
  emits_of_same fun s a s' h => by cases h; exact ⟨rfl, rfl⟩

theorem emits_alloc : Emits (alloc : IndexM K P σ Nat) :=
  emits_of_same fun s a s' h => by cases h; exact ⟨rfl, rfl⟩

theorem emits_modify (f : IndexState P σ → IndexState P σ)
    (hf : ∀ s, (f s).pages = s.pages ∧ (f s).staged = s.staged) :
    Emits (modify f : IndexM K P σ PUnit) :=
  emits_of_same fun s a s' h => by cases h; exact hf s

theorem emits_liftExcept (x : Except (IndexError K) α) : Emits (liftExcept x : IndexM K P σ α) := by
  cases x with
  | ok a => exact emits_pure a
  | error e => exact emits_throw e

theorem emits_latch (i : Nat) : Emits (latch i : IndexM K P σ P) := by
  intro s page s' h
  rw [latch] at h
  cases hpage : s.pages i with
  | none => simp [hpage] at h
  | some =>
    rw [hpage] at h
    cases h
    exact .of_same rfl rfl

theorem emits_capture (i : Nat) (page : P) : Emits (captureFromGuard i page : IndexM K P σ Unit) := by
  intro s a s' h
  rw [captureFromGuard] at h
  by_cases hcaptured : s.log.hasCaptured i = true
  · rw [if_pos hcaptured] at h
    cases h
    exact .of_same rfl rfl
  · rw [if_neg hcaptured] at h
    cases h
    exact .of_same rfl rfl

/-! ### Pages that are written -/

variable {i : Nat} {page : P} {cfg : TreeConfig K}

theorem emits_write (i : Nat) (page : P) (hx : Emits x) :
    Emits (do writePage i page; stageEmit i page; x) := by
  intro s a s' h
  rw [bind_apply, writePage_apply] at h
  refine .trans ⟨[(i, page)], ?_, ?_⟩ (hx _ a s' h)
  · rfl
  · rfl

theorem emits_write_lift {x : Except (IndexError K) α} (h : ∀ a, Emits (do writePage i page; f a)) :
    Emits (do writePage i page; f (← liftExcept x)) := by
  cases x with
  | ok a => exact h a
  | error => exact fun s b s' hrun => by cases hrun

theorem emits_write_write {page' : P} (h : Emits (do writePage i page'; x)) :
    Emits (do writePage i page; writePage i page'; x) := by
  intro s a s' hrun
  refine h s a s' ?_
  simpa only [bind_apply, writePage_apply, update_idem] using hrun

theorem installForTxn_ok {newId : Nat} {a : Unit} (h : installForTxn cfg newId page s = .ok a s') :
    s.pages newId = none ∧ s'.pages = update s.pages newId (some page) ∧ s'.staged = s.staged := by
  cases hpage : s.pages newId with
  | none =>
    rw [installForTxn_of_none hpage] at h
    cases h
    exact ⟨rfl, rfl, rfl⟩
  | some =>
    simp only [installForTxn, bind_apply, install, hpage] at h
    cases h

theorem emits_install (newId : Nat) (page : P) (hx : Emits x) :
    Emits (do stageEmit newId page; installForTxn cfg newId page; x) := by
  intro s a s' h
  rw [bind_apply, stageEmit_apply] at h
  obtain ⟨_, s1, hinstall, h⟩ := bind_ok h
  obtain ⟨-, hpages, hstaged⟩ := installForTxn_ok hinstall
  exact .trans ⟨[(newId, page)], hstaged, hpages⟩ (hx s1 a s' h)

theorem emits_split (newId : Nat) (left right : P) (hx : Emits x) :
    Emits (do
      writePage i left
      stageEmit newId right
      stageEmit i left
      installForTxn cfg newId right
      x) := by
  intro s a s' h
  have h : (installForTxn cfg newId right >>= fun _ => x) { s with
      pages := update s.pages i (some left)
      staged := s.staged ++ [(newId, right)] ++ [(i, left)] } = .ok a s' := h
  obtain ⟨_, s1, hinstall, h⟩ := bind_ok h
  obtain ⟨hfree, hpages, hstaged⟩ := installForTxn_ok hinstall
  have hne : newId ≠ i := by
    rintro rfl
    simp at hfree
  refine .trans ⟨[(newId, right), (i, left)], ?_, ?_⟩ (hx s1 a s' h)
  · rw [hstaged, append_assoc]
    rfl
  · rw [hpages]
    exact update_comm hne.symm _ _ _

end

/-! ## The tree code -/

section
variable {K E X σ : Type} [LinearOrder K] (cfg : TreeConfig K)

theorem emits_insertSplit (id : Nat) (incoming : SplitInfo K) :
    Emits (insertSplit (E := E) (X := X) (σ := σ) cfg id incoming) := by
  refine (emits_latch id).bind fun page => ?_
  cases page with
  | leaf => exact emits_throw _
  | overflow => exact emits_throw _
  | internal _ pairs =>
    refine .ite ?_ ?_
    · refine emits_alloc.bind fun newId => (emits_liftExcept _).bind fun halves => ?_
      by_cases hlt : incoming.promotedKey < halves.promotedKey
      · simp only [if_pos hlt]
        exact emits_write_lift fun left =>
          emits_write_write (emits_split newId _ _ (emits_pure _))
      · simp only [if_neg hlt]
        exact emits_write_lift fun right => emits_split newId _ _ (emits_pure _)
    · exact (emits_liftExcept _).bind fun pairs => emits_write id _ (emits_pure _)

theorem emits_newRoot (split : SplitInfo K) :
    Emits (newRoot (E := E) (X := X) (σ := σ) cfg split) := by
  refine emits_root.bind fun oldRoot => emits_alloc.bind fun newRootId =>
    (emits_liftExcept _).bind fun pairs => .bind (emits_modify _ ?_) fun _ => ?_
  · exact fun _ => ⟨rfl, rfl⟩
  · refine emits_install newRootId _ (.bind (emits_modify _ ?_) fun _ => emits_pure _)
    exact fun _ => ⟨rfl, rfl⟩

variable {visit : Nat → Page K E X → IndexM K (Page K E X) σ Unit}
  {apply : Nat → SplitInfo K → IndexM K (Page K E X) σ (Option (SplitInfo K))}

theorem emits_descendWrite (hvisit : ∀ id page, Emits (visit id page)) (k : K) (fuel top : Nat)
    (above : List Nat) : Emits (descendWrite cfg visit k fuel top above) := by
  induction fuel generalizing top above with
  | zero => exact emits_throw _
  | succ _ ih =>
    refine (emits_latch top).bind fun page => ?_
    cases page with
    | leaf => exact emits_pure _
    | overflow => exact emits_throw _
    | internal =>
      refine (emits_latch _).bind fun child => (hvisit _ child).bind fun _ => ?_
      exact (emits_liftExcept _).bind fun safe => ih _ _

omit [LinearOrder K] in
theorem emits_propagate (happly : ∀ id split, Emits (apply id split)) (path : List Nat)
    (pending : Option (SplitInfo K)) : Emits (propagate apply path pending) := by
  induction path generalizing pending with
  | nil => cases pending <;> exact emits_pure _
  | cons parent _ ih =>
    cases pending with
    | none => exact emits_pure _
    | some split => exact (happly parent split).bind fun pending => ih pending

theorem emits_absorb (happly : ∀ id split, Emits (apply id split)) (publish : Nat → σ → σ)
    (path : List Nat) (pending : Option (SplitInfo K)) :
    Emits (absorb cfg apply publish path pending) := by
  refine (emits_propagate happly path pending).bind fun pending => ?_
  cases pending with
  | none => exact emits_pure _
  | some split =>
    exact (emits_newRoot cfg split).bind fun newRootId => emits_modify _ fun _ => ⟨rfl, rfl⟩

end

namespace Primary

/-! ## The primary index -/

section
variable {leafId : Nat} {images : List (Nat × PrimaryPage)}

section
variable (entries : List LeafEntry)

theorem emits_finishLeaf (previous : Option PageSlot) :
    Emits (finishLeaf leafId entries previous) := emits_write leafId _ (emits_pure _)

variable (key : PrimaryKey)

theorem emits_splitAndInsert (value : PageSlot) :
    Emits (splitAndInsert leafId entries key value) := by
  refine emits_alloc.bind fun newId => (emits_liftExcept _).bind fun halves => ?_
  by_cases hlt : key < halves.promotedKey
  · simp only [if_pos hlt]
    exact emits_write_lift fun left => emits_write_write (emits_split newId _ _ (emits_pure _))
  · simp only [if_neg hlt]
    exact emits_write_lift fun right => emits_split newId _ _ (emits_pure _)

theorem emits_applyOp (value : Option PageSlot)
    (op : WriteOp) : Emits (applyOp leafId entries key value op) := by
  cases op with
  | insert =>
    cases value with
    | none => exact emits_throw _
    | some v =>
      refine .ite (emits_splitAndInsert entries key v) ?_
      exact (emits_liftExcept _).bind fun new => emits_finishLeaf new none
  | upsert =>
    cases value with
    | none => exact emits_throw _
    | some v =>
      refine .ite ?_ (emits_splitAndInsert entries key v)
      exact (emits_liftExcept _).bind fun new => emits_finishLeaf new.1 new.2
  | remove => exact emits_finishLeaf _ _

end

theorem emits_applyLeafOp (leafId : Nat) (key : PrimaryKey) (value : Option PageSlot)
    (op : WriteOp) : Emits (applyLeafOp leafId key value op) := by
  refine (emits_latch leafId).bind fun page => (emits_capture leafId page).bind fun _ => ?_
  cases page with
  | leaf entries => exact emits_applyOp entries key value op
  | internal => exact emits_throw _
  | overflow => exact emits_throw _

theorem emits_applyInternalInsert (pageId : Nat) (incoming : SplitInfo PrimaryKey) :
    Emits (applyInternalInsert pageId incoming) :=
  (emits_latch pageId).bind fun page => (emits_capture pageId page).bind fun _ =>
    emits_insertSplit config pageId incoming

theorem writeDeferred_images {s s' : State} {key : PrimaryKey} {value : Option PageSlot}
    {op : WriteOp} {result : WriteResult}
    (h : writeDeferred key value op s = .ok (result, images) s') :
    s'.pages = installAll s.pages images := by
  obtain ⟨_, _, hclear, h⟩ := bind_ok h
  obtain ⟨_, _, hroot, h⟩ := bind_ok h
  obtain ⟨_, _, hget, h⟩ := bind_ok h
  obtain ⟨⟨_, _⟩, _, hdesc, h⟩ := bind_ok h
  obtain ⟨⟨_, _⟩, _, hleaf, h⟩ := bind_ok h
  obtain ⟨_, _, habsorb, hreturn⟩ := bind_ok h
  cases hreturn
  cases hclear
  cases hroot
  cases hget
  obtain ⟨_, hstaged, hpages⟩ :=
    ((emits_descendWrite config (fun _ _ => emits_pure _) key _ _ _ _ _ _ hdesc).trans
      (emits_applyLeafOp _ _ _ _ _ _ _ hleaf)).trans
      (emits_absorb config emits_applyInternalInsert _ _ _ _ _ _ habsorb)
  rw [hpages, hstaged, nil_append]

theorem BuilderOp.run_images {i i' : State} {op : BuilderOp}
    (h : op.run i = .ok images i') : i'.pages = installAll i.pages images := by
  cases op with
  | upsert | remove =>
    obtain ⟨_, _, hwrite, h⟩ := bind_ok h
    obtain ⟨_, _, hrun, hwrite⟩ := bind_ok hwrite
    cases hwrite
    cases h
    exact writeDeferred_images hrun

end

/-! ## Replay -/

/-- Replay of the bundles in the order of their LSNs. -/
def replayPages (base : Nat → Option PrimaryPage) (wal : List (Nat × List (Nat × PrimaryPage))) :
    Nat → Option PrimaryPage :=
  (sortBy Prod.fst wal).foldl (fun pages bundle => installAll pages bundle.2) base

/-- No commit writes to a page after one with a larger LSN has, and every commit
succeeds. -/
def InLsnOrder (s : Shared) : Action → Prop
  | .write t op => ∀ c images i', s.commits t = some c → op.run (s.view c) = .ok images i' →
      ∀ t' c', s.commits t' = some c' → c.lsn < c'.lsn →
        ∀ image ∈ images, ∀ later ∈ c'.staged, later.1 ≠ image.1
  | .rollback _ => False
  | _ => True

variable {s s' : Shared} {t : TxnId} {c : Commit}

theorem installAll_update {P : Type} {images : List (Nat × P)} {i : Nat}
    (h : images.any (·.1 = i) = true) (pages : Nat → Option P) (page : Option P) :
    installAll (update pages i page) images = installAll pages images := by
  induction images generalizing pages with
  | nil => simp at h
  | cons image _ ih =>
    rw [installAll, installAll, foldl_cons, foldl_cons]
    by_cases hi : image.1 = i
    · rw [hi, update_idem]
    · rw [update_comm (Ne.symm hi)]
      exact ih (by simpa [hi] using h) _

theorem installAll_coalesce (images : List (Nat × PrimaryPage)) (pages : Nat → Option PrimaryPage) :
    installAll pages (coalesceStagedPages images) = installAll pages images := by
  induction images generalizing pages with
  | nil => rfl
  | cons image rest ih =>
    by_cases hagain : rest.any (·.1 = image.1) = true
    · rw [coalesceStagedPages, if_pos hagain, ih]
      exact (installAll_update hagain pages _).symm
    · rw [coalesceStagedPages, if_neg hagain]
      exact ih _

theorem update_installAll {P : Type} {images : List (Nat × P)} {i : Nat}
    (h : ∀ image ∈ images, image.1 ≠ i) (pages : Nat → Option P) (page : Option P) :
    update (installAll pages images) i page = installAll (update pages i page) images := by
  induction images generalizing pages with
  | nil => rfl
  | cons image _ ih =>
    obtain ⟨himage, h⟩ := forall_mem_cons.mp h
    exact (ih h _).trans (congrArg (installAll · _) (update_comm himage _ _ _))

theorem installAll_comm {P : Type} {images later : List (Nat × P)}
    (h : ∀ image ∈ images, ∀ l ∈ later, l.1 ≠ image.1) (pages : Nat → Option P) :
    installAll (installAll pages later) images = installAll (installAll pages images) later := by
  induction images generalizing pages with
  | nil => rfl
  | cons image images ih =>
    obtain ⟨himage, h⟩ := forall_mem_cons.mp h
    exact (congrArg (installAll · images) (update_installAll himage _ _)).trans (ih h _)

/-- The commits in the order of their LSNs: the pages are the images of all of them,
and the WAL has the bundles of those that were appended. -/
structure Recorded (s : Shared) (order : List (TxnId × Commit)) : Prop where
  represents : ∃ m, Represents s.index m
  commits : ∀ t c, s.commits t = some c ↔ (t, c) ∈ order
  lsns : order.Pairwise fun a b => a.2.lsn < b.2.lsn
  next : ∀ a ∈ order, a.2.lsn < s.nextLsn
  pages : s.index.pages = installAll new.pages (order.flatMap (·.2.staged))
  alive : ∀ a ∈ order, a.2.phase ≠ .failed
  distinct : (s.wal.map Prod.fst).Nodup
  wal : ∀ bundle, bundle ∈ s.wal ↔ ∃ a ∈ order, a.2.phase ≠ .building ∧
    bundle = (a.2.lsn, coalesceStagedPages a.2.staged)

section
variable {order a b : List (TxnId × Commit)}

theorem recorded_init : Recorded commits.init [] := by
  refine ⟨⟨_, represents_new⟩, ?_, Pairwise.nil, ?_, rfl, ?_, ?_, ?_⟩ <;> simp [commits]

section
variable (h : Recorded s (a ++ (t, c) :: b))
include h

theorem Recorded.notMem (x : Commit) : (t, x) ∉ a ∧ (t, x) ∉ b := by
  have hsame : (t, x) ∈ a ++ (t, c) :: b → x = c := fun hx =>
    Option.some.inj (((h.commits t x).mpr hx).symm.trans ((h.commits t c).mpr (by simp)))
  obtain ⟨-, hbelow, habove⟩ := pairwise_append.mp h.lsns
  refine ⟨fun hx => ?_, fun hx => ?_⟩
  · obtain rfl := hsame (mem_append_left _ hx)
    exact absurd (habove _ hx _ mem_cons_self) (lt_irrefl _)
  · obtain rfl := hsame (mem_append_right _ (mem_cons_of_mem _ hx))
    exact absurd ((pairwise_cons.mp hbelow).1 _ hx) (lt_irrefl _)

theorem Recorded.replace (c' : Commit) (hlsn : c'.lsn = c.lsn)
    (hphase : c'.phase ≠ .failed) (hcommits : s'.commits = update s.commits t (some c'))
    (hnext : s'.nextLsn = s.nextLsn) (hrep : ∃ m, Represents s'.index m)
    (hpages : s'.index.pages = installAll new.pages ((a ++ (t, c') :: b).flatMap (·.2.staged)))
    (hdistinct : (s'.wal.map Prod.fst).Nodup)
    (hwal : ∀ bundle, bundle ∈ s'.wal ↔ ∃ x ∈ a ++ (t, c') :: b, x.2.phase ≠ .building ∧
      bundle = (x.2.lsn, coalesceStagedPages x.2.staged)) : Recorded s' (a ++ (t, c') :: b) := by
  refine ⟨hrep, fun t' x => ?_, ?_, ?_, hpages, ?_, hdistinct, hwal⟩
  · rw [hcommits]
    by_cases ht : t' = t
    · subst ht
      have hnot := h.notMem x
      simp [hnot.1, hnot.2, eq_comm]
    · rw [update_of_ne ht, h.commits]
      simp [ht]
  · obtain ⟨ha, hcb, hab⟩ := pairwise_append.mp h.lsns
    obtain ⟨hcb, hb⟩ := pairwise_cons.mp hcb
    refine pairwise_append.mpr ⟨ha, pairwise_cons.mpr ⟨fun x hx => ?_, hb⟩, fun x hx => ?_⟩
    · simpa only [hlsn] using hcb x hx
    · obtain ⟨hac, hab⟩ := forall_mem_cons.mp (hab x hx)
      exact forall_mem_cons.mpr ⟨by simpa only [hlsn] using hac, hab⟩
  · obtain ⟨ha, hcb⟩ := forall_mem_append.mp h.next
    obtain ⟨hc, hb⟩ := forall_mem_cons.mp hcb
    rw [hnext]
    exact forall_mem_append.mpr ⟨ha, forall_mem_cons.mpr ⟨by simpa only [hlsn] using hc, hb⟩⟩
  · obtain ⟨ha, hcb⟩ := forall_mem_append.mp h.alive
    obtain ⟨-, hb⟩ := forall_mem_cons.mp hcb
    exact forall_mem_append.mpr ⟨ha, forall_mem_cons.mpr ⟨hphase, hb⟩⟩

theorem Recorded.same_wal (c' : Commit)
    (hsame : c'.phase = .building ∧ c.phase = .building ∨ c'.phase ≠ .building ∧
      c.phase ≠ .building ∧ c'.lsn = c.lsn ∧ c'.staged = c.staged) (bundle) :
    bundle ∈ s.wal ↔ ∃ x ∈ a ++ (t, c') :: b, x.2.phase ≠ .building ∧
      bundle = (x.2.lsn, coalesceStagedPages x.2.staged) := by
  rw [h.wal]
  simp only [mem_append, mem_cons, or_and_right, exists_or, exists_eq_left]
  rcases hsame with ⟨h', h⟩ | ⟨h', h, hlsn, hstaged⟩
  · simp [h', h]
  · simp [h', h, hlsn, hstaged]

end

namespace Recorded

theorem allocate (h : Recorded s order) (hnew : s.commits t = none) :
    Recorded { s.setCommit t ⟨s.nextLsn, {}, [], [], .building⟩ with nextLsn := s.nextLsn + 1 }
      (order ++ [(t, ⟨s.nextLsn, {}, [], [], .building⟩)]) := by
  have hnot : ∀ x, (t, x) ∉ order := fun x hx => by
    rw [(h.commits t x).mpr hx] at hnew
    cases hnew
  refine ⟨h.represents, fun t' x => ?_, ?_, ?_, ?_, ?_, h.distinct, fun bundle => ?_⟩
  · rw [Shared.setCommit]
    by_cases ht : t' = t
    · subst ht
      simp [hnot, eq_comm]
    · simp [h.commits, ht]
  · refine pairwise_append.mpr ⟨h.lsns, pairwise_singleton _ _, fun x hx => ?_⟩
    exact forall_mem_singleton.mpr (h.next x hx)
  · refine forall_mem_append.mpr ⟨fun x hx => ?_, forall_mem_singleton.mpr (Nat.lt_succ_self _)⟩
    exact Nat.lt_succ_of_lt (h.next x hx)
  · simpa [Shared.setCommit] using h.pages
  · refine forall_mem_append.mpr ⟨h.alive, ?_⟩
    simp
  · simp only [Shared.setCommit, h.wal, mem_append, or_and_right, exists_or]
    simp

theorem write (h : Recorded s (a ++ (t, c) :: b)) (hphase : c.phase = .building) (op : BuilderOp)
    (hlast : ∀ images i', op.run (s.view c) = .ok images i' → ∀ x ∈ b, ∀ image ∈ images,
      ∀ later ∈ x.2.staged, later.1 ≠ image.1) : ∃ order', Recorded (s.write t c op) order' := by
  obtain ⟨m, hm⟩ := h.represents
  have hview : Represents (s.view c) m := hm.same rfl rfl le_rfl
  obtain ⟨images, i', hrun, hi', -⟩ := op.run_spec hview
  have himages : i'.pages = installAll (s.view c).pages images := BuilderOp.run_images hrun
  have happart : ∀ image ∈ images, ∀ later ∈ b.flatMap (·.2.staged), later.1 ≠ image.1 := by
    intro image himage later hlater
    obtain ⟨x, hx, hlater⟩ := mem_flatMap.mp hlater
    exact hlast images i' hrun x hx image himage later hlater
  rw [Shared.write, hrun]
  refine ⟨a ++ (t, { c with
    log := i'.log, scWrites := i'.extra, staged := c.staged ++ images }) :: b,
    h.replace _ rfl (by simp [hphase]) rfl rfl ⟨_, hi'⟩ ?_ h.distinct
      (h.same_wal _ (.inl ⟨hphase, hphase⟩))⟩
  show i'.pages = _
  -- the images of the later commits are on other pages, so these can go before them
  have hpages : s.index.pages =
      installAll (installAll new.pages (a.flatMap (·.2.staged) ++ c.staged))
        (b.flatMap (·.2.staged)) := by
    rw [h.pages, ← installAll_append]
    simp
  rw [himages, Shared.view, hpages, installAll_comm happart, ← installAll_append,
    ← installAll_append]
  simp

theorem append (h : Recorded s (a ++ (t, c) :: b)) (hphase : c.phase = .building) :
    Recorded { s.setCommit t { c with phase := .durable } with
      wal := s.wal ++ [(c.lsn, coalesceStagedPages c.staged)] }
      (a ++ (t, { c with phase := .durable }) :: b) := by
  refine h.replace _ rfl (by simp) rfl rfl h.represents ?_ ?_ fun bundle => ?_
  · simpa [Shared.setCommit] using h.pages
  · -- a bundle with the same LSN would be one of this commit
    have hfresh : c.lsn ∉ s.wal.map Prod.fst := by
      intro hmem
      obtain ⟨bundle, hbundle, hlsn⟩ := mem_map.mp hmem
      obtain ⟨x, hx, hdurable, rfl⟩ := (h.wal bundle).mp hbundle
      obtain ⟨-, hcb, hac⟩ := pairwise_append.mp h.lsns
      have hlsn' : x.2.lsn = c.lsn := hlsn
      rcases mem_append.mp hx with hx | hx
      · have hlt : x.2.lsn < c.lsn := hac x hx _ mem_cons_self
        omega
      · rcases mem_cons.mp hx with rfl | hx
        · exact hdurable hphase
        · have hlt : c.lsn < x.2.lsn := (pairwise_cons.mp hcb).1 x hx
          omega
    simp only [map_append, map_cons, map_nil]
    exact nodup_append.mpr ⟨h.distinct, by simp, fun x hx y hy => by
      rintro rfl
      exact hfresh (mem_singleton.mp hy ▸ hx)⟩
  · simp only [mem_append, h.wal, mem_cons, or_and_right, exists_or, exists_eq_left]
    simp only [hphase]
    grind

theorem step {act : Action} (h : Recorded s order) (hact : InLsnOrder s act)
    (hstep : s.step act = some s') : ∃ order', Recorded s' order' := by
  cases moves_of_step hstep with
  | allocate hnew => exact ⟨_, h.allocate hnew⟩
  | @write t c op hc hphase =>
    obtain ⟨a, b, rfl⟩ := append_of_mem ((h.commits t c).mp hc)
    refine h.write hphase op fun images i' hrun x hx => ?_
    have hlt := (pairwise_cons.mp (pairwise_append.mp h.lsns).2.1).1 x hx
    exact hact c images i' hc hrun x.1 x.2 ((h.commits _ _).mpr (by simp [hx])) hlt
  | @append t c hc hphase =>
    obtain ⟨a, b, rfl⟩ := append_of_mem ((h.commits t c).mp hc)
    exact ⟨_, h.append hphase⟩
  | @finish t c hc hphase hturn =>
    obtain ⟨a, b, rfl⟩ := append_of_mem ((h.commits t c).mp hc)
    refine ⟨a ++ (t, { c with phase := .finished }) :: b, h.replace _ rfl (by simp) rfl rfl
      h.represents ?_ h.distinct (h.same_wal _ (.inr ⟨by simp, by simp [hphase], rfl, rfl⟩))⟩
    simpa [Shared.setCommit] using h.pages
  | rollback => exact hact.elim

/-- With every commit in the WAL, the bundles in LSN order hold the images of all writes. -/
theorem replay (h : Recorded s order) (hdone : ∀ a ∈ order, a.2.phase ≠ .building) :
    replayPages new.pages s.wal = s.index.pages := by
  have hperm : (order.map fun a => (a.2.lsn, coalesceStagedPages a.2.staged)).Perm s.wal := by
    refine (perm_ext_iff_of_nodup ?_ (Nodup.of_map _ h.distinct)).mpr fun bundle => ?_
    · refine Nodup.of_map Prod.fst ?_
      rw [map_map]
      exact pairwise_map.mpr (h.lsns.imp fun hlt => hlt.ne)
    · rw [h.wal, mem_map]
      exact exists_congr fun a => ⟨fun ⟨ha, heq⟩ => ⟨ha, hdone a ha, heq.symm⟩,
        fun ⟨ha, _, heq⟩ => ⟨ha, heq.symm⟩⟩
  have hsorted : (order.map fun a => (a.2.lsn, coalesceStagedPages a.2.staged)).Pairwise
      fun a b => a.1 < b.1 := pairwise_map.mpr h.lsns
  have hfold : ∀ (l : List (TxnId × Commit)) (pages : Nat → Option PrimaryPage),
      l.foldl (fun pages a => installAll pages (coalesceStagedPages a.2.staged)) pages =
        installAll pages (l.flatMap (·.2.staged)) := by
    intro l
    induction l with
    | nil => exact fun _ => rfl
    | cons _ _ ih =>
      intro pages
      rw [foldl_cons, ih, installAll_coalesce, flatMap_cons, installAll_append]
  rw [replayPages, ← eq_sortBy_of_perm Prod.fst hsorted hperm, foldl_map, hfold, h.pages]

end Recorded
end

/-- When all commits have finished, replay of the bundles rebuilds the live pages. -/
theorem replay_rebuilds_pages (hs : commits.Reach InLsnOrder s)
    (hdone : ∀ t c, s.commits t = some c → c.phase = .finished) :
    replayPages new.pages s.wal = s.index.pages := by
  obtain ⟨order, h⟩ : ∃ order, Recorded s order :=
    hs.invariant (P := fun s => ∃ order, Recorded s order) ⟨[], recorded_init⟩
      fun s act s' ⟨order, h⟩ hact hstep => h.step hact hstep
  refine h.replay fun a ha => ?_
  rw [hdone a.1 a.2 ((h.commits _ _).mpr ha)]
  simp

/-- `InLsnOrder` for runs of the listed commits, where it can be evaluated. -/
def InLsnOrderIn (ts : List TxnId) (s : Shared) (a : Action) : Prop :=
  a.txn ∈ ts ∧
    match a with
    | .write t _ => ∀ t' ∈ ts, ∀ c ∈ s.commits t, ∀ c' ∈ s.commits t', c.lsn < c'.lsn →
        c'.staged.isEmpty = true
    | .rollback _ => False
    | _ => True

instance (ts : List TxnId) (s : Shared) (a : Action) : Decidable (InLsnOrderIn ts s a) := by
  unfold InLsnOrderIn
  cases a <;> infer_instance

theorem reach_of_listed {ts : List TxnId} (h : commits.Reach (InLsnOrderIn ts) s) :
    commits.Reach InLsnOrder s ∧ ∀ t, t ∉ ts → s.commits t = none := by
  refine h.strengthen (P := fun s => ∀ t, t ∉ ts → s.commits t = none) (fun _ _ => rfl) ?_
  intro s act s' hidle hact hs
  refine ⟨?_, fun t ht => ?_⟩
  swap
  · have hne : t ≠ act.txn := fun heq => ht (heq ▸ hact.1)
    exact (commits_of_step hs hne).trans (hidle t ht)
  cases act with
  | write t op =>
    intro c _ _ hc _ t' c' hc' hlt
    have ht' : t' ∈ ts := by
      by_contra hnot
      rw [hidle t' hnot] at hc'
      cases hc'
    simp [isEmpty_iff.mp (hact.2 t' ht' c hc c' hc' hlt)]
  | rollback => exact hact.2
  | _ => trivial

/-- Commit 1 writes, then commit 2 to the same page, and commit 2 is appended first. -/
theorem replay_rebuilds_pages_sharedLeaf :
    ∃ s : Shared, s.writes = [(1, .upsert ⟨1, .node, 7⟩ ⟨5, 6⟩), (2, .upsert ⟨1, .node, 8⟩ ⟨3, 4⟩)] ∧
      replayPages new.pages s.wal = s.index.pages := by
  let s := commits.after (InLsnOrderIn [1, 2]) [.allocate 1, .allocate 2,
    .write 1 (.upsert ⟨1, .node, 7⟩ ⟨5, 6⟩), .write 2 (.upsert ⟨1, .node, 8⟩ ⟨3, 4⟩), .append 2,
    .append 1, .finish 1, .finish 2]
  obtain ⟨h, hidle⟩ : commits.Reach InLsnOrder s ∧ _ := reach_of_listed (.after (by decide +kernel))
  have hall : ∀ t ∈ [1, 2], ∀ c ∈ s.commits t, c.phase = .finished := by decide +kernel
  refine ⟨s, by decide +kernel, replay_rebuilds_pages h fun t c hc => hall t ?_ c hc⟩
  by_contra hnot
  rw [hidle t hnot] at hc
  cases hc

/-- Commit 2 writes first, and commit 1 to the same page behind it: the image of commit 2,
which is replayed last, does not have the entry of commit 1. -/
theorem replay_loses_entry :
    (commits.runIf (fun _ _ => True) commits.init [.allocate 1, .allocate 2,
        .write 2 (.upsert ⟨1, .node, 8⟩ ⟨3, 4⟩), .write 1 (.upsert ⟨1, .node, 7⟩ ⟨5, 6⟩), .append 1,
        .append 2, .finish 1, .finish 2]).map (fun s =>
          (s.index.pages 1, replayPages new.pages s.wal 1)) =
      some (some (.leaf [⟨⟨1, .node, 7⟩, ⟨5, 6⟩, false⟩, ⟨⟨1, .node, 8⟩, ⟨3, 4⟩, false⟩]),
        some (.leaf [⟨⟨1, .node, 8⟩, ⟨3, 4⟩, false⟩])) := by
  decide +kernel

end Primary
end ArcGraph.Index
