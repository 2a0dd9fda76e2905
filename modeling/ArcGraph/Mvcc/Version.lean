import ArcGraph.Basic
import Mathlib.Data.List.ModifyLast
import Mathlib.Data.List.Pairwise
import Mathlib.Data.Finset.Max

/-!
# Versions and version chains

A chain is the vector of versions one key has. The commit path expires the live
last version and pushes a new one; rollback pops its own version and reopens the
predecessor; garbage collection keeps the versions whose expiry lies above an
anchor. The three operations keep one shape: expiry stamps repeat the creation
stamp of the next version. Such a chain is determined by its list of entries,
and on entries the three operations are an append, a removal of the last entry
and a removal of a leading part.
-/

namespace ArcGraph.Mvcc
open List

/-- One MVCC version of a key. `expiredLsn = none` stands for `Lsn::MAX`, and
`value = none` is a tombstone. -/
structure Version where
  createdLsn : Nat
  expiredLsn : Option Nat
  value : Option Bytes
deriving DecidableEq

variable (v : Version)

namespace Version

def isLive : Bool := v.expiredLsn.isNone

def visibleTo (snapshot : Nat) : Bool :=
  decide (v.createdLsn ≤ snapshot) && v.expiredLsn.all fun e => decide (snapshot < e)

theorem visibleTo_iff {v : Version} {snapshot : Nat} : v.visibleTo snapshot = true ↔
      v.createdLsn ≤ snapshot ∧ ∀ e, v.expiredLsn = some e → snapshot < e := by
  cases h : v.expiredLsn <;> simp [visibleTo, h]

end Version

abbrev VersionChain := List Version

namespace VersionChain
variable (lsn : Nat) (chain : VersionChain)

/-- `chain.last_mut()`, expired at `lsn` when it is live. -/
def expireLast : VersionChain :=
  chain.modifyLast fun v => if v.isLive then { v with expiredLsn := some lsn } else v

def install (value : Option Bytes) (chain : VersionChain) : VersionChain :=
  expireLast lsn chain ++ [{ createdLsn := lsn, expiredLsn := none, value := value }]

/-- `chain.last_mut()`, reopened when it was expired at `lsn`. -/
def reopenLast : VersionChain :=
  chain.modifyLast fun v => if v.expiredLsn = some lsn then { v with expiredLsn := none } else v

/-- The body of `rollback_writes` for one key: pop the last version only if it
carries our LSN, then reopen the predecessor we expired. -/
def rollback : VersionChain :=
  match chain.getLast? with
  | none => chain
  | some v => if v.createdLsn = lsn then reopenLast lsn chain.dropLast else chain

/-- `chain.retain(|v| v.expired_lsn > anchor)`. -/
def retain (anchor : Nat) (chain : VersionChain) : VersionChain :=
  chain.filter fun v => v.expiredLsn.all fun e => decide (anchor < e)

/-- Replace the value of the first version created at `lsn`. -/
def setValue (lsn : Nat) (value : Option Bytes) : VersionChain → VersionChain
  | [] => []
  | v :: rest =>
    if v.createdLsn = lsn then { v with value := value } :: rest
    else v :: setValue lsn value rest

variable (chain : VersionChain)

/-- The version a read at `snapshot` finds: the scan runs from the newest. -/
def readVersion (snapshot : Nat) : Option Version :=
  chain.reverse.find? (·.visibleTo snapshot)

def readAt (snapshot : Nat) : Option Bytes :=
  (readVersion chain snapshot).bind (·.value)

/-! ## Entries -/

abbrev Entry := Nat × Option Bytes

def entries : List Entry :=
  chain.map fun v => (v.createdLsn, v.value)

def render : List Entry → VersionChain
  | [] => []
  | [e] => [{ createdLsn := e.1, expiredLsn := none, value := e.2 }]
  | e :: f :: rest =>
    { createdLsn := e.1, expiredLsn := some f.1, value := e.2 } :: render (f :: rest)

/-- Creation stamps strictly increase, each version but the last expires at the
creation stamp of the next one, and the last is live. -/
structure WellFormed (chain : VersionChain) : Prop where
  sorted : (entries chain).Pairwise fun e f => e.1 < f.1
  rendered : render (entries chain) = chain

@[simp] theorem entries_nil : entries [] = [] := rfl

@[simp] theorem entries_cons :
    entries (v :: chain) = (v.createdLsn, v.value) :: entries chain := rfl

@[simp] theorem entries_append (c d : VersionChain) :
    entries (c ++ d) = entries c ++ entries d := by
  simp [entries]

variable {v : Version} {e : Entry} {es : List Entry} {chain : VersionChain} {snapshot lsn : Nat}
  {value : Option Bytes}

theorem mem_entries : e ∈ entries chain ↔ ∃ v ∈ chain, v.createdLsn = e.1 ∧ v.value = e.2 := by
  simp [entries, Prod.ext_iff]

@[simp] theorem entries_render (es : List Entry) : entries (render es) = es := by
  induction es with
  | nil => rfl
  | cons _ rest ih =>
    cases rest with
    | nil => rfl
    | cons => simp [render, ih]

theorem wellFormed_render (h : es.Pairwise fun e f => e.1 < f.1) : WellFormed (render es) :=
  ⟨by rwa [entries_render], by rw [entries_render]⟩

theorem wellFormed_nil : WellFormed [] := ⟨Pairwise.nil, rfl⟩

theorem entries_modifyLast {f : Version → Version}
    (hf : ∀ v, (f v).createdLsn = v.createdLsn ∧ (f v).value = v.value) (chain : VersionChain) :
    entries (chain.modifyLast f) = entries chain := by
  rcases eq_nil_or_concat chain with rfl | ⟨c, v, rfl⟩
  · rfl
  · simp [modifyLast_concat, hf v]

@[simp] theorem entries_expireLast (lsn : Nat) (chain : VersionChain) :
    entries (expireLast lsn chain) = entries chain :=
  entries_modifyLast (fun v => by split <;> exact ⟨rfl, rfl⟩) chain

@[simp] theorem entries_install (lsn : Nat) (value : Option Bytes) (chain : VersionChain) :
    entries (install lsn value chain) = entries chain ++ [(lsn, value)] := by
  simp [install]

theorem render_cons_ne_nil (e : Entry) (es : List Entry) : render (e :: es) ≠ [] := by
  cases es <;> simp [render]

theorem install_render (lsn : Nat) (value : Option Bytes) (es : List Entry) :
    install lsn value (render es) = render (es ++ [(lsn, value)]) := by
  induction es with
  | nil => rfl
  | cons e rest ih =>
    cases rest with
    | nil => rfl
    | cons f rest =>
      have hne := render_cons_ne_nil f rest
      simp only [install, expireLast, render, cons_append] at ih ⊢
      rw [← singleton_append, modifyLast_append_of_right_ne_nil _ _ _ hne, append_assoc, ih]
      rfl

theorem render_concat (es : List Entry) (e : Entry) :
    ∃ c, render (es ++ [e]) = c ++ [{ createdLsn := e.1, expiredLsn := none, value := e.2 }] := by
  rw [← install_render]
  exact ⟨_, rfl⟩

theorem WellFormed.install (h : WellFormed chain) (hlt : ∀ e ∈ entries chain, e.1 < lsn) :
    WellFormed (VersionChain.install lsn value chain) := by
  rw [← h.rendered, install_render]
  refine wellFormed_render (pairwise_append.mpr ⟨h.sorted, pairwise_singleton .., ?_⟩)
  intro e he f hf
  rw [mem_singleton.mp hf]
  exact hlt e he

theorem reopenLast_expireLast_render (lsn : Nat) (es : List Entry) :
    reopenLast lsn (expireLast lsn (render es)) = render es := by
  rcases eq_nil_or_concat es with rfl | ⟨init, e, rfl⟩
  · rfl
  · obtain ⟨c, hc⟩ := render_concat init e
    rw [concat_eq_append, hc]
    simp [reopenLast, expireLast, modifyLast_concat, Version.isLive]

theorem rollback_render (lsn : Nat) (value : Option Bytes) (es : List Entry) :
    rollback lsn (render (es ++ [(lsn, value)])) = render es := by
  rw [← install_render]
  simp [rollback, install, reopenLast_expireLast_render]

/-- Rolling back the last entry of a well-formed chain removes exactly it. -/
theorem WellFormed.rollback (h : WellFormed chain) (hes : entries chain = es ++ [(lsn, value)]) :
    WellFormed (VersionChain.rollback lsn chain) ∧
      entries (VersionChain.rollback lsn chain) = es := by
  have hsorted := h.sorted
  rw [hes] at hsorted
  rw [← h.rendered, hes, rollback_render]
  exact ⟨wellFormed_render (pairwise_append.mp hsorted).1, entries_render es⟩

theorem WellFormed.entry_unique (h : WellFormed chain)
    {v v' : Option Bytes} (hv : (lsn, v) ∈ entries chain) (hv' : (lsn, v') ∈ entries chain) :
    v = v' := by
  by_contra hne
  have : Std.Symm fun e f : Entry => e.1 < f.1 ∨ f.1 < e.1 := ⟨fun _ _ h => h.symm⟩
  have hor : (entries chain).Pairwise fun e f => e.1 < f.1 ∨ f.1 < e.1 := h.sorted.imp .inl
  have hlt := hor.forall hv hv' (by simp [hne])
  simp at hlt

/-! ## Garbage collection -/

/-- Retaining on a rendered chain drops a leading part. Every dropped entry has
a kept successor at or below the anchor. -/
theorem retain_render (anchor : Nat) (h : es.Pairwise fun e f => e.1 < f.1) :
    ∃ kept, kept <:+ es ∧ retain anchor (render es) = render kept ∧
      ∀ e ∈ es, e ∈ kept ∨ ∃ f ∈ kept, e.1 < f.1 ∧ f.1 ≤ anchor := by
  induction es with
  | nil => exact ⟨[], suffix_rfl, rfl, by simp⟩
  | cons e rest ih =>
    cases rest with
    | nil => exact ⟨[e], suffix_rfl, by simp [render, retain], by simp⟩
    | cons f rest =>
      obtain ⟨he, hrest⟩ := pairwise_cons.mp h
      obtain ⟨kept, hsuf, hret, hcov⟩ := ih hrest
      by_cases ha : anchor < f.1
      · -- every later expiry stamp lies above the anchor as well
        have hall : kept = f :: rest := by
          have hin : ∀ g ∈ f :: rest, g ∈ kept := by
            intro g hg
            rcases hcov g hg with hk | ⟨k, hk, hgk, hka⟩
            · exact hk
            · have hfk : f.1 ≤ k.1 := by
                rcases mem_cons.mp (hsuf.subset hk) with rfl | hk'
                · exact le_refl _
                · exact le_of_lt ((pairwise_cons.mp hrest).1 k hk')
              omega
          have hlen : (f :: rest).length ≤ kept.length := by
            have hnd : (f :: rest).Nodup :=
              hrest.imp fun {a b} hab => by rintro rfl; exact lt_irrefl _ hab
            exact (subperm_of_subset hnd hin).length_le
          exact hsuf.eq_of_length_le hlen
        subst hall
        refine ⟨e :: f :: rest, suffix_rfl, ?_, fun g hg => .inl hg⟩
        simp only [retain, render] at hret ⊢
        rw [filter_cons_of_pos (by simpa using ha), hret]
      · refine ⟨kept, hsuf.trans (suffix_cons e _), ?_, ?_⟩
        · simp only [retain, render] at hret ⊢
          rw [filter_cons_of_neg (by simpa using ha), hret]
        · refine forall_mem_cons.mpr ⟨.inr ?_, hcov⟩
          have hef : e.1 < f.1 := he f mem_cons_self
          rcases hcov f mem_cons_self with hk | ⟨k, hk, hfk, hka⟩
          · exact ⟨f, hk, hef, by omega⟩
          · exact ⟨k, hk, by omega, hka⟩

theorem WellFormed.retain (h : WellFormed chain) (anchor : Nat) :
    WellFormed (VersionChain.retain anchor chain) ∧
      (∀ e ∈ entries (VersionChain.retain anchor chain), e ∈ entries chain) ∧
      ∀ e ∈ entries chain, e ∈ entries (VersionChain.retain anchor chain) ∨
        ∃ f ∈ entries (VersionChain.retain anchor chain), e.1 < f.1 ∧ f.1 ≤ anchor := by
  obtain ⟨_, hsuf, hret, hcov⟩ := retain_render anchor h.sorted
  rw [h.rendered] at hret
  rw [hret, entries_render]
  exact ⟨wellFormed_render (h.sorted.sublist hsuf.sublist), fun e he => hsuf.subset he, hcov⟩

/-! ## Replacing a value -/

def setEntry (lsn : Nat) (value : Option Bytes) (e : Entry) : Entry :=
  if e.1 = lsn then (e.1, value) else e

@[simp] theorem setEntry_fst (lsn : Nat) (value : Option Bytes) (e : Entry) :
    (setEntry lsn value e).1 = e.1 := by
  unfold setEntry
  split <;> rfl

theorem setEntry_of_ne (h : e.1 ≠ lsn) : setEntry lsn value e = e := if_neg h

theorem mem_map_setEntry : e ∈ es.map (setEntry lsn value) ↔
      (e.1 ≠ lsn ∧ e ∈ es) ∨ (e = (lsn, value) ∧ ∃ v, (lsn, v) ∈ es) := by
  simp only [mem_map]
  constructor
  · rintro ⟨f, hf, rfl⟩
    by_cases hl : f.1 = lsn
    · exact .inr ⟨by simp [setEntry, hl], f.2, by rw [← hl]; exact hf⟩
    · exact .inl ⟨by simpa using hl, by rwa [setEntry_of_ne hl]⟩
  · rintro (⟨hl, he⟩ | ⟨rfl, v, hv⟩)
    · exact ⟨e, he, setEntry_of_ne hl⟩
    · exact ⟨_, hv, by simp [setEntry]⟩

theorem setValue_render (lsn : Nat) (value : Option Bytes) (h : es.Pairwise fun e f => e.1 < f.1) :
    setValue lsn value (render es) = render (es.map (setEntry lsn value)) := by
  induction es with
  | nil => rfl
  | cons e rest ih =>
    obtain ⟨he, hrest⟩ := pairwise_cons.mp h
    cases rest with
    | nil => by_cases hl : e.1 = lsn <;> simp [render, setValue, setEntry, hl]
    | cons f rest =>
      by_cases hl : e.1 = lsn
      · have hid : (f :: rest).map (setEntry lsn value) = f :: rest := by
          have hne : ∀ g ∈ f :: rest, setEntry lsn value g = id g :=
            fun g hg => setEntry_of_ne (by have := he g hg; omega)
          rw [map_congr_left hne, map_id]
        rw [map_cons, hid]
        simp [render, setValue, setEntry, hl]
      · have ih' := ih hrest
        simp only [map_cons, render, setValue, hl, if_false, setEntry_fst] at ih' ⊢
        rw [ih', setEntry_of_ne hl]

theorem WellFormed.setValue (h : WellFormed chain) (lsn : Nat) (value : Option Bytes) :
    WellFormed (VersionChain.setValue lsn value chain) ∧
      entries (VersionChain.setValue lsn value chain) =
        (entries chain).map (setEntry lsn value) := by
  have hset := setValue_render lsn value h.sorted
  rw [h.rendered] at hset
  rw [hset, entries_render]
  refine ⟨wellFormed_render (pairwise_map.mpr ?_), rfl⟩
  simpa using h.sorted

/-! ## Reads -/

theorem mem_render_expiry (h : es.Pairwise fun e f => e.1 < f.1) (hv : v ∈ render es) :
    (v.createdLsn, v.value) ∈ es ∧ (∀ x, v.expiredLsn = some x →
        (∃ f ∈ es, f.1 = x) ∧ v.createdLsn < x ∧ ∀ g ∈ es, v.createdLsn < g.1 → x ≤ g.1) ∧
      (v.expiredLsn = none → ∀ g ∈ es, g.1 ≤ v.createdLsn) := by
  induction es with
  | nil => simp [render] at hv
  | cons e rest ih =>
    cases rest with
    | nil =>
      simp only [render, mem_singleton] at hv
      subst hv
      simp
    | cons f =>
      obtain ⟨he, hrest⟩ := pairwise_cons.mp h
      rcases mem_cons.mp hv with rfl | hv
      · refine ⟨mem_cons_self, ?_, by simp⟩
        intro x hx
        cases hx
        refine ⟨⟨f, by simp, rfl⟩, he f mem_cons_self, ?_⟩
        intro g hg hlt
        rcases mem_cons.mp hg with rfl | hg
        · exact absurd hlt (lt_irrefl _)
        · rcases mem_cons.mp hg with rfl | hg
          · exact le_rfl
          · exact le_of_lt ((pairwise_cons.mp hrest).1 g hg)
      · obtain ⟨hmem, hsome, hnone⟩ := ih hrest hv
        have hev : e.1 < v.createdLsn := he _ hmem
        refine ⟨mem_cons_of_mem _ hmem, ?_, ?_⟩
        · intro x hx
          obtain ⟨⟨g, hg, hgx⟩, hlt, hmin⟩ := hsome x hx
          refine ⟨⟨g, mem_cons_of_mem _ hg, hgx⟩, hlt, ?_⟩
          refine forall_mem_cons.mpr ⟨fun hvk => ?_, hmin⟩
          omega
        · intro hx
          refine forall_mem_cons.mpr ⟨?_, hnone hx⟩
          omega

section
variable (h : WellFormed chain)
include h

theorem WellFormed.expired_mem (hv : v ∈ chain) {x : Nat} (hx : v.expiredLsn = some x) :
    ∃ f ∈ entries chain, f.1 = x ∧ v.createdLsn < x := by
  rw [← h.rendered] at hv
  obtain ⟨-, hsome, -⟩ := mem_render_expiry h.sorted hv
  obtain ⟨⟨f, hf, hfx⟩, hlt, -⟩ := hsome x hx
  exact ⟨f, hf, hfx, hlt⟩

/-- A version is visible at a snapshot exactly if it is the newest one created
at or below it. -/
theorem WellFormed.visibleTo_iff (hv : v ∈ chain) :
    v.visibleTo snapshot = true ↔ v.createdLsn ≤ snapshot ∧
      ∀ g ∈ entries chain, g.1 ≤ snapshot → g.1 ≤ v.createdLsn := by
  rw [Version.visibleTo_iff]
  have hv' := hv
  rw [← h.rendered] at hv'
  obtain ⟨-, hsome, hnone⟩ := mem_render_expiry h.sorted hv'
  constructor
  · rintro ⟨hc, he⟩
    refine ⟨hc, fun g hg hgs => ?_⟩
    cases hx : v.expiredLsn with
    | none => exact hnone hx g hg
    | some x =>
      by_contra hlt
      have hxg := (hsome x hx).2.2 g hg (by omega)
      have hsx := he x hx
      omega
  · rintro ⟨hc, hmax⟩
    refine ⟨hc, fun x hx => ?_⟩
    obtain ⟨⟨f, hf, _⟩, hlt, -⟩ := hsome x hx
    by_contra hle
    have hfv := hmax f hf (by omega)
    omega

theorem readVersion_some (hr : readVersion chain snapshot = some v) :
    (v.createdLsn, v.value) ∈ entries chain ∧ v.createdLsn ≤ snapshot ∧
      ∀ g ∈ entries chain, g.1 ≤ snapshot → g.1 ≤ v.createdLsn := by
  have hv : v ∈ chain := mem_reverse.mp (mem_of_find?_eq_some hr)
  have hvis := find?_some hr
  exact ⟨mem_entries.mpr ⟨v, hv, rfl, rfl⟩, (h.visibleTo_iff hv).mp hvis⟩

theorem readVersion_none
    (hr : readVersion chain snapshot = none) : ∀ e ∈ entries chain, snapshot < e.1 := by
  intro e he
  by_contra hle
  -- the newest entry at or below the snapshot would have been found
  obtain ⟨m, hm, hmax⟩ := Finset.exists_max_image
    ((entries chain).toFinset.filter fun g => g.1 ≤ snapshot) (fun g => g.1)
    ⟨e, by simp [he, Nat.le_of_not_lt hle]⟩
  simp only [Finset.mem_filter, mem_toFinset] at hm hmax
  obtain ⟨v, hv, hvc, -⟩ := mem_entries.mp hm.1
  have hvis : v.visibleTo snapshot = true :=
    (h.visibleTo_iff hv).mpr ⟨by omega, fun g hg hgs => hvc ▸ hmax g ⟨hg, hgs⟩⟩
  have hnone := find?_eq_none.mp hr v (mem_reverse.mpr hv)
  exact hnone hvis

theorem WellFormed.readAt_newest (he : e ∈ entries chain) (hle : e.1 ≤ snapshot)
    (hmax : ∀ g ∈ entries chain, g.1 ≤ snapshot → g.1 ≤ e.1) : readAt chain snapshot = e.2 := by
  cases hr : readVersion chain snapshot with
  | none =>
    have hlt := readVersion_none h hr e he
    omega
  | some v =>
    obtain ⟨hmem, hvle, hvmax⟩ := readVersion_some h hr
    have heq : v.createdLsn = e.1 := le_antisymm (hmax _ hmem hvle) (hvmax e he hle)
    rw [heq] at hmem
    rw [readAt, hr]
    exact h.entry_unique hmem he

theorem WellFormed.readAt_none
    (hlt : ∀ e ∈ entries chain, snapshot < e.1) : readAt chain snapshot = none := by
  cases hr : readVersion chain snapshot with
  | none => rw [readAt, hr, Option.bind_none]
  | some =>
    obtain ⟨hmem, _, -⟩ := readVersion_some h hr
    have hgt := hlt _ hmem
    simp only at hgt
    omega

end

theorem WellFormed.readAt_congr {c d : VersionChain} (hc : WellFormed c) (hd : WellFormed d)
    (h : ∀ e : Entry, e.1 ≤ snapshot → (e ∈ entries c ↔ e ∈ entries d)) :
    readAt c snapshot = readAt d snapshot := by
  cases hr : readVersion c snapshot with
  | none =>
    have hlt := readVersion_none hc hr
    rw [hc.readAt_none hlt, hd.readAt_none]
    intro e he
    by_contra hle
    exact hle (hlt e ((h e (Nat.le_of_not_lt hle)).mpr he))
  | some =>
    obtain ⟨hmem, hle, hmax⟩ := readVersion_some hc hr
    rw [hc.readAt_newest hmem hle hmax, hd.readAt_newest ((h _ hle).mp hmem) hle]
    exact fun g hg hgs => hmax g ((h g hgs).mpr hg) hgs

end VersionChain
end ArcGraph.Mvcc
