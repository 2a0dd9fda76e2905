import Mathlib.Data.List.Sort
import Mathlib.Data.List.Lex
import Mathlib.Data.List.Pairwise
import Mathlib.Data.Prod.Lex

/-!
# Stable sorting by a key, and sorted collections

`sortBy` is a stable sort. `Keyed` is the type of the collections whose entries
are strictly ascending in their key: a map is one whose key is the first
component, a set one whose key is the element.
-/

namespace ArcGraph.Foundation
open List
variable {α κ : Type} [LinearOrder κ]

/-- The stable sort of `l` by `key`. -/
def sortBy (key : α → κ) (l : List α) : List α := l.insertionSort fun a b => key a ≤ key b

section
variable (key : α → κ) {l : List α} (p : α → Bool)

private instance keyTrans : IsTrans α fun a b => key a ≤ key b := ⟨fun _ _ _ => le_trans⟩

private instance keyTotal : Std.Total fun a b : α => key a ≤ key b :=
  ⟨fun a b => le_total (key a) (key b)⟩

theorem perm_sortBy (l : List α) : (sortBy key l).Perm l := perm_insertionSort _ l

@[simp] theorem mem_sortBy {a : α} : a ∈ sortBy key l ↔ a ∈ l :=
  (perm_sortBy key l).mem_iff

@[simp] theorem length_sortBy (l : List α) : (sortBy key l).length = l.length :=
  (perm_sortBy key l).length_eq

theorem pairwise_sortBy (l : List α) : (sortBy key l).Pairwise fun a b => key a ≤ key b :=
  pairwise_insertionSort _ l

theorem sortBy_eq_self (h : l.Pairwise fun a b => key a ≤ key b) :
    sortBy key l = l := h.insertionSort_eq

@[simp] theorem sortBy_sortBy (l : List α) : sortBy key (sortBy key l) = sortBy key l :=
  sortBy_eq_self key (pairwise_sortBy key l)

theorem filter_orderedInsert (a : α) (hl : l.Pairwise fun a b => key a ≤ key b) :
    (l.orderedInsert (fun a b => key a ≤ key b) a).filter p =
      if p a then (l.filter p).orderedInsert (fun a b => key a ≤ key b) a else l.filter p := by
  induction l with
  | nil => by_cases hp : p a <;> simp [hp]
  | cons b rest ih =>
    have ih := ih hl.of_cons
    by_cases hab : key a ≤ key b
    · rw [orderedInsert_cons, if_pos hab]
      by_cases hp : p a
      · -- everything kept of `b :: rest` is at least `b`, so `a` goes in front of it
        have hfront : ∀ c ∈ (b :: rest).filter p, key a ≤ key c := by
          intro c hc
          rcases mem_cons.mp (mem_of_mem_filter hc) with rfl | hc
          · exact hab
          · exact hab.trans (rel_of_pairwise_cons hl hc)
        rw [filter_cons_of_pos hp, if_pos hp]
        cases hkept : (b :: rest).filter p with
        | nil => rfl
        | cons c =>
          rw [orderedInsert_cons, if_pos (hfront c (by simp [hkept]))]
      · rw [filter_cons_of_neg (by simpa using hp), if_neg hp]
    · rw [orderedInsert_cons, if_neg hab]
      by_cases hb : p b
      · rw [filter_cons_of_pos hb, filter_cons_of_pos hb, ih]
        by_cases hp : p a
        · rw [if_pos hp, if_pos hp, orderedInsert_cons, if_neg hab]
        · rw [if_neg hp, if_neg hp]
      · rw [filter_cons_of_neg (by simpa using hb), filter_cons_of_neg (by simpa using hb), ih]

theorem sortBy_cons (a : α) (l : List α) :
    sortBy key (a :: l) = (sortBy key l).orderedInsert (fun a b => key a ≤ key b) a := rfl

/-- A stable sort keeps the order within any part of the list. -/
theorem filter_sortBy (l : List α) : (sortBy key l).filter p = sortBy key (l.filter p) := by
  induction l with
  | nil => rfl
  | cons a rest ih =>
    rw [sortBy_cons, filter_orderedInsert key p a (pairwise_sortBy key rest), ih]
    by_cases hp : p a
    · rw [if_pos hp, filter_cons_of_pos hp, sortBy_cons]
    · rw [if_neg hp, filter_cons_of_neg (by simpa using hp)]

/-- A stable sort keeps the first of the elements that share a key. -/
theorem find?_sortBy {p : α → Bool} (hp : ∀ a b, p a → p b → key a ≤ key b) (l : List α) :
    (sortBy key l).find? p = l.find? p := by
  have hsame : (l.filter p).Pairwise fun a b => key a ≤ key b :=
    pairwise_of_forall_mem_list fun a ha b hb =>
      hp a b (of_mem_filter ha) (of_mem_filter hb)
  rw [← head?_filter, ← head?_filter, filter_sortBy, sortBy_eq_self key hsame]

/-- Lists with the same elements, no two of them with one key, sort alike. -/
theorem eq_sortBy_of_perm {l' : List α} (hl : l.Pairwise fun a b => key a < key b)
    (h : l.Perm l') : l = sortBy key l' := by
  refine Perm.eq_of_pairwise ?_ (hl.imp le_of_lt) (pairwise_sortBy key l')
    (h.trans (perm_sortBy key l').symm)
  intro a b ha hb hab hba
  have hb' : b ∈ l := h.mem_iff.mpr ((mem_sortBy key).mp hb)
  by_contra hne
  have : Std.Symm fun a b : α => key a < key b ∨ key b < key a := ⟨fun _ _ h => h.symm⟩
  have hor : l.Pairwise fun a b => key a < key b ∨ key b < key a := hl.imp Or.inl
  rcases hor.forall ha hb' hne with hlt | hlt
  · exact absurd hba (not_le.mpr hlt)
  · exact absurd hab (not_le.mpr hlt)

end

/-! ## Sorted collections -/

/-- A collection with at most one entry for each key, in the order of the keys. -/
@[ext] structure Keyed (key : α → κ) where
  entries : List α
  sorted : entries.Pairwise fun a b => key a < key b

namespace Keyed
variable {key : α → κ}

instance [DecidableEq α] : DecidableEq (Keyed key) := fun s t =>
  decidable_of_iff (s.entries = t.entries) Keyed.ext_iff.symm

/-- `a` in place of the entry with its key, if there is one. -/
def insertList (key : α → κ) (a : α) : List α → List α
  | [] => [a]
  | b :: rest =>
    if key a < key b then a :: b :: rest
    else if key b < key a then b :: insertList key a rest
    else a :: rest

variable {a x : α} {l : List α} {s : Keyed key}

theorem mem_insertList (h : x ∈ insertList key a l) : x = a ∨ x ∈ l := by
  induction l with
  | nil => exact .inl (mem_singleton.mp h)
  | cons _ _ ih =>
    unfold insertList at h
    split at h
    · exact mem_cons.mp h
    · split at h
      · rcases mem_cons.mp h with rfl | h
        · exact .inr mem_cons_self
        · exact (ih h).imp_right (mem_cons_of_mem _)
      · exact (mem_cons.mp h).imp_right (mem_cons_of_mem _)

/-- A new key adds an entry. -/
theorem perm_insertList (h : ∀ b ∈ l, key b ≠ key a) : (insertList key a l).Perm (a :: l) := by
  induction l with
  | nil => exact .refl _
  | cons b rest ih =>
    have hb := h b mem_cons_self
    unfold insertList
    split
    · exact .refl _
    · rename_i hab
      rw [if_pos (lt_of_le_of_ne (not_lt.mp hab) hb)]
      exact ((ih fun c hc => h c (mem_cons_of_mem _ hc)).cons b).trans (.swap a b rest)

theorem length_insertList_le (a : α) (l : List α) : (insertList key a l).length ≤ l.length + 1 := by
  induction l with
  | nil => exact Nat.le_refl 1
  | cons _ _ ih =>
    unfold insertList
    split
    · exact Nat.le_refl _
    · split
      · simpa using ih
      · simp

theorem sorted_insertList (a : α) (h : l.Pairwise fun a b => key a < key b) :
    (insertList key a l).Pairwise fun a b => key a < key b := by
  induction l with
  | nil => exact pairwise_singleton _ a
  | cons b _ ih =>
    obtain ⟨hb, hrest⟩ := pairwise_cons.mp h
    unfold insertList
    split
    · rename_i hab
      refine pairwise_cons.mpr ⟨forall_mem_cons.mpr ⟨hab, fun x hx => ?_⟩, h⟩
      exact hab.trans (hb x hx)
    · split
      · rename_i hba
        refine pairwise_cons.mpr ⟨fun x hx => ?_, ih hrest⟩
        rcases mem_insertList hx with rfl | hx
        · exact hba
        · exact hb x hx
      · -- neither below the other: `a` has the key of `b`
        rename_i hab hba
        have heq : key a = key b := le_antisymm (not_lt.mp hba) (not_lt.mp hab)
        exact pairwise_cons.mpr ⟨fun x hx => heq ▸ hb x hx, hrest⟩

theorem insertList_of_lt (h : ∀ b ∈ l, key b < key a) : insertList key a l = l ++ [a] := by
  induction l with
  | nil => rfl
  | cons b _ ih =>
    have hb := h b mem_cons_self
    rw [insertList, if_neg (not_lt.mpr hb.le), if_pos hb,
      ih fun c hc => h c (mem_cons_of_mem _ hc), cons_append]

def empty : Keyed key := ⟨[], Pairwise.nil⟩

def insert (s : Keyed key) (a : α) : Keyed key :=
  ⟨insertList key a s.entries, sorted_insertList a s.sorted⟩

/-- The collection without its first `n` entries. -/
def drop (s : Keyed key) (n : Nat) : Keyed key :=
  ⟨s.entries.drop n, s.sorted.sublist (drop_sublist n s.entries)⟩

/-- Insert the elements of a list one after another. -/
def ofList (l : List α) : Keyed key := l.foldl insert empty

theorem foldl_insert_mem (h : x ∈ (l.foldl insert s).entries) : x ∈ s.entries ∨ x ∈ l := by
  induction l generalizing s with
  | nil => exact .inl h
  | cons _ _ ih =>
    rcases ih h with h | h
    · rcases mem_insertList h with rfl | h
      · exact .inr mem_cons_self
      · exact .inl h
    · exact .inr (mem_cons_of_mem _ h)

theorem mem_of_mem_ofList (h : x ∈ (ofList l : Keyed key).entries) : x ∈ l :=
  (foldl_insert_mem h).resolve_left not_mem_nil

theorem length_foldl_insert_le (l : List α) (s : Keyed key) :
    (l.foldl insert s).entries.length ≤ s.entries.length + l.length := by
  induction l generalizing s with
  | nil => exact Nat.le_refl _
  | cons a _ ih =>
    have hstep : (s.insert a).entries.length ≤ s.entries.length + 1 :=
      length_insertList_le a s.entries
    have hrest := ih (s.insert a)
    rw [foldl_cons, length_cons]
    omega

theorem length_ofList_le (l : List α) : (ofList l : Keyed key).entries.length ≤ l.length :=
  (length_foldl_insert_le l empty).trans (Nat.zero_add _).le

theorem foldl_insert_entries (h : (s.entries ++ l).Pairwise fun a b => key a < key b) :
    (l.foldl insert s).entries = s.entries ++ l := by
  induction l generalizing s with
  | nil => simp
  | cons a _ ih =>
    have hlast : ∀ b ∈ s.entries, key b < key a := fun b hb =>
      (pairwise_append.mp h).2.2 b hb a mem_cons_self
    have hins : (s.insert a).entries = s.entries ++ [a] := insertList_of_lt hlast
    rw [foldl_cons, ih (by rwa [hins, append_assoc]), hins, append_assoc]
    rfl

/-- The entries of a collection, inserted in order, are the collection. -/
@[simp] theorem ofList_entries (s : Keyed key) : ofList s.entries = s :=
  Keyed.ext (foldl_insert_entries (s := empty) (by simpa [empty] using s.sorted))

end Keyed
end ArcGraph.Foundation
