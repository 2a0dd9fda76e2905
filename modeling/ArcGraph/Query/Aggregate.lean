import ArcGraph.Foundation.Fallible
import ArcGraph.Query.Orderability
import Mathlib.Algebra.Ring.Int.Defs
import Mathlib.Data.List.Induction
import Mathlib.Data.List.Infix

/-!
# Parallel aggregation

The parallel aggregate folds every morsel into an accumulator of its own and merges these
from left to right. A fold or a merge that gets through gives the accumulator of all its
rows; a sum gets through if no running sum overflows, and an extreme is that of all rows if
the values can be sorted.
-/

namespace ArcGraph.Query
open Foundation List

inductive AggregationKind where
  | count | sum | avg | min | max | collect

/-- Sums are those of integers; a count is 64 bits wide and saturates. -/
inductive Accumulator (X : Type) where
  | count (n : Nat)
  | sum (running : Option Int)
  | avg (sum : Option Int) (n : Nat)
  | min (running : Option (Value X))
  | max (running : Option (Value X))
  | collect (list : List (Value X))

variable {X : Type}

def Value.isNull : Value X → Bool
  | .null => true
  | _ => false

def saturatingAdd (a b : Nat) : Nat := min (a + b) 18446744073709551615

def I64 (n : Int) : Prop := -9223372036854775808 ≤ n ∧ n ≤ 9223372036854775807

instance (n : Int) : Decidable (I64 n) := inferInstanceAs (Decidable (_ ∧ _))

def numericAdd (running : Option Int) : Value X → Except String Int
  | .integer b => match running with
    | none => .ok b
    | some a => if I64 (a + b) then .ok (a + b) else .error "AggregateOp: SUM integer overflow"
  | _ => .error "AggregateOp: SUM/AVG arg must be numeric"

/-- The order of `MIN` and `MAX`: that of `ORDER BY`, but two nodes or two relationships
are equal. -/
def compareValues : Value X → Value X → Ordering
  | .integer x, .integer y => compare x y
  | .string x, .string y => compare (bytes x) (bytes y)
  | .boolean x, .boolean y => compare x y
  | .path x, .path y => x.cmpPaths y
  | .path _, _ => .lt
  | _, .path _ => .gt
  | .map x, b => compareOrderability (.map x) b
  | a, .map y => compareOrderability a (.map y)
  | .list x, b => compareOrderability (.list x) b
  | a, .list y => compareOrderability a (.list y)
  | _, _ => .eq

/-- The value takes the place of the running one if it compares as `o` to it. -/
def keepExtreme (o : Ordering) (value : Value X) : Option (Value X) → Option (Value X)
  | none => some value
  | some curr => if compareValues value curr = o then some value else some curr

namespace Accumulator

def empty : AggregationKind → Accumulator X
  | .count => .count 0
  | .sum => .sum none
  | .avg => .avg none 0
  | .min => .min none
  | .max => .max none
  | .collect => .collect []

def fold (acc : Accumulator X) (value : Value X) : Except String (Accumulator X) :=
  if value.isNull then .ok acc else
    match acc with
    | .count n => .ok (.count (saturatingAdd n 1))
    | .sum running => (numericAdd running value).map fun r => .sum (some r)
    | .avg running n => (numericAdd running value).map fun r => .avg (some r) (saturatingAdd n 1)
    | .min running => .ok (.min (keepExtreme .lt value running))
    | .max running => .ok (.max (keepExtreme .gt value running))
    | .collect list => .ok (.collect (list ++ [value]))

/-- A partial sum is added as the value it is; a morsel without one adds nothing. -/
def mergeSum (a : Option Int) : Option Int → Except String (Option Int)
  | none => .ok a
  | some b => (numericAdd a (.integer b : Value Unit)).map some

def merge : Accumulator X → Accumulator X → Except String (Accumulator X)
  | .count a, .count b => .ok (.count (saturatingAdd a b))
  | .sum a, .sum b => (mergeSum a b).map .sum
  | .avg sa na, .avg sb nb => (mergeSum sa sb).map fun s => .avg s (saturatingAdd na nb)
  | .min a, .min b => .ok (.min (b.elim a fun v => keepExtreme .lt v a))
  | .max a, .max b => .ok (.max (b.elim a fun v => keepExtreme .gt v a))
  | .collect a, .collect b => .ok (.collect (a ++ b))
  | _, _ => .error "AggregateOp: merge of mismatched accumulator variants"

end Accumulator

variable (kind : AggregationKind)

/-- One morsel, or all rows of the serial aggregate. -/
def foldMorsel (rows : List (Value X)) : Except String (Accumulator X) :=
  rows.foldlM Accumulator.fold (.empty kind)

def mergePartials :
    List (Accumulator X) → Except String (Accumulator X)
  | [] => .ok (.empty kind)
  | first :: rest => rest.foldlM Accumulator.merge first

def foldAll (morsels : List (List (Value X))) :
    Except String (Accumulator X) := do
  mergePartials kind (← morsels.mapM (foldMorsel kind))

/-! ## Summaries -/

def Value.toInt : Value X → Int
  | .integer n => n
  | _ => 0

def total (l : List (Value X)) : Int := (l.map Value.toInt).sum

def runningSum (l : List (Value X)) : Option Int := if l = [] then none else some (total l)

def extreme (o : Ordering) (l : List (Value X)) : Option (Value X) :=
  l.foldl (fun running v => keepExtreme o v running) none

/-- The accumulator of rows that are not null. -/
def summary (l : List (Value X)) : AggregationKind → Accumulator X
  | .count => .count (saturatingAdd 0 l.length)
  | .sum => .sum (runningSum l)
  | .avg => .avg (runningSum l) (saturatingAdd 0 l.length)
  | .min => .min (extreme .lt l)
  | .max => .max (extreme .gt l)
  | .collect => .collect l

def nonNull (rows : List (Value X)) : List (Value X) := rows.filter fun v => !v.isNull

/-- Every running sum fits in 64 bits. -/
def Fits (l : List Int) : Prop := ∀ part ∈ l.inits, I64 part.sum

instance (l : List Int) : Decidable (Fits l) := inferInstanceAs (Decidable (∀ _ ∈ _, _))

def AggregationKind.isNumeric : AggregationKind → Bool
  | .sum | .avg => true
  | _ => false

/-- The fold of the rows gets through. -/
def Passes (rows : List (Value X)) : Prop := kind.isNumeric = true →
  (∀ v ∈ nonNull rows, v = .integer v.toInt) ∧ Fits (rows.map Value.toInt)

variable {l x y rows : List (Value X)} {v a b : Value X} {kind : AggregationKind} {o : Ordering}
  {morsels : List (List (Value X))} {acc acc' : Accumulator X}

theorem fits_concat {l : List Int} {n : Int} : Fits (l ++ [n]) ↔ Fits l ∧ I64 (l.sum + n) := by
  simp [Fits, mem_inits, or_imp, forall_and, and_comm]

theorem Fits.sum {l : List Int} (h : Fits l) : I64 l.sum := h l (by simp)

theorem total_append : total (x ++ y) = total x + total y := by
  simp [total]

theorem total_nonNull : total (nonNull rows) = total rows := by
  induction rows with
  | nil => rfl
  | cons v _ ih => cases v <;> simp_all [nonNull, total, Value.isNull, Value.toInt]

open Accumulator

/-- The first value is not added to anything, but it fits. -/
theorem numericAdd_runningSum {Y : Type} {n : Int} (hl : I64 (total l)) (hn : I64 n) :
    numericAdd (runningSum l) (.integer n : Value Y) = if I64 (total l + n)
      then .ok (total l + n) else .error "AggregateOp: SUM integer overflow" := by
  cases l with
  | nil =>
    have hsum : total ([] : List (Value X)) + n = n := Int.zero_add n
    rw [hsum, if_pos hn]
    rfl
  | cons => rfl

theorem mergeSum_eq (hx : I64 (total x)) (hy : I64 (total y)) :
    mergeSum (runningSum x) (runningSum y) = if I64 (total x + total y)
      then .ok (runningSum (x ++ y)) else .error "AggregateOp: SUM integer overflow" := by
  cases y with
  | nil =>
    have hsum : total x + total ([] : List (Value X)) = total x := Int.add_zero _
    rw [append_nil, hsum, if_pos hx]
    rfl
  | cons v y =>
    show Except.map some (numericAdd (runningSum x) (.integer (total (v :: y)))) = _
    rw [numericAdd_runningSum hx hy]
    simp only [runningSum, append_eq_nil_iff, reduceCtorEq, and_false, if_false, total_append]
    split <;> rfl

/-! ### Extremes -/

/-- What `compareValues` reads of a value. -/
def Value.strip : Value X → Value X
  | .node _ view => .node 0 view
  | .relationship _ view => .relationship 0 view
  | v => v

theorem compareValues_eq (ha : a.isNull = false) (hb : b.isNull = false) :
    compareValues a b = compareWithNullPolicy .asc a.strip b.strip := by
  cases a <;> cases b <;> first
    | rfl
    | contradiction

/-- `MIN` and `MAX` can sort the values. -/
def Comparable (V : Value X → Prop) : Prop :=
  Sortable fun v : { v // V v ∧ v.isNull = false } => v.1.strip

variable {V : Value X → Prop}

theorem keepExtreme_assoc (ho : o = .lt ∨ o = .gt) (hV : Comparable V)
    (h : ∀ w ∈ [a, b, v], V w ∧ w.isNull = false) :
    (keepExtreme o v (some b)).elim (some a) (fun w => keepExtreme o w (some a)) =
      keepExtreme o v (keepExtreme o b (some a)) := by
  obtain ⟨key, hkey⟩ := hV.exists_key
  simp only [forall_mem_cons] at h
  obtain ⟨ha, hb, hv, -⟩ := h
  have hvb := (compareValues_eq hv.2 hb.2).trans (hkey ⟨v, hv⟩ ⟨b, hb⟩)
  have hba := (compareValues_eq hb.2 ha.2).trans (hkey ⟨b, hb⟩ ⟨a, ha⟩)
  have hva := (compareValues_eq hv.2 ha.2).trans (hkey ⟨v, hv⟩ ⟨a, ha⟩)
  have htrans : compareValues v b = o → compareValues b a = o → compareValues v a = o := by
    rw [hvb, hba, hva]
    rcases ho with rfl | rfl
    · exact Std.TransCmp.lt_trans
    · exact Std.TransCmp.gt_trans
  have hnot : ¬compareValues v b = o → ¬compareValues b a = o → ¬compareValues v a = o := by
    rw [hvb, hba, hva]
    rcases ho with rfl | rfl
    · simp only [← Ordering.isGE_iff_ne_lt]
      exact Std.TransCmp.isGE_trans
    · simp only [← Ordering.isLE_iff_ne_gt]
      exact Std.TransCmp.isLE_trans
  by_cases h1 : compareValues b a = o <;> by_cases h2 : compareValues v b = o
  · simp [keepExtreme, h1, h2, htrans h2 h1]
  · simp [keepExtreme, h1, h2]
  · simp [keepExtreme, h1, h2]
  · simp [keepExtreme, h1, h2, hnot h2 h1]

theorem comparable_of_assoc (ho : o = .lt ∨ o = .gt)
    (h : ∀ a b v : Value X, (∀ w ∈ [a, b, v], V w ∧ w.isNull = false) →
      (keepExtreme o v (some b)).elim (some a) (fun w => keepExtreme o w (some a)) =
        keepExtreme o v (keepExtreme o b (some a))) : Comparable V := by
  have htrans : ∀ i j k : { v // V v ∧ v.isNull = false }, compareValues i.1 j.1 ≠ o →
      compareValues j.1 k.1 ≠ o → compareValues i.1 k.1 ≠ o := by
    rintro ⟨v, hv⟩ ⟨b, hb⟩ ⟨a, ha⟩ hvb hba hva
    have heq := h a b v (by simp [ha, hb, hv])
    simp only [keepExtreme, hvb, hba, hva, if_true, if_false, Option.elim, Option.some.injEq] at heq
    subst heq
    have hself := compareWithNullPolicy_swap .asc a.strip a.strip
    rw [← compareValues_eq ha.2 ha.2, hva] at hself
    rcases ho with rfl | rfl <;> cases hself
  have hcmp := fun i j : { v // V v ∧ v.isNull = false } => compareValues_eq i.2.2 j.2.2
  rcases ho with rfl | rfl
  · refine sortable_of_trans .desc ?_
    simpa only [compareWithNullPolicy_desc, ← hcmp, Ordering.isLE_swap,
      Ordering.isGE_iff_ne_lt] using htrans
  · refine sortable_of_trans .asc ?_
    simpa only [← hcmp, Ordering.isLE_iff_ne_gt] using htrans

theorem extreme_concat (o : Ordering) (l : List (Value X)) (v : Value X) :
    extreme o (l ++ [v]) = keepExtreme o v (extreme o l) := by
  rw [extreme, foldl_append]
  rfl

theorem mem_of_extreme (h : extreme o l = some a) : a ∈ l := by
  induction l using reverseRecOn with
  | nil => cases h
  | append_singleton l _ ih =>
    rw [extreme_concat] at h
    cases hl : extreme o l with
    | none =>
      rw [hl] at h
      cases h
      simp
    | some =>
      rw [hl, keepExtreme] at h
      split at h <;> cases h
      · simp
      · simp [ih hl]

theorem extreme_append (ho : o = .lt ∨ o = .gt) (hV : Comparable V)
    (h : ∀ v ∈ x ++ y, V v ∧ v.isNull = false) :
    (extreme o y).elim (extreme o x) (fun v => keepExtreme o v (extreme o x)) =
      extreme o (x ++ y) := by
  induction y using reverseRecOn with
  | nil => rw [append_nil]; rfl
  | append_singleton y v ih =>
    have ih := ih fun w hw => h w (by simp at hw ⊢; tauto)
    rw [extreme_concat, ← append_assoc, extreme_concat, ← ih]
    cases hy : extreme o y with
    | none => rfl
    | some b =>
      cases hx : extreme o x with
      | none =>
        show (keepExtreme o v (some b)).elim none some = keepExtreme o v (some b)
        cases keepExtreme o v (some b) <;> rfl
      | some a =>
        have hsub : ∀ w ∈ [a, b, v], w ∈ x ++ (y ++ [v]) := by
          simp [mem_of_extreme hx, mem_of_extreme hy]
        exact keepExtreme_assoc ho hV fun w hw => h w (hsub w hw)

/-! ### Folds and merges that get through -/

theorem merge_eq_ok (hsum : kind.isNumeric = true → I64 (total x) ∧ I64 (total y))
    (hV : kind = .min ∨ kind = .max → Comparable V) (h : ∀ v ∈ x ++ y, V v ∧ v.isNull = false) :
    (summary x kind).merge (summary y kind) = .ok acc ↔
      (kind.isNumeric = true → I64 (total x + total y)) ∧ acc = summary (x ++ y) kind := by
  have hcount : saturatingAdd (saturatingAdd 0 x.length) (saturatingAdd 0 y.length) =
      saturatingAdd 0 (x ++ y).length := by
    simp only [saturatingAdd, length_append]
    omega
  cases kind with
  | sum | avg =>
    rw [summary, summary, Accumulator.merge, mergeSum_eq (hsum rfl).1 (hsum rfl).2]
    by_cases hfits : I64 (total x + total y) <;>
      simp [Except.map, summary, AggregationKind.isNumeric, hfits, hcount, eq_comm]
  | count => simp [summary, Accumulator.merge, hcount, AggregationKind.isNumeric, eq_comm]
  | min =>
    simp [summary, Accumulator.merge, extreme_append (.inl rfl) (hV (.inl rfl)) h,
      AggregationKind.isNumeric, eq_comm]
  | max =>
    simp [summary, Accumulator.merge, extreme_append (.inr rfl) (hV (.inr rfl)) h,
      AggregationKind.isNumeric, eq_comm]
  | collect => simp [summary, Accumulator.merge, AggregationKind.isNumeric, eq_comm]

theorem fold_eq_ok (hv : v.isNull = false)
    (hsum : kind.isNumeric = true → I64 (total l) ∧ I64 v.toInt) :
    (summary l kind).fold v = .ok acc ↔
      (kind.isNumeric = true → v = .integer v.toInt ∧ I64 (total l + v.toInt)) ∧
        acc = summary (l ++ [v]) kind := by
  have hcount : saturatingAdd (saturatingAdd 0 l.length) 1 = saturatingAdd 0 (l ++ [v]).length := by
    simp only [saturatingAdd, length_append, length_singleton]
    omega
  have hrunning : runningSum (l ++ [v]) = some (total l + v.toInt) := by
    simp [runningSum, total]
  simp only [fold, hv, Bool.false_eq_true, if_false]
  cases kind with
  | sum | avg =>
    cases v
    case integer n =>
      have hadd := numericAdd_runningSum (hsum rfl).1 (hsum rfl).2 (Y := X)
      simp only [Value.toInt] at hadd hrunning ⊢
      simp only [summary, hadd, hrunning, hcount]
      by_cases hfits : I64 (total l + n) <;>
        simp [hfits, Except.map, AggregationKind.isNumeric, eq_comm]
    all_goals simp [summary, numericAdd, Except.map, AggregationKind.isNumeric]
  | count | min | max | collect =>
    simp [summary, AggregationKind.isNumeric, extreme_concat, hcount, -length_append, eq_comm]

theorem passes_concat : Passes kind (rows ++ [v]) ↔ Passes kind rows ∧ (kind.isNumeric = true →
    (v.isNull = false → v = .integer v.toInt) ∧ I64 (total rows + v.toInt)) := by
  simp only [Passes, nonNull, forall_mem_append, map_append, map_singleton, fits_concat,
    ← imp_and, total, mem_filter, Bool.not_eq_true', and_imp, forall_mem_singleton]
  tauto

theorem foldMorsel_eq_ok (h : kind.isNumeric = true → ∀ v ∈ rows, I64 v.toInt) :
    foldMorsel kind rows = .ok acc ↔ Passes kind rows ∧ acc = summary (nonNull rows) kind := by
  induction rows using reverseRecOn generalizing acc with
  | nil =>
    have hpass : Passes kind ([] : List (Value X)) := fun _ =>
      ⟨by simp [nonNull], show Fits [] by decide⟩
    simp only [hpass, true_and]
    cases kind <;> exact pure_eq_ok.trans eq_comm
  | append_singleton rows v ih =>
    simp only [forall_mem_append, imp_and] at h
    rw [foldMorsel] at ih ⊢
    simp only [foldlM_append, bind_eq_ok, ih h.1, foldlM_cons, foldlM_nil, bind_pure, and_assoc,
      exists_and_left, exists_eq_left, passes_concat]
    refine and_congr_right fun hpass => ?_
    have hsum : kind.isNumeric = true → I64 (total rows) := fun hkind => (hpass hkind).2.sum
    have hnull : nonNull (rows ++ [v]) = nonNull rows ++ nonNull [v] := filter_append ..
    cases hv : v.isNull with
    | true =>
      have hzero : v.toInt = 0 := by
        cases v <;> first | rfl | cases hv
      have hfits : kind.isNumeric = true → I64 (total rows + v.toInt) := by
        rwa [hzero, Int.add_zero]
      have hnone : nonNull [v] = [] := by simp [nonNull, hv]
      simp only [fold, hv, if_true, hnull, hnone, append_nil, Bool.true_eq_false, false_imp_iff,
        true_and, iff_true_intro hfits]
      exact pure_eq_ok.trans eq_comm
    | false =>
      rw [fold_eq_ok hv fun hkind => ⟨by rw [total_nonNull]; exact hsum hkind,
        h.2 hkind v (by simp)⟩, total_nonNull, hnull]
      simp [nonNull, hv]

theorem mapM_foldMorsel_eq_ok {accs : List (Accumulator X)}
    (h : kind.isNumeric = true → ∀ v ∈ morsels.flatten, I64 v.toInt) :
    morsels.mapM (foldMorsel kind) = .ok accs ↔
      (∀ rows ∈ morsels, Passes kind rows) ∧
        accs = morsels.map fun rows => summary (nonNull rows) kind := by
  induction morsels generalizing accs with
  | nil => simpa using pure_eq_ok.trans eq_comm
  | cons rows morsels ih =>
    simp only [flatten_cons, forall_mem_append, imp_and] at h
    simp only [mapM_cons, bind_eq_ok, foldMorsel_eq_ok h.1, ih h.2, pure_eq_ok, forall_mem_cons,
      map_cons]
    constructor
    · rintro ⟨_, ⟨hrows, rfl⟩, _, ⟨hmorsels, rfl⟩, rfl⟩
      exact ⟨⟨hrows, hmorsels⟩, rfl⟩
    · rintro ⟨⟨hrows, hmorsels⟩, rfl⟩
      exact ⟨_, ⟨hrows, rfl⟩, _, ⟨hmorsels, rfl⟩, rfl⟩

theorem total_flatten {parts : List (List (Value X))} :
    total parts.flatten = (parts.map total).sum := by
  induction parts with
  | nil => rfl
  | cons _ _ ih => simp [total_append, ih]

theorem foldlM_merge_eq_ok {parts : List (List (Value X))}
    (hsum : kind.isNumeric = true → ∀ x ∈ l :: parts, I64 (total x))
    (hV : kind = .min ∨ kind = .max → Comparable V)
    (h : ∀ v ∈ l ++ parts.flatten, V v ∧ v.isNull = false) :
    (parts.map (summary · kind)).foldlM merge (summary l kind) = .ok acc ↔
      (kind.isNumeric = true → Fits (total l :: parts.map total)) ∧
        acc = summary (l ++ parts.flatten) kind := by
  induction parts using reverseRecOn generalizing acc with
  | nil =>
    have hone : kind.isNumeric = true → Fits [total l] := fun hkind =>
      (fits_concat (l := [])).mpr ⟨by decide, by simpa using hsum hkind l (by simp)⟩
    simp only [flatten_nil, append_nil, map_nil, iff_true_intro hone, true_and]
    exact pure_eq_ok.trans eq_comm
  | append_singleton parts part ih =>
    simp only [flatten_append, flatten_singleton, ← append_assoc] at h ⊢
    have ih := fun acc => @ih acc (fun hkind x hx => hsum hkind x (by simp at hx ⊢; tauto))
      fun v hv => h v (mem_append_left _ hv)
    have hmerge : (kind.isNumeric = true → Fits (total l :: parts.map total)) → _ := fun hfits =>
      @merge_eq_ok X (l ++ parts.flatten) part kind acc V (fun hkind => ⟨by
        simpa [total_append, total_flatten] using (hfits hkind).sum,
        hsum hkind part (by simp)⟩) hV h
    simp only [map_append, foldlM_append, bind_eq_ok, ih, map_singleton, foldlM_cons, foldlM_nil,
      bind_pure, and_assoc, exists_and_left, exists_eq_left, ← cons_append, fits_concat, imp_and]
    refine and_congr_right fun hfits => ?_
    rw [hmerge hfits]
    simp [total_append, total_flatten]

theorem foldAll_eq_ok (h64 : kind.isNumeric = true → ∀ v ∈ morsels.flatten, I64 v.toInt)
    (hV : kind = .min ∨ kind = .max → Comparable V) (h : ∀ v ∈ morsels.flatten, V v) :
    foldAll kind morsels = .ok acc ↔ ((∀ rows ∈ morsels, Passes kind rows) ∧
      (kind.isNumeric = true → Fits (morsels.map total))) ∧
        acc = summary (nonNull morsels.flatten) kind := by
  have hparts : nonNull morsels.flatten = (morsels.map nonNull).flatten := filter_flatten
  simp only [foldAll, bind_eq_ok, mapM_foldMorsel_eq_ok h64, and_assoc, exists_and_left,
    exists_eq_left]
  refine and_congr_right fun hpass => ?_
  cases morsels with
  | nil =>
    have hfits : kind.isNumeric = true → Fits [] := fun _ => by decide
    refine Iff.trans ?_ (and_iff_right hfits).symm
    cases kind <;> exact pure_eq_ok.trans eq_comm
  | cons rows morsels =>
    rw [hparts]
    have hmerge := @foldlM_merge_eq_ok X (nonNull rows) kind acc V (morsels.map nonNull) ?_ hV ?_
    · simp only [map_map, Function.comp_def, total_nonNull] at hmerge
      exact hmerge
    · intro hkind
      rw [← map_cons, forall_mem_map]
      intro part hpart
      rw [total_nonNull]
      exact (hpass part hpart hkind).2.sum
    · intro v hv
      rw [← flatten_cons, ← map_cons, ← hparts, nonNull, mem_filter] at hv
      exact ⟨h v hv.1, by simpa using hv.2⟩

end ArcGraph.Query
