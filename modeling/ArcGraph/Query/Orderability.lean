import Mathlib.Data.List.Forall2

/-!
# The order of values

`ORDER BY` compares values by `compare_with_null_policy`. Paths, maps and lists take
their place in the orderability order, which is the order of the codes below; any other
two values of different kinds are called equal. `Sortable` says for which rows that is an
order. In the orderability order itself any two temporal values tie.
-/

namespace ArcGraph.Query
open Ordering List

inductive TemporalKind where
  | temporal | localDateTime | date | duration | decimal

/-- The ids of a path; each segment has a relationship and its end node. -/
structure PathView (X : Type) where
  start : Nat
  segments : List (Nat × Nat)
  view : X

/-- A value without floats. `X` is what no comparison reads: labels, properties and the
content of the temporal kinds. A map is listed in the order of its keys. -/
inductive Value (X : Type) where
  | null
  | boolean (b : Bool)
  | integer (n : Int)
  | string (s : String)
  | node (id : Nat) (view : X)
  | relationship (id : Nat) (view : X)
  | list (items : List (Value X))
  | map (entries : List (String × Value X))
  | path (p : PathView X)
  | temporal (kind : TemporalKind) (content : X)

variable {X : Type}

namespace PathView
variable (p : PathView X)

def nodeIds : List Nat := p.start :: p.segments.map Prod.snd

def relIds : List Nat := p.segments.map Prod.fst

def cmpPaths (q : PathView X) : Ordering :=
  (compare p.nodeIds q.nodeIds).then (compare p.relIds q.relIds)

end PathView

def Value.orderabilityTypeRank : Value X → Nat
  | .path _ => 0
  | .relationship .. => 1
  | .node .. => 2
  | .map _ => 3
  | .list _ => 4
  | .string _ => 5
  | .boolean _ => 6
  | .integer _ => 7
  | .temporal .. => 8
  | .null => 9

def bytes (s : String) : List Nat := s.toByteArray.data.toList.map UInt8.toNat

def compareKeys : List (String × Value X) → List (String × Value X) → Ordering
  | (kx, _) :: x, (ky, _) :: y => (compare (bytes kx) (bytes ky)).then (compareKeys x y)
  | x, y => compare x.length y.length

mutual

def compareOrderability : Value X → Value X → Ordering
  | .boolean x, .boolean y => compare x y
  | .integer x, .integer y => compare x y
  | .string x, .string y => compare (bytes x) (bytes y)
  | .node x _, .node y _ => compare x y
  | .relationship x _, .relationship y _ => compare x y
  | .list x, .list y => compareListOrderability x y
  | .map x, .map y => (compareKeys x y).then (compareMapValues x y)
  | .path x, .path y => x.cmpPaths y
  | a, b => compare a.orderabilityTypeRank b.orderabilityTypeRank

def compareListOrderability : List (Value X) → List (Value X) → Ordering
  | ex :: x, ey :: y => (compareOrderability ex ey).then (compareListOrderability x y)
  | x, y => compare x.length y.length

def compareMapValues : List (String × Value X) → List (String × Value X) → Ordering
  | (_, vx) :: x, (_, vy) :: y => (compareOrderability vx vy).then (compareMapValues x y)
  | _, _ => .eq

end

def compareNonNullValues : Value X → Value X → Ordering
  | .boolean x, .boolean y => compare x y
  | .integer x, .integer y => compare x y
  | .string x, .string y => compare (bytes x) (bytes y)
  | .node x _, .node y _ => compare x y
  | .relationship x _, .relationship y _ => compare x y
  | .path x, .path y => x.cmpPaths y
  | .path _, _ => .lt
  | _, .path _ => .gt
  | .map x, b => compareOrderability (.map x) b
  | a, .map y => compareOrderability a (.map y)
  | .list x, b => compareOrderability (.list x) b
  | a, .list y => compareOrderability a (.list y)
  | _, _ => .eq

inductive SortDirection where
  | asc | desc

def compareWithNullPolicy (direction : SortDirection) : Value X → Value X → Ordering
  | .null, .null => .eq
  | .null, _ => match direction with
    | .asc => .gt
    | .desc => .lt
  | _, .null => match direction with
    | .asc => .lt
    | .desc => .gt
  | a, b => match direction with
    | .asc => compareNonNullValues a b
    | .desc => (compareNonNullValues a b).swap

/-! ## Codes

The orderability order is the lexicographic order of self-delimiting codes: the type rank,
then the content, with `-1` behind every sequence. -/

def seqCode (l : List Nat) (rest : List Int) : List Int := l.map Int.ofNat ++ -1 :: rest

def keysCode (rest : List Int) : List (String × Value X) → List Int
  | [] => -1 :: rest
  | (k, _) :: x => 0 :: seqCode (bytes k) (keysCode rest x)

mutual

def code : Value X → List Int → List Int
  | .null, rest => 9 :: rest
  | .boolean b, rest => 6 :: b.toNat :: rest
  | .integer n, rest => 7 :: n :: rest
  | .string s, rest => 5 :: seqCode (bytes s) rest
  | .node id _, rest => 2 :: id :: rest
  | .relationship id _, rest => 1 :: id :: rest
  | .list x, rest => 4 :: listCode x (-1 :: rest)
  | .map x, rest => 3 :: keysCode (valuesCode x rest) x
  | .path p, rest => 0 :: seqCode p.nodeIds (seqCode p.relIds rest)
  | .temporal .., rest => 8 :: rest

def listCode : List (Value X) → List Int → List Int
  | [], rest => rest
  | v :: x, rest => code v (listCode x rest)

def valuesCode : List (String × Value X) → List Int → List Int
  | [], rest => rest
  | (_, v) :: x, rest => code v (valuesCode x rest)

end

variable {r s : List Int} {a b : Value X} (direction : SortDirection)

@[simp] theorem compare_natCast (a b : Nat) : compare (a : Int) b = compare a b := by
  simp only [Int.compare_eq_ite_lt, Nat.compare_eq_ite_lt, Int.ofNat_lt]

@[simp] theorem compare_neg_natCast (n : Nat) : compare (-1 : Int) n = .lt :=
  Int.compare_eq_lt.mpr (by omega)

@[simp] theorem compare_natCast_neg (n : Nat) : compare (n : Int) (-1) = .gt :=
  Int.compare_eq_gt.mpr (by omega)

theorem compare_seqCode (l m : List Nat) :
    compare (seqCode l r) (seqCode m s) = (compare l m).then (compare r s) := by
  induction l generalizing m with
  | nil => cases m <;> simp [seqCode, List.compare_cons_cons]
  | cons a l ih =>
    cases m with
    | nil => simp [seqCode, List.compare_cons_cons]
    | cons b m =>
      have ih := ih m
      simp only [seqCode] at ih
      simp [seqCode, List.compare_cons_cons, ih, then_assoc]

theorem compare_keysCode (x y : List (String × Value X)) :
    compare (keysCode r x) (keysCode s y) = (compareKeys x y).then (compare r s) := by
  induction x generalizing y with
  | nil =>
    cases y with
    | nil => simp [keysCode, compareKeys, List.compare_cons_cons]
    | cons => simp [keysCode, compareKeys, List.compare_cons_cons, Nat.compare_eq_ite_lt]; rfl
  | cons _ _ ih =>
    cases y with
    | nil => simp [keysCode, compareKeys, List.compare_cons_cons, Nat.compare_eq_ite_lt]; rfl
    | cons =>
      simp [keysCode, compareKeys, List.compare_cons_cons, compare_seqCode, ih, then_assoc]

theorem length_eq_of_compareKeys {x y : List (String × Value X)} (h : compareKeys x y = .eq) :
    x.length = y.length := by
  induction x generalizing y with
  | nil => cases y <;> simp_all [compareKeys]
  | cons _ _ ih =>
    cases y with
    | nil => simp [compareKeys] at h
    | cons =>
      simp only [compareKeys, then_eq_eq] at h
      simp [ih h.2]

theorem code_eq_cons (v : Value X) (rest : List Int) :
    ∃ t, code v rest = (v.orderabilityTypeRank : Int) :: t := by
  cases v <;> exact ⟨_, rfl⟩

mutual

theorem compare_code (a b : Value X) (r s : List Int) :
    compare (code a r) (code b s) = (compareOrderability a b).then (compare r s) := by
  cases a <;> cases b <;> try rfl
  case boolean.boolean x y => cases x <;> cases y <;> rfl
  case map.map x y =>
    simp only [code, compareOrderability, List.compare_cons_cons, compare_keysCode]
    cases h : compareKeys x y with
    | eq => rw [compare_valuesCode x y r s (length_eq_of_compareKeys h)]; rfl
    | lt | gt => rfl
  all_goals simp [code, compareOrderability, List.compare_cons_cons, compare_seqCode,
    PathView.cmpPaths, then_assoc, compare_listCode]

theorem compare_listCode (x y : List (Value X)) (r s : List Int) :
    compare (listCode x (-1 :: r)) (listCode y (-1 :: s)) =
      (compareListOrderability x y).then (compare r s) := by
  cases x with
  | nil =>
    cases y with
    | nil => simp [listCode, compareListOrderability, List.compare_cons_cons]
    | cons b y =>
      obtain ⟨t, ht⟩ := code_eq_cons b (listCode y (-1 :: s))
      simp [listCode, compareListOrderability, ht, List.compare_cons_cons, Nat.compare_eq_ite_lt]
  | cons a x =>
    cases y with
    | nil =>
      obtain ⟨t, ht⟩ := code_eq_cons a (listCode x (-1 :: r))
      simp [listCode, compareListOrderability, ht, List.compare_cons_cons, Nat.compare_eq_ite_lt]
    | cons b y =>
      rw [listCode, listCode, compare_code a b, compare_listCode x y, compareListOrderability,
        then_assoc]

theorem compare_valuesCode (x y : List (String × Value X)) (r s : List Int)
    (h : x.length = y.length) : compare (valuesCode x r) (valuesCode y s) =
      (compareMapValues x y).then (compare r s) := by
  cases x with
  | nil =>
    cases y with
    | nil => rfl
    | cons => simp at h
  | cons a x =>
    cases y with
    | nil => simp at h
    | cons b y =>
      obtain ⟨_, a⟩ := a
      obtain ⟨_, b⟩ := b
      rw [valuesCode, valuesCode, compare_code a b, compare_valuesCode x y r s (by simpa using h),
        compareMapValues, then_assoc]

end

theorem compareOrderability_eq (a b : Value X) :
    compareOrderability a b = compare (code a []) (code b []) := by
  rw [compare_code, List.compare_nil_nil, then_eq]

theorem compareOrderability_swap (a b : Value X) :
    compareOrderability b a = (compareOrderability a b).swap := by
  rw [compareOrderability_eq, compareOrderability_eq]
  exact Std.OrientedCmp.eq_swap

/-! ## Equal values -/

section
variable (t : TemporalKind → X → Value (Option X))

mutual

/-- The value with nodes, relationships and paths read by their ids, and temporal values as
`t` says. -/
def Value.read : Value X → Value (Option X)
  | .null => .null
  | .boolean b => .boolean b
  | .integer n => .integer n
  | .string s => .string s
  | .node id _ => .node id none
  | .relationship id _ => .relationship id none
  | .list x => .list (readItems x)
  | .map x => .map (readEntries x)
  | .path p => .path ⟨p.start, p.segments, none⟩
  | .temporal kind content => t kind content

def readItems : List (Value X) → List (Value (Option X))
  | [] => []
  | v :: x => v.read :: readItems x

def readEntries : List (String × Value X) → List (String × Value (Option X))
  | [] => []
  | (k, v) :: x => (k, v.read) :: readEntries x

end
end

def anyTime (_ : TemporalKind) (_ : X) : Value (Option X) := .temporal .date none

/-- The value with all temporal values made one. -/
def Value.untimed : Value X → Value (Option X) := read anyTime

def Value.byId : Value X → Value (Option X) := read fun kind content => .temporal kind content

theorem compare_bytes_eq_eq {s t : String} : compare (bytes s) (bytes t) = .eq ↔ s = t := by
  refine Std.compare_eq_iff_eq.trans ⟨fun h => ?_, congrArg bytes⟩
  have hdata := map_injective_iff.mpr (fun a b => UInt8.toNat_inj.mp) h
  exact String.toByteArray_inj.mp (ByteArray.ext (Array.toList_inj.mp hdata))

theorem PathView.cmpPaths_eq_eq (p q : PathView X) :
    p.cmpPaths q = .eq ↔ p.start = q.start ∧ p.segments = q.segments := by
  rw [cmpPaths, then_eq_eq, Std.compare_eq_iff_eq, Std.compare_eq_iff_eq, nodeIds, nodeIds,
    cons.injEq]
  refine ⟨fun ⟨⟨hstart, hends⟩, hrels⟩ => ⟨hstart, ?_⟩, fun h => by simp [relIds, h]⟩
  exact (zip_of_prod hrels hends).trans (zip_of_prod rfl rfl).symm

mutual

theorem compareOrderability_eq_eq (a b : Value X) :
    compareOrderability a b = .eq ↔ a.untimed = b.untimed := by
  cases a <;> cases b <;> try
    exact iff_of_false (fun h => by contradiction) (fun h => by contradiction)
  case list.list x y =>
    simpa [Value.untimed, Value.read, compareOrderability] using compareList_eq_eq x y
  case map.map x y =>
    simpa [Value.untimed, Value.read, compareOrderability, then_eq_eq] using compareMap_eq_eq x y
  case path.path p q =>
    simpa [Value.untimed, Value.read, compareOrderability] using p.cmpPaths_eq_eq q
  case string.string s t =>
    simpa [Value.untimed, Value.read, compareOrderability] using compare_bytes_eq_eq
  all_goals simp [Value.untimed, Value.read, anyTime, compareOrderability,
    Value.orderabilityTypeRank]

theorem compareList_eq_eq (x y : List (Value X)) :
    compareListOrderability x y = .eq ↔ readItems anyTime x = readItems anyTime y := by
  cases x <;> cases y <;> try
    exact iff_of_false (fun h => by contradiction) (fun h => by contradiction)
  case nil.nil => exact iff_of_true rfl rfl
  case cons.cons a x b y =>
    simp only [compareListOrderability, then_eq_eq, readItems, cons.injEq,
      compareOrderability_eq_eq a b, compareList_eq_eq x y, Value.untimed]

theorem compareMap_eq_eq (x y : List (String × Value X)) :
    compareKeys x y = .eq ∧ compareMapValues x y = .eq ↔
      readEntries anyTime x = readEntries anyTime y := by
  cases x <;> cases y <;> try
    exact iff_of_false (fun ⟨h, _⟩ => by contradiction) (fun h => by contradiction)
  case nil.nil => exact iff_of_true ⟨rfl, rfl⟩ rfl
  case cons.cons a x b y =>
    obtain ⟨_, a⟩ := a
    obtain ⟨_, b⟩ := b
    simp only [compareKeys, compareMapValues, then_eq_eq, readEntries, cons.injEq, Prod.mk.injEq,
      compare_bytes_eq_eq, ← compareMap_eq_eq x y, compareOrderability_eq_eq a b, Value.untimed]
    tauto

end

/-- The orderability order is total, and two values tie exactly when they are equal by id but
for their temporal values; so they tie only if equal unless they differ in these alone. -/
theorem compareOrderability_total :
    (∀ a b : Value X, compareOrderability b a = (compareOrderability a b).swap) ∧
    (∀ a b c : Value X, (compareOrderability a b).isLE → (compareOrderability b c).isLE →
      (compareOrderability a c).isLE) ∧
    ∀ a b : Value X, (compareOrderability a b = .eq ↔ a.untimed = b.untimed) ∧
      ((compareOrderability a b = .eq → a.byId = b.byId) ↔
        ¬ (a.untimed = b.untimed ∧ a.byId ≠ b.byId)) := by
  refine ⟨compareOrderability_swap, fun a b c h1 h2 => ?_, fun a b => ?_⟩
  · rw [compareOrderability_eq] at h1 h2 ⊢
    exact Std.TransCmp.isLE_trans h1 h2
  · rw [compareOrderability_eq_eq, not_and_not_right]
    exact ⟨.rfl, .rfl⟩

/-- Lists of two different dates tie. -/
theorem compareOrderability_dates :
    compareOrderability (.list [.temporal .date 1]) (.list [.temporal .date 2]) = .eq ∧
      (.list [.temporal .date 1] : Value Nat) ≠ .list [.temporal .date 2] :=
  ⟨rfl, by simp⟩

/-! ## The comparator of `ORDER BY` -/

/-- Neither null nor a path, map or list. -/
def Value.plain : Value X → Bool
  | .null | .path _ | .map _ | .list _ => false
  | _ => true

/-- Two plain values are of one type rank. -/
def SameKind (a b : Value X) : Prop :=
  a.plain = true → b.plain = true → a.orderabilityTypeRank = b.orderabilityTypeRank

theorem compareWithNullPolicy_desc (a b : Value X) :
    compareWithNullPolicy .desc a b = (compareWithNullPolicy .asc a b).swap := by
  cases a <;> cases b <;> rfl

theorem compareWithNullPolicy_asc (h : SameKind a b) :
    compareWithNullPolicy .asc a b = compareOrderability a b := by
  cases a <;> cases b <;> first
    | rfl
    | exact absurd (h rfl rfl) (by simp [Value.orderabilityTypeRank])

theorem SameKind.symm (h : SameKind a b) : SameKind b a :=
  fun hb ha => (h ha hb).symm

/-- Values that are called equal for want of an order are so both ways. -/
theorem compareWithNullPolicy_swap (a b : Value X) :
    compareWithNullPolicy direction b a = (compareWithNullPolicy direction a b).swap := by
  have hasc : compareWithNullPolicy .asc b a = (compareWithNullPolicy .asc a b).swap := by
    by_cases h : SameKind a b
    · rw [compareWithNullPolicy_asc h, compareWithNullPolicy_asc h.symm]
      exact compareOrderability_swap a b
    · cases a <;> cases b <;> first
        | rfl
        | exact absurd (fun _ _ => rfl) h
  cases direction with
  | asc => exact hasc
  | desc => rw [compareWithNullPolicy_desc, compareWithNullPolicy_desc, hasc]

/-! ### Rows that can be sorted -/

theorem compareWithNullPolicy_plain (ha : a.plain = true) (hb : b.plain = true)
    (h : a.orderabilityTypeRank ≠ b.orderabilityTypeRank) :
    compareWithNullPolicy .asc a b = .eq := by
  cases a <;> cases b <;> first
    | rfl
    | exact absurd rfl h
    | contradiction

theorem compareWithNullPolicy_rank (h : a.plain ≠ b.plain) :
    compareWithNullPolicy .asc a b = compare a.orderabilityTypeRank b.orderabilityTypeRank := by
  cases a <;> cases b <;> first
    | rfl
    | exact absurd rfl h

theorem plain_rank (v : Value X) :
    if v.plain then 1 ≤ v.orderabilityTypeRank ∧ v.orderabilityTypeRank ≤ 8 ∧
      v.orderabilityTypeRank ≠ 3 ∧ v.orderabilityTypeRank ≠ 4
    else v.orderabilityTypeRank ∈ [0, 3, 4, 9] := by
  cases v <;> simp [Value.plain, Value.orderabilityTypeRank]

section
variable {ι : Type} {f : ι → Value X}

/-- Any two plain values are of one kind; or all of them are equal, and they lie on one side
of the maps and lists. -/
def Sortable (f : ι → Value X) : Prop :=
  (∀ i j, SameKind (f i) (f j)) ∨ ∀ i j, (f i).plain = true → (f j).plain = true →
    compareWithNullPolicy .asc (f i) (f j) = .eq ∧
    ∀ k, (f k).orderabilityTypeRank = 3 ∨ (f k).orderabilityTypeRank = 4 →
      ((f i).orderabilityTypeRank < 3 ↔ (f j).orderabilityTypeRank < 3)

/-- Plain values that are all equal may be read as any one of them. -/
theorem Sortable.exists_key (h : Sortable f) : ∃ key : ι → List Int, ∀ i j,
    compareWithNullPolicy .asc (f i) (f j) = compare (key i) (key j) := by
  by_cases hall : ∀ i j, SameKind (f i) (f j)
  · exact ⟨fun i => code (f i) [], fun i j =>
      (compareWithNullPolicy_asc (hall i j)).trans (compareOrderability_eq _ _)⟩
  have h := h.resolve_left hall
  simp only [SameKind, not_forall] at hall
  obtain ⟨p, _, hp, -⟩ := hall
  have hside : ∀ i k, (f i).plain = true → (f k).plain = false →
      compareWithNullPolicy .asc (f i) (f k) = compareWithNullPolicy .asc (f p) (f k) := by
    intro i k hi hk
    rw [compareWithNullPolicy_rank (by simp [hi, hk]),
      compareWithNullPolicy_rank (by simp [hp, hk])]
    have hi' := plain_rank (f i)
    have hp' := plain_rank (f p)
    have hk' := plain_rank (f k)
    have hip := (h i p hi hp).2 k
    simp only [hi, hp, hk, if_true, Bool.false_eq_true, if_false, mem_cons, not_mem_nil,
      or_false] at hi' hp' hk'
    simp only [Nat.compare_eq_ite_lt]
    split_ifs <;> first | rfl | omega
  refine ⟨fun i => code (if (f i).plain then f p else f i) [], fun i j => ?_⟩
  rw [← compareOrderability_eq, ← compareWithNullPolicy_asc (by
    split <;> split <;> simp_all [SameKind])]
  cases hi : (f i).plain <;> cases hj : (f j).plain
  · rfl
  · rw [compareWithNullPolicy_swap, hside j i hj hi, ← compareWithNullPolicy_swap]
    rfl
  · exact hside i j hi hj
  · exact (h i j hi hj).1.trans (h p p hp hp).1.symm

theorem sortable_of_trans (direction : SortDirection)
    (h : ∀ i j k, (compareWithNullPolicy direction (f i) (f j)).isLE →
      (compareWithNullPolicy direction (f j) (f k)).isLE →
      (compareWithNullPolicy direction (f i) (f k)).isLE) : Sortable f := by
  have h : ∀ i j k, (compareWithNullPolicy .asc (f i) (f j)).isLE →
      (compareWithNullPolicy .asc (f j) (f k)).isLE →
      (compareWithNullPolicy .asc (f i) (f k)).isLE := by
    cases direction with
    | asc => exact h
    | desc =>
      simp only [compareWithNullPolicy_desc, ← compareWithNullPolicy_swap .asc] at h
      exact fun i j k hij hjk => h k j i hjk hij
  refine or_iff_not_imp_left.mpr fun hall => ?_
  simp only [SameKind, not_forall] at hall
  obtain ⟨p, q, hp, hq, hpq⟩ := hall
  -- one of the two is of another kind than both values, and equal to both
  have hle : ∀ i j, (f i).plain = true → (f j).plain = true →
      (compareWithNullPolicy .asc (f i) (f j)).isLE := by
    intro i j hi hj
    have hvia : ∀ r, (f r).plain = true →
        (f i).orderabilityTypeRank ≠ (f r).orderabilityTypeRank →
        (f r).orderabilityTypeRank ≠ (f j).orderabilityTypeRank →
        (compareWithNullPolicy .asc (f i) (f j)).isLE := fun r hr hir hrj =>
      h i r j (by rw [compareWithNullPolicy_plain hi hr hir]; rfl)
        (by rw [compareWithNullPolicy_plain hr hj hrj]; rfl)
    by_cases hij : (f i).orderabilityTypeRank = (f j).orderabilityTypeRank
    · by_cases hip : (f i).orderabilityTypeRank = (f p).orderabilityTypeRank
      · exact hvia q hq (hip ▸ hpq) (hij ▸ hip ▸ Ne.symm hpq)
      · exact hvia p hp hip (hij ▸ Ne.symm hip)
    · rw [compareWithNullPolicy_plain hi hj hij]
      rfl
  intro i j hi hj
  refine ⟨?_, fun k hk => ?_⟩
  · have hback := hle j i hj hi
    rw [compareWithNullPolicy_swap] at hback
    exact (by decide : ∀ o : Ordering, o.isLE → o.swap.isLE → o = .eq) _ (hle i j hi hj) hback
  · have hplain : (f k).plain = false := by
      cases hv : f k <;> simp_all [Value.orderabilityTypeRank, Value.plain]
    have h1 := h i j k (hle i j hi hj)
    have h2 := h j i k (hle j i hj hi)
    rw [compareWithNullPolicy_rank (a := f i) (by simp [hi, hplain]),
      compareWithNullPolicy_rank (a := f j) (by simp [hj, hplain]), Nat.isLE_compare,
      Nat.isLE_compare] at h1 h2
    have hi' := plain_rank (f i)
    have hj' := plain_rank (f j)
    simp only [hi, hj, if_true] at hi' hj'
    omega

def SortDirection.compareCodes : SortDirection → List Int → List Int → Ordering
  | .asc => compare
  | .desc => fun x y => compare y x

instance : ∀ direction : SortDirection, Std.TransCmp direction.compareCodes
  | .asc => inferInstanceAs (Std.TransOrd (List Int))
  | .desc => inferInstanceAs (Std.TransCmp fun x y : List Int => compare y x)

theorem SortDirection.compareCodes_eq_eq : ∀ {direction : SortDirection} {x y : List Int},
    direction.compareCodes x y = .eq ↔ x = y
  | .asc, _, _ => Std.compare_eq_iff_eq
  | .desc, _, _ => Std.compare_eq_iff_eq.trans eq_comm

open SortDirection

end

end ArcGraph.Query
