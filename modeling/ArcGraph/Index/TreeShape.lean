import ArcGraph.Index.Pages
import ArcGraph.Foundation.SeparatorChain

/-!
# The shape of a B+tree over pages

`Subtree pages h lo hi id es ids` says that page `id` is the root of a tree of
height `h` within the bounds `lo` and `hi`: its leaves hold the entries `es` from
left to right, and `ids` are its pages. All leaves are at the same height. The
tree depends on nothing but the pages `ids` (`Subtree.frame`).

A key leads through a tree to one leaf. `Leads` records the way, so that what a
descent does and what a split does on its way back are both inductions on it.
-/

namespace ArcGraph.Index
open Foundation List
variable {K E X : Type} [LinearOrder K] {i : Nat}

/-- The tree of height `h` under a page. -/
def Subtree (cfg : TreeConfig K) (key : E → K) (pages : Nat → Option (Page K E X)) :
    Nat → ChildPred K Nat E Nat
  | 0 => fun lo hi id es ids => pages id = some (.leaf es) ∧ ids = [id] ∧ AscendingBy key es ∧
      (∀ e ∈ es, InBounds lo hi (key e)) ∧ es.length ≤ cfg.leafCapacity
  | h + 1 => fun lo hi id es ids => ∃ first pairs rest, pages id = some (.internal first pairs) ∧
      pairs.length ≤ cfg.internalCapacity ∧
      Chain (Subtree cfg key pages h) lo hi first pairs es rest ∧ ids = id :: rest

section
variable {cfg : TreeConfig K} {key : E → K} {pages pages' : Nat → Option (Page K E X)} {h id : Nat}
  {lo hi : Option K} {es : List E} {ids : List Nat}

variable (ht : Subtree cfg key pages h lo hi id es ids)
include ht

namespace Subtree

theorem frame
    (hpages : ∀ i ∈ ids, pages' i = pages i) : Subtree cfg key pages' h lo hi id es ids := by
  induction h generalizing lo hi id es ids with
  | zero =>
    obtain ⟨hpage, rfl, hrest⟩ := ht
    exact ⟨(hpages id (by simp)).trans hpage, rfl, hrest⟩
  | succ h ih =>
    obtain ⟨first, pairs, rest, hpage, hlen, hchain, rfl⟩ := ht
    refine ⟨first, pairs, rest, (hpages id (by simp)).trans hpage, hlen, ?_, rfl⟩
    exact hchain.mono fun hc hsub =>
      ih hc fun i hi => hpages i (mem_cons_of_mem _ (hsub i hi))

theorem mapped : ∀ i ∈ ids, ∃ page, pages i = some page := by
  induction h generalizing lo hi id es ids with
  | zero =>
    obtain ⟨hpage, rfl, -⟩ := ht
    exact forall_mem_singleton.mpr ⟨_, hpage⟩
  | succ _ ih =>
    obtain ⟨_, _, _, hpage, -, hchain, rfl⟩ := ht
    refine forall_mem_cons.mpr ⟨⟨_, hpage⟩, ?_⟩
    exact hchain.forall_ids fun hc => ih hc

theorem root_mem : id ∈ ids := by
  cases h with
  | zero => simp [ht.2.1]
  | succ =>
    obtain ⟨_, _, _, -, -, -, rfl⟩ := ht
    exact mem_cons_self

theorem height_lt : h < ids.length := by
  induction h generalizing lo hi id es ids with
  | zero => simp [ht.2.1]
  | succ h ih =>
    obtain ⟨_, _, rest, -, -, hchain, rfl⟩ := ht
    have hrest : h < rest.length := by
      cases hchain with
      | last hc => exact ih hc
      | cons _ hc =>
        have := ih hc
        simp only [length_append]
        omega
    simpa using hrest

theorem entries : AscendingBy key es ∧ ∀ e ∈ es, InBounds lo hi (key e) := by
  induction h generalizing lo hi id es ids with
  | zero => exact ⟨ht.2.2.1, ht.2.2.2.1⟩
  | succ h ih =>
    obtain ⟨_, _, _, -, -, hchain, -⟩ := ht
    exact hchain.entries ih

end Subtree
end

/-! ## The way to a leaf -/

/-- The leaf of a key: its bounds, its entries, and what the tree has on both sides
of it. -/
structure Place (K E : Type) where
  leaf : Nat
  lo : Option K
  hi : Option K
  before : List E
  entries : List E
  after : List E
  idsBefore : List Nat
  idsAfter : List Nat

def Place.others (p : Place K E) : List Nat := p.idsBefore ++ p.idsAfter

omit [LinearOrder K] in
theorem Place.mem_ids {p : Place K E} {middle : List Nat} :
    i ∈ p.idsBefore ++ middle ++ p.idsAfter ↔ i ∈ middle ∨ i ∈ p.others := by
  simp only [Place.others, mem_append]
  grind

/-- A place of a child, seen from its parent `id`. -/
def Place.within (p : Place K E) (id : Nat) (f : ChainFocus K Nat E Nat) : Place K E :=
  ⟨p.leaf, p.lo, p.hi, f.before ++ p.before, p.entries, p.after ++ f.after,
    id :: (f.idsBefore ++ p.idsBefore), p.idsAfter ++ f.idsAfter⟩

omit [LinearOrder K] in
theorem Place.mem_within_others {p : Place K E} {id : Nat} {f : ChainFocus K Nat E Nat} :
    i ∈ (p.within id f).others ↔ i ∈ id :: (f.idsBefore ++ f.idsAfter) ∨ i ∈ p.others := by
  simp only [Place.others, Place.within, mem_append, mem_cons]
  grind

/-- The key `k` leads through the tree under `id` to the place `p`. -/
inductive Leads (cfg : TreeConfig K) (key : E → K) (pages : Nat → Option (Page K E X)) (k : K) :
    Nat → Option K → Option K → Nat → List E → List Nat → Place K E → Prop
  | leaf {lo hi : Option K} {id : Nat} {es : List E} (hleaf : Subtree cfg key pages 0 lo hi id es [id])
      (hk : InBounds lo hi k) :
      Leads cfg key pages k 0 lo hi id es [id] ⟨id, lo, hi, [], es, [], [], []⟩
  | node {h : Nat} {lo hi : Option K} {id first : Nat} {pairs : List (K × Nat)} {es : List E}
      {rest : List Nat} {f : ChainFocus K Nat E Nat} {p : Place K E}
      (hpage : pages id = some (.internal first pairs)) (hlen : pairs.length ≤ cfg.internalCapacity)
      (hf : f.At (Subtree cfg key pages h) lo hi first pairs es rest k)
      (hp : Leads cfg key pages k h f.lo f.hi (childBehind first f.left) f.entries f.ids p) :
      Leads cfg key pages k (h + 1) lo hi id es (id :: rest) (p.within id f)

variable {cfg : TreeConfig K} {key : E → K} {pages : Nat → Option (Page K E X)} {h id : Nat}
  {lo hi : Option K} {es : List E} {ids : List Nat} {k : K} {p : Place K E}

theorem Subtree.leads (ht : Subtree cfg key pages h lo hi id es ids) (hk : InBounds lo hi k) :
    ∃ p, Leads cfg key pages k h lo hi id es ids p := by
  induction h generalizing lo hi id es ids with
  | zero =>
    obtain rfl : ids = [id] := ht.2.1
    exact ⟨_, .leaf ht hk⟩
  | succ _ ih =>
    obtain ⟨_, _, _, hpage, hlen, hchain, rfl⟩ := ht
    obtain ⟨_, hf⟩ := hchain.focus hk
    obtain ⟨_, hp⟩ := ih hf.child hf.inBounds
    exact ⟨_, .node hpage hlen hf hp⟩

variable (hl : Leads cfg key pages k h lo hi id es ids p)
include hl

theorem Leads.entries_eq : es = p.before ++ p.entries ++ p.after := by
  induction hl with
  | leaf => simp
  | node _ _ hf _ ih => simp only [hf.entries_eq, ih, Place.within, append_assoc]

theorem Leads.ids_eq : ids = p.idsBefore ++ p.leaf :: p.idsAfter := by
  induction hl with
  | leaf => rfl
  | node _ _ hf _ ih =>
    simp [hf.ids_eq, ih, Place.within]

theorem Leads.leaf_spec :
    Subtree cfg key pages 0 p.lo p.hi p.leaf p.entries [p.leaf] ∧ InBounds p.lo p.hi k := by
  induction hl with
  | leaf hleaf hk => exact ⟨hleaf, hk⟩
  | node _ _ _ _ ih => exact ih

theorem Leads.around : (∀ e ∈ p.before, key e < k) ∧ ∀ e ∈ p.after, k < key e := by
  induction hl with
  | leaf => simp
  | node _ _ hf _ ih =>
    refine ⟨forall_mem_append.mpr ⟨?_, ih.1⟩, forall_mem_append.mpr ⟨ih.2, ?_⟩⟩
    · exact hf.before_below fun hx ht e he => ((ht.entries.2 e he).2 _ rfl).trans_le hx
    · exact hf.after_above fun hx ht e he => hx.trans_le ((ht.entries.2 e he).1 _ rfl)

end ArcGraph.Index
