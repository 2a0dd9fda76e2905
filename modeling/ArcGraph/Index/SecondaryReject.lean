import ArcGraph.Foundation.System
import ArcGraph.Index.SecondaryMap
import Mathlib.Data.UInt

/-!
# A key that does not encode

A `U64` value of 2^56 or more is found out when its key is written to the page: behind
the shift of the entries above it, and on a full leaf behind the cut of the split. The
error leaves the page as it is then. In place, the last entry is shifted out and a
half-written copy of an entry stands before the others; on a full leaf the upper half
is gone. Nothing is lost only if the entry would have gone to the end of a leaf with
room.
-/

namespace ArcGraph.Index.Secondary
open Foundation Function List Nat

section
variable {k : SecondaryKey} {v : UInt64}

/-- The value of the key is a `U64` that does not fit into seven bytes. -/
def SecondaryKey.Overflows (k : SecondaryKey) (v : UInt64) : Prop :=
  k.value = .u64 v ∧ 2 ^ 56 ≤ v.toNat

theorem SecondaryKey.Overflows.encode (h : k.Overflows v) :
    k.encode = .error (.valueOverflow v.toNat) := by
  have hlt : 2 ^ 56 - 1 < v.toNat := by
    have := h.2
    omega
  simp only [SecondaryKey.encode, h.1, if_pos hlt]

theorem SecondaryKey.Overflows.not_encodable (h : k.Overflows v) : ¬k.Encodable := by
  intro hk
  rw [SecondaryKey.Encodable, h.encode] at hk
  cases hk

theorem SecondaryKey.Overflows.halfEncoded_lt (h : k.Overflows v) (old : SecondaryKey) :
    k.halfEncoded old < k := by
  have hpayload : old.value.payload % 2 ^ 56 < v.toNat :=
    (mod_lt _ (by decide)).trans_le h.2
  have hval : (UInt64.ofNat (old.value.payload % 2 ^ 56)).toNat = old.value.payload % 2 ^ 56 := by
    rw [UInt64.toNat_ofNat_of_lt']
    exact hpayload.trans (UInt64.toNat_lt v)
  have hlt : (UInt64.ofNat (old.value.payload % 2 ^ 56)).toNat < v.toNat := by
    rw [hval]
    exact hpayload
  show (k.halfEncoded old).rank < k.rank
  simp only [SecondaryKey.rank, SecondaryKey.halfEncoded, h.1, PropertyValue.variantTag,
    Prod.Lex.toLex_lt_toLex, lt_self_iff_false, true_and, false_or]
  exact hlt

end

/-! ## The leaf page -/

section
variable {entries : List LeafEntry} {k : SecondaryKey} {v : UInt64} {node : NodeId} {leafId : Nat}

/-- The leaf has room and the key belongs to its end. -/
def GoesLast (entries : List LeafEntry) (k : SecondaryKey) : Prop :=
  entries.length < leafCapacity ∧ ∀ e ∈ entries, e.key < k

instance GoesLast.decidable (entries : List LeafEntry) (k : SecondaryKey) :
    Decidable (GoesLast entries k) :=
  inferInstanceAs (Decidable (_ ∧ _))

theorem halfInserted_eq (a init : List LeafEntry) (e last : LeafEntry)
    (h : (a ++ init ++ [last])[a.length]? = some e) :
    halfInserted (a ++ init ++ [last]) a.length k =
      a ++ { e with key := k.halfEncoded e.key } :: init := by
  have hlen : (a ++ (init ++ [last])).length = a.length + (init.length + 1) := by simp
  rw [append_assoc] at h ⊢
  simp only [halfInserted, h, insertIdx_append, hlen]
  simp [take_length_add_append]

theorem insertEntry_overflow (leafId : Nat) (node : NodeId) (hover : k.Overflows v)
    (hasc : AscendingBy LeafEntry.key entries) (hnone : findKey LeafEntry.key entries k = none)
    (hroom : entries.length < leafCapacity) :
    ∃ kept, insertEntry leafId entries (.fresh k node) = (kept, some (.valueOverflow v.toNat)) ∧
      (∀ e ∈ kept, e.key < k ∨ e ∈ entries) ∧ ((∀ e ∈ entries, e.key < k) → kept = entries) ∧
      (¬(∀ e ∈ entries, e.key < k) → ∃ e ∈ entries, ∀ e' ∈ kept, e'.key ≠ e.key) := by
  rcases findInLeaf_cases hasc k with ⟨_, _, _, -, -, -, -, hfind⟩ | ⟨a, b, rfl, ha, hb, habsent, -⟩
  · simp [hfind] at hnone
  · have hinsert : insertEntry leafId (a ++ b) (.fresh k node) =
        (halfInserted (a ++ b) a.length k, some (.valueOverflow v.toNat)) := by
      simp only [insertEntry, LeafEntry.fresh, habsent, insertAt, if_neg (not_le.mpr hroom),
        hover.encode]
    rcases eq_nil_or_concat b with rfl | ⟨init, last, rfl⟩
    · have hsame : halfInserted (a ++ []) a.length k = a ++ [] := by simp [halfInserted]
      refine ⟨a ++ [], by rw [hinsert, hsame], fun e he => .inr he, fun _ => rfl, fun hnot => ?_⟩
      exact absurd (fun e he => ha e (by simpa using he)) hnot
    · rw [concat_eq_append] at hb hinsert hasc ⊢
      obtain ⟨e, he⟩ : ∃ e, (a ++ init ++ [last])[a.length]? = some e := by
        rw [append_assoc, getElem?_append_right (Nat.le_refl _), Nat.sub_self]
        cases init <;> exact ⟨_, rfl⟩
      rw [← append_assoc] at hinsert
      rw [halfInserted_eq a init e last he] at hinsert
      have hlast : k < last.key := hb last (by simp)
      have hinit : ∀ x ∈ init, x.key < last.key :=
        (ascendingBy_insert.mp (ascendingBy_append.mp hasc).2.1).2.2.1
      refine ⟨_, by rw [← append_assoc]; exact hinsert, fun x hx => ?_, fun hall => ?_,
        fun _ => ⟨last, by simp, fun x hx => ?_⟩⟩
      · simp only [mem_append, mem_cons] at hx ⊢
        rcases hx with hx | rfl | hx
        · exact .inr (.inl hx)
        · exact .inl (hover.halfEncoded_lt _)
        · exact .inr (.inr (.inl hx))
      · exact absurd (hall last (by simp)) hlast.not_gt
      · simp only [mem_append, mem_cons] at hx
        rcases hx with hx | rfl | hx
        · exact ((ha x hx).trans hlast).ne
        · exact ((hover.halfEncoded_lt _).trans hlast).ne
        · exact (hinit x hx).ne

end

/-! ## A refused insert -/

section
variable {s s' : State} {h : Nat} {es kept : List LeafEntry} {ids : List Nat} {k : SecondaryKey}
  {v : UInt64} {node : NodeId} {p : Place SecondaryKey LeafEntry}
  {chains : SecondaryKey → List Nat} {m : SecondaryKey → Slots}

/-- Only the leaf was written, and page ids may have been used up. -/
structure LeafLeft (s s' : State) (leafId : Nat) (kept : List LeafEntry) : Prop where
  pages : s'.pages = update s.pages leafId (some (.leaf kept))
  nextPage : s.nextPage ≤ s'.nextPage
  rootCache : s'.rootCache = s.rootCache
  rootChanges : s'.log.rootChanges = s.log.rootChanges
  extra : s'.extra = s.extra

theorem applyLeafInsert_overflow (node : NodeId) (hs : Holds config LeafEntry.key s h es ids)
    (hl : Leads config LeafEntry.key s.pages k h none none s.rootCache es ids p)
    (hover : k.Overflows v) (hnone : findKey LeafEntry.key p.entries k = none) :
    ∃ s' kept, applyLeafInsert p.leaf p.entries k node s = .error (.valueOverflow v.toNat) s' ∧
      LeafLeft s s' p.leaf kept ∧ (GoesLast p.entries k → kept = p.entries) ∧
      (¬GoesLast p.entries k → ∃ e ∈ p.entries, ∀ e' ∈ kept, e'.key ≠ e.key) := by
  have hasc : AscendingBy LeafEntry.key p.entries := hl.leaf_spec.1.2.2.1
  obtain ⟨pos, hfind⟩ : ∃ pos, find p.entries k = .absent pos := by
    rcases findInLeaf_cases hasc k with ⟨_, _, _, -, -, -, -, hfound⟩ | ⟨_, _, -, -, -, hfind, -⟩
    · simp [hfound] at hnone
    · exact ⟨_, hfind⟩
  by_cases hfull : leafCapacity ≤ p.entries.length
  · have hnot : ¬GoesLast p.entries k := fun hlast => absurd hlast.1 (not_lt.mpr hfull)
    obtain ⟨left, mid, _, hentries, hsplit, hleft, hright, -⟩ := hl.halves hs hfull
    have hmid : mid ∈ p.entries := by simp [hentries]
    rw [hentries] at hasc hnone
    rw [findKey_append, Option.or_eq_none_iff] at hnone
    obtain ⟨hascLeft, hascRight, -⟩ := ascendingBy_append.mp hasc
    have hbelow := (ascendingBy_insert.mp hasc).2.2.1
    by_cases hk : k < mid.key
    · obtain ⟨kept, hinsert, hkeys, -⟩ :=
        insertEntry_overflow p.leaf node hover hascLeft hnone.1 hleft
      have hk' : (LeafEntry.fresh k node).key < mid.key := hk
      refine ⟨{ s with
        pages := update s.pages p.leaf (some (.leaf kept))
        nextPage := s.nextPage + 1 }, kept, ?_, ⟨rfl, le_succ _, rfl, rfl, rfl⟩,
        fun hlast => absurd hlast hnot, fun _ => ⟨mid, hmid, fun e he => ?_⟩⟩
      · simp only [applyLeafInsert, hfind, if_pos hfull, splitAndInsert, bind_apply, alloc_apply,
          hsplit, liftExcept_ok, writePage_apply, if_pos hk', insertInPlace, hinsert,
          update_idem, throw_apply]
      · rcases hkeys e he with hlt | hold
        · exact (hlt.trans hk).ne
        · exact (hbelow e hold).ne
    · obtain ⟨kept, hinsert, -⟩ :=
        insertEntry_overflow s.nextPage node hover hascRight hnone.2 hright
      have hk' : ¬(LeafEntry.fresh k node).key < mid.key := hk
      refine ⟨{ s with
        pages := update s.pages p.leaf (some (.leaf left))
        nextPage := s.nextPage + 1 }, left, ?_, ⟨rfl, le_succ _, rfl, rfl, rfl⟩,
        fun hlast => absurd hlast hnot, fun _ => ⟨mid, hmid, fun e he => (hbelow e he).ne⟩⟩
      simp only [applyLeafInsert, hfind, if_pos hfull, splitAndInsert, bind_apply, alloc_apply,
        hsplit, liftExcept_ok, writePage_apply, if_neg hk', hinsert, throw_apply]
  · have hroom := not_le.mp hfull
    obtain ⟨kept, hinsert, -, hsame, hlost⟩ := insertEntry_overflow p.leaf node hover hasc hnone hroom
    refine ⟨{ s with pages := update s.pages p.leaf (some (.leaf kept)) }, kept, ?_,
      ⟨rfl, le_rfl, rfl, rfl, rfl⟩, fun hlast => hsame hlast.2, fun hnot => hlost fun hall => ?_⟩
    · simp only [applyLeafInsert, hfind, if_neg hfull, bind_apply, insertInPlace, hinsert,
        writePage_apply, throw_apply]
    · exact hnot ⟨hroom, hall⟩

def leafOf (s : State) (k : SecondaryKey) : List LeafEntry :=
  match descendRead k s.nextPage s.rootCache s with
  | .ok entries _ => entries
  | .error _ _ => []

theorem leafOf_eq (hs : Holds config LeafEntry.key s h es ids)
    (hl : Leads config LeafEntry.key s.pages k h none none s.rootCache es ids p) :
    leafOf s k = p.entries := by
  obtain ⟨hpage, hk⟩ := hl.leaf_spec
  rw [leafOf, (hl.read hk hs.height_lt (fun _ _ => rfl) hpage.1).2]

/-- A key without an entry on its leaf has no nodes, also if the leaf is out of order. -/
theorem lookup_absent {entries : List LeafEntry}
    (hread : descendRead k s.nextPage s.rootCache s = .ok entries s)
    (hnone : ∀ e ∈ entries, e.key ≠ k) : lookup k s = .ok [] s := by
  have habsent : ∃ pos, find entries k = .absent pos := by
    cases hsearch : searchIn LeafEntry.key entries k with
    | absent pos => exact ⟨pos, by simp only [findInLeaf, hsearch]⟩
    | found i =>
      have hprobe := probe_of_search_found hsearch
      cases hi : entries[i]? with
      | none => simp [probeAt, hi] at hprobe
      | some e =>
        simp only [probeAt, hi, compare_eq_iff_eq] at hprobe
        exact absurd hprobe (hnone e (mem_of_getElem? hi))
  obtain ⟨pos, hfind⟩ := habsent
  simp [lookup, hread, hfind]

theorem writeDeferred_overflow (hs : Holds config LeafEntry.key s h es ids)
    (hst : Stores s es ids chains m) (hover : k.Overflows v) (node : NodeId) :
    ∃ p s' kept, Leads config LeafEntry.key s.pages k h none none s.rootCache es ids p ∧
      writeDeferred k (some node) .insert s = .error (.valueOverflow v.toNat) s' ∧
      LeafLeft s s' p.leaf kept ∧ (GoesLast p.entries k → kept = p.entries) ∧
      (¬GoesLast p.entries k → ∃ e ∈ p.entries, ∀ e' ∈ kept, e'.key ≠ e.key) := by
  obtain ⟨p, _, _, hsame, hleads, hwrite, -⟩ := writeDeferred_reaches hs k (some node) .insert
  have hnone : findKey LeafEntry.key p.entries k = none := by
    by_contra hsome
    exact hover.not_encodable (hst.encodable k (hleads.findKey_eq ▸ hsome))
  obtain ⟨s2, kept, hrun, hleft, hkeep, hlose⟩ :=
    applyLeafInsert_overflow node (hs.same hsame) hleads hover hnone
  rw [hsame.pages, hsame.rootCache] at hleads
  refine ⟨p, s2, kept, hleads, ?_, ⟨?_, ?_, ?_, ?_, ?_⟩, hkeep, hlose⟩
  · simp only [hwrite, bind_apply, applyOp, hrun]
  · rw [hleft.pages, hsame.pages]
  · exact hsame.nextPage.ge.trans hleft.nextPage
  · exact hleft.rootCache.trans hsame.rootCache
  · exact hleft.rootChanges.trans hsame.rootChanges
  · exact hleft.extra.trans hsame.extra

theorem insert_overflow (hs : Represents s m) (hover : k.Overflows v) (node : NodeId) :
    ∃ s', insert k node s = .error (.valueOverflow v.toNat) s' ∧
      (GoesLast (leafOf s k) k → Represents s' m) ∧ (¬GoesLast (leafOf s k) k →
        ∃ e ∈ leafOf s k, e.key.Encodable ∧ lookup e.key s' = .ok [] s') := by
  obtain ⟨chains, h, es, ids, hs, hst⟩ := hs
  have hclear : Holds config LeafEntry.key ({ s with log := {} } : State) h es ids :=
    ⟨hs.fresh, hs.tree, hs.nodup⟩
  obtain ⟨p, s', _, hleads, hrun, hleft, hkeep, hlose⟩ :=
    writeDeferred_overflow hclear (hst.frame le_rfl (fun _ _ _ => rfl) rfl fun _ hi => .inl hi)
      hover node
  rw [leafOf_eq hs hleads]
  refine ⟨s', ?_, fun hlast => ?_, fun hnot => ?_⟩
  · simp [insert, write, hrun]
  · have hpages : s'.pages = s.pages := by
      rw [hleft.pages, hkeep hlast]
      exact update_eq_self_iff.mpr hleads.leaf_spec.1.1.symm
    exact ⟨chains, RepresentsOn.same ⟨h, es, ids, hs, hst⟩ hpages hleft.rootCache hleft.nextPage
      (by rw [hleft.extra])⟩
  · obtain ⟨e, he, hlost⟩ := hlose hnot
    have hmem : e ∈ es := by
      rw [hleads.entries_eq]
      simp [he]
    refine ⟨e, he, hst.encodable e.key ?_, lookup_absent ?_ hlost⟩
    · rw [hs.tree.entries.1.findKey_mem hmem]
      exact Option.some_ne_none e
    · obtain ⟨-, hnotin, -⟩ := hleads.nodup hs
      rw [hleft.rootCache]
      refine (hleads.read (hleads.leaf_spec.1.2.2.2.1 e he) (hs.height_lt.trans_le hleft.nextPage)
        (fun i hi => ?_) ?_).2
      · rw [hleft.pages, update_of_ne fun h : i = p.leaf => hnotin (h ▸ hi)]
      · rw [hleft.pages, update_self]

end

/-! ## Every reachable index -/

/-- The state behind an operation, whether it was refused or not. -/
def Op.after (op : Op) (s : State) : State :=
  match op.run s with
  | .ok _ s' => s'
  | .error _ s' => s'

def index (allocated : Nat) : System State Op := ⟨new allocated, fun s op => some (op.after s)⟩

/-- The operations that leave a usable index: an insert has a key that can be encoded,
or one that is refused at the end of a leaf. -/
def Op.Harmless (s : State) : Op → Prop
  | .insert key _ => key.Encodable ∨ (∃ v, key.Overflows v) ∧ GoesLast (leafOf s key) key
  | .remove _ _ => True
  | .lookup _ => True
  | .setTails cache => ∀ head t, cache head = some t → InChain s.pages head t

/-- What a lookup answers, if it does not fail. -/
def found (s : State) (k : SecondaryKey) : Option (List NodeId) :=
  match lookup k s with
  | .ok nodes _ => some nodes
  | .error _ _ => none

variable {s : State} {m : SecondaryKey → Slots} {allocated : Nat}

theorem found_eq (hs : Represents s m) (k : SecondaryKey) : found s k = some (m k).live := by
  rw [found, lookup_spec hs]

theorem Represents.after (hs : Represents s m) {op : Op} (hop : op.Harmless s) :
    ∃ m', Represents (op.after s) m' := by
  cases op with
  | insert k node =>
    rcases hop with hk | ⟨⟨v, hover⟩, hlast⟩
    · obtain ⟨s', hrun, hs'⟩ := insert_spec hs hk node
      refine ⟨update m k ((m k).insert node), ?_⟩
      simpa only [Op.after, Op.run, bind_apply, hrun, pure_apply] using hs'
    · obtain ⟨s', hrun, hkeep, -⟩ := insert_overflow hs hover node
      refine ⟨m, ?_⟩
      simpa only [Op.after, Op.run, bind_apply, hrun] using hkeep hlast
  | remove k node =>
    obtain ⟨s', _, hrun, -, hs'⟩ := remove_spec hs k node
    refine ⟨update m k ((m k).remove node), ?_⟩
    simpa only [Op.after, Op.run, bind_apply, hrun, pure_apply] using hs'
  | lookup =>
    refine ⟨m, ?_⟩
    simpa only [Op.after, Op.run, bind_apply, lookup_spec hs, pure_apply] using hs
  | setTails => exact ⟨m, hs.setTails hop⟩

theorem represents_of_reach (hs : (index allocated).Reach Op.Harmless s) : ∃ m, Represents s m := by
  refine hs.invariant (P := fun s => ∃ m, Represents s m) ⟨_, represents_new allocated⟩ ?_
  rintro s op s' ⟨m, hm⟩ hop hstep
  cases hstep
  exact hm.after hop

/-- An insert of a key that does not encode is refused. If the entry would have gone to
the end of a leaf with room, all lookups stay as they were; else an entry of the leaf is
lost, so that a lookup differs if every entry there has a node. -/
theorem overflow_insert_keeps (hs : (index allocated).Reach Op.Harmless s) (k : SecondaryKey)
    (v : UInt64) (hover : k.Overflows v) (node : NodeId) :
    ∃ s', insert k node s = .error (.valueOverflow v.toNat) s' ∧
      (GoesLast (leafOf s k) k → ∀ k', found s' k' = found s k') ∧
      (¬GoesLast (leafOf s k) k → (∀ e ∈ leafOf s k, found s e.key ≠ some []) →
        ∃ k', k'.Encodable ∧ found s' k' ≠ found s k') := by
  obtain ⟨m, hm⟩ := represents_of_reach hs
  obtain ⟨s', hrun, hkeep, hlose⟩ := insert_overflow hm hover node
  refine ⟨s', hrun, fun hlast k' => ?_, fun hnot hnodes => ?_⟩
  · rw [found_eq hm, found_eq (hkeep hlast)]
  · obtain ⟨e, he, hk, hlookup⟩ := hlose hnot
    refine ⟨e.key, hk, fun heq => hnodes e he ?_⟩
    rw [← heq, found, hlookup]

/-- An index with one entry. -/
def entryIndex : State := (Op.insert ⟨1, 1, 2, .u32 0⟩ 7).after (new 0)

theorem overflow_insert_keeps_oneEntry :
    found entryIndex ⟨1, 1, 2, .u32 0⟩ = some [7] ∧
      ∃ s', insert ⟨1, 1, 3, .u64 (2 ^ 56)⟩ 8 entryIndex = .error (.valueOverflow (2 ^ 56)) s' ∧
        ∀ k', found s' k' = found entryIndex k' := by
  have h : (index 0).Reach Op.Harmless entryIndex :=
    .step (a := .insert ⟨1, 1, 2, .u32 0⟩ 7) .init (.inl (by decide)) rfl
  obtain ⟨s', hrun, hkeep, -⟩ :=
    overflow_insert_keeps h ⟨1, 1, 3, .u64 (2 ^ 56)⟩ (2 ^ 56) ⟨rfl, by decide⟩ 8
  exact ⟨by decide +kernel, s', hrun, hkeep (by decide +kernel)⟩

/-- An insert of a smaller key that does not encode: the node of the entry is no longer
found. -/
theorem overflow_insert_loses_entry :
    found entryIndex ⟨1, 1, 2, .u32 0⟩ = some [7] ∧
    found ((Op.insert ⟨1, 1, 1, .u64 (2 ^ 56)⟩ 8).after entryIndex) ⟨1, 1, 2, .u32 0⟩ = some [] := by
  decide +kernel

end ArcGraph.Index.Secondary
