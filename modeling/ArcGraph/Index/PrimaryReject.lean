import ArcGraph.Index.PrimaryMap

/-!
# A rejected insert

`insert` of a live key is refused by the leaf page, but only after the fullness test
of the leaf: on a full leaf the split comes first, cuts the left half in place, and
the refusal then drops the right half with everything in it. The tree stays well
formed, so the loss is silent. A rejected insert leaves all lookups as they were
exactly if the leaf of the key has room, or has no live entry in its upper half.
-/

namespace ArcGraph.Index.Primary
open Foundation Option List Nat
variable (s : State) (k : PrimaryKey)

def leafOf : List LeafEntry :=
  match descendRead k s.nextPage s.rootCache s with
  | .ok entries _ => entries
  | .error _ _ => []

/-- The leaf has room, or no live entry in its upper half: a split that is given up
half-way loses nothing. -/
def SplitKeeps (entries : List LeafEntry) : Prop :=
  entries.length < leafCapacity ∨
    ∀ e ∈ entries.drop (entries.length / 2), e.tombstone = true

instance SplitKeeps.decidable (entries : List LeafEntry) : Decidable (SplitKeeps entries) :=
  inferInstanceAs (Decidable (_ ∨ _))

/-- A leaf cut in place by a split that was given up: the new page id is used up. -/
def afterCut (leafId : Nat) (left : List LeafEntry) : State :=
  { s with
    pages := Function.update s.pages leafId (some (.leaf left))
    nextPage := s.nextPage + 1 }

section
variable {l m r : List LeafEntry}

theorem live_drop_iff (h : AscendingBy LeafEntry.key (l ++ m ++ r)) :
    (∀ k, live (l ++ r) k = live (l ++ m ++ r) k) ↔ ∀ e ∈ m, e.tombstone = true := by
  have hparts := ascendingBy_append.mp h
  have hlm := ascendingBy_append.mp hparts.1
  have habsent : ∀ e ∈ m, findKey LeafEntry.key (l ++ r) e.key = none := by
    intro e he
    refine findKey_eq_none (forall_mem_append.mpr ⟨fun x hx => ?_, fun x hx => ?_⟩)
    · exact (hlm.2.2 x hx e he).ne
    · exact (hparts.2.2 e (mem_append_right _ he) x hx).ne'
  have hfound : ∀ e ∈ m, live (l ++ m ++ r) e.key = e.liveValue := by
    intro e he
    rw [live, h.findKey_mem (by simp [he]), bind_some]
  constructor
  · intro hsame e he
    have hnone : e.liveValue = none := by
      rw [← hfound e he, ← hsame, live, habsent e he, bind_none]
    simpa [LeafEntry.liveValue] using hnone
  · intro htomb k
    by_cases hk : ∃ e ∈ m, e.key = k
    · obtain ⟨e, he, rfl⟩ := hk
      rw [hfound e he, live, habsent e he, LeafEntry.liveValue, if_pos (htomb e he), bind_none]
    · have hnone : findKey LeafEntry.key m k = none :=
        findKey_eq_none fun x hx heq => hk ⟨x, hx, heq⟩
      rw [live, live, findKey_append, findKey_append, findKey_append, hnone, or_none]

end

section
variable {s : State} {h : Nat} {es : List LeafEntry} {ids : List Nat} {k : PrimaryKey} {v : PageSlot}
  {p : Place PrimaryKey LeafEntry}

theorem leafOf_eq (hs : Holds config LeafEntry.key s h es ids)
    (hl : Leads config LeafEntry.key s.pages k h none none s.rootCache es ids p) :
    leafOf s k = p.entries := by
  obtain ⟨hpage, hk⟩ := hl.leaf_spec
  rw [leafOf, (hl.read hk hs.height_lt (fun _ _ => rfl) hpage.1).2]

theorem splitAndInsert_live {leafId : Nat} {entries left right : List LeafEntry} {mid : LeafEntry}
    (hasc : AscendingBy LeafEntry.key entries) (hentries : entries = left ++ mid :: right)
    (hsplit : splitLeaf LeafEntry.key leafId entries = .ok ⟨left, mid.key, mid :: right⟩)
    (hlive : live entries k ≠ none) :
    splitAndInsert leafId entries k v s = .error (.duplicateKey k) (afterCut s leafId left) := by
  subst hentries
  have hhalves := ascendingBy_append.mp hasc
  by_cases hk : k < mid.key
  · rw [live_left hasc hk] at hlive
    simp [splitAndInsert, hsplit, if_pos hk, leafInsert_live hhalves.1 hlive, afterCut]
  · rw [live_right hasc (not_lt.mp hk)] at hlive
    simp [splitAndInsert, hsplit, if_neg hk, leafInsert_live hhalves.2.1 hlive, afterCut]

/-- What a refused insert leaves at the leaf: all of its entries, or the lower half of
a full leaf. -/
theorem applyOp_live (hs : Holds config LeafEntry.key s h es ids)
    (hl : Leads config LeafEntry.key s.pages k h none none s.rootCache es ids p)
    (hlive : live p.entries k ≠ none) :
    ∃ s1 kept lost, applyOp p.leaf p.entries k (some v) .insert s = .error (.duplicateKey k) s1 ∧
      p.entries = kept ++ lost ∧ LeafDone config LeafEntry.key s s1 p kept [p.leaf] none ∧
      ((∀ e ∈ lost, e.tombstone = true) ↔ SplitKeeps p.entries) := by
  obtain ⟨hpage, -, hasc, hin, hcap⟩ := hl.leaf_spec.1
  by_cases hfull : leafCapacity ≤ p.entries.length
  · have htwo : 2 ≤ p.entries.length := le_trans (by decide) hfull
    obtain ⟨left, mid, right, hentries, hleftLen, hsplit⟩ := splitLeaf_ok LeafEntry.key p.leaf htwo
    have hsub : ∀ e ∈ left, e ∈ p.entries := fun e he => by simp [hentries, he]
    refine ⟨afterCut s p.leaf left, left, mid :: right, ?_, hentries, ?_, ?_⟩
    · simp only [applyOp, if_pos hfull]
      exact splitAndInsert_live hasc hentries hsplit hlive
    · refine .update hs hl rfl rfl (le_succ _) ?_ (fun e he => hin e (hsub e he)) ?_ rfl
      · exact (ascendingBy_append.mp (hentries ▸ hasc)).1
      · exact le_trans (by omega) hcap
    · have hdrop : p.entries.drop (p.entries.length / 2) = mid :: right := by
        rw [← hleftLen, hentries, drop_left]
      rw [SplitKeeps, hdrop]
      simp only [not_lt.mpr hfull, false_or]
  · refine ⟨s, p.entries, [], ?_, by simp, ?_, ?_⟩
    · simp [applyOp, if_neg hfull, leafInsert_live hasc hlive]
    · exact .update hs hl rfl rfl le_rfl hasc hin hcap
        (Function.update_eq_self_iff.mpr hpage.symm).symm
    · simp [SplitKeeps, not_le.mp hfull]

theorem writeDeferred_rejected (hs : HoldsEntries s es) (hlive : live es k ≠ none) :
    ∃ s' es', writeDeferred k (some v) .insert s = .error (.duplicateKey k) s' ∧
      HoldsEntries s' es' ∧ ((∀ k', live es' k' = live es k') ↔ SplitKeeps (leafOf s k)) := by
  obtain ⟨_, _, hs⟩ := hs
  obtain ⟨p, _, _, hsame, hs1, hleads, hwrite, hup⟩ :=
    writeDeferred_reaches hs k (some v) .insert
  have hlive' : live p.entries k ≠ none := by rwa [live, ← hleads.findKey_eq]
  obtain ⟨s2, kept, lost, hrun, hentries, hdone, hiff⟩ := applyOp_live (v := v) hs1 hleads hlive'
  -- nothing goes back up, so the tree is the one the leaf was left in
  obtain ⟨s3, habsorb, hholds, -⟩ := hup s2 none kept _ hdone
  obtain rfl : s2 = s3 := by
    rw [absorb_none] at habsorb
    cases habsorb
    rfl
  refine ⟨s2, _, ?_, hholds, ?_⟩
  · simp only [hwrite, bind_apply, hrun]
  · rw [hsame.pages, hsame.rootCache] at hleads
    rw [leafOf_eq hs hleads, ← hiff]
    have hes : es = p.before ++ kept ++ lost ++ p.after := by
      rw [hleads.entries_eq, hentries, ← append_assoc]
    have hasc := hs.tree.entries.1
    rw [hes] at hasc ⊢
    exact live_drop_iff hasc

theorem insert_rejected (hs : HoldsEntries s es) (hlive : live es k ≠ none) :
    ∃ s' es', insert k v s = .error (.duplicateKey k) s' ∧ HoldsEntries s' es' ∧
      ((∀ k', live es' k' = live es k') ↔ SplitKeeps (leafOf s k)) := by
  obtain ⟨h, ids, hs⟩ := hs
  have hstart : Holds config LeafEntry.key ({ s with log := {}, extra := [] } : State) h es ids :=
    ⟨hs.fresh, hs.tree, hs.nodup⟩
  obtain ⟨s', es', hrun, hholds, hiff⟩ := writeDeferred_rejected (v := v) ⟨h, ids, hstart⟩ hlive
  refine ⟨s', es', ?_, hholds, ?_⟩
  · simp only [insert, write, bind_apply, modify_apply, hrun]
  · obtain ⟨p, hleads⟩ := hs.tree.leads (inBounds_none k)
    rwa [leafOf_eq hstart hleads, ← leafOf_eq hs hleads] at hiff

end

/-! ## Every reachable tree -/

/-- The state behind an operation, whether it was refused or not. -/
def Op.after (op : Op) (s : State) : State :=
  match op.run s with
  | .ok _ s' => s'
  | .error _ s' => s'

def stateAfter (ops : List Op) : State := ops.foldl (fun s op => op.after s) new

/-- What a lookup answers, if it does not fail. -/
def found : Option (Option PageSlot) :=
  match lookup k s with
  | .ok value _ => some value
  | .error _ _ => none

variable {s : State}

theorem found_eq {es : List LeafEntry} (hs : HoldsEntries s es) (k : PrimaryKey) :
    found s k = some (live es k) := by
  rw [found, lookup_spec hs]

theorem WellFormed.after (hs : WellFormed s) (op : Op) : WellFormed (op.after s) := by
  obtain ⟨es, hholds⟩ := hs
  by_cases hop : op.Allowed (live es)
  · obtain ⟨s', hrun, es', hholds', -⟩ := run_spec ⟨es, hholds, fun _ => rfl⟩ op hop
    refine ⟨es', ?_⟩
    rwa [Op.after, hrun]
  · cases op with
    | insert _ v =>
      obtain ⟨s', es', hrun, hholds', -⟩ := insert_rejected (v := v) hholds hop
      refine ⟨es', ?_⟩
      simpa only [Op.after, Op.run, bind_apply, hrun] using hholds'
    | upsert => exact absurd trivial hop
    | remove => exact absurd trivial hop
    | lookup => exact absurd trivial hop

theorem wellFormed_stateAfter (ops : List Op) : WellFormed (stateAfter ops) := by
  have hnew : WellFormed new := by
    obtain ⟨es, hholds, -⟩ := represents_new
    exact ⟨es, hholds⟩
  rw [stateAfter]
  generalize new = s at hnew
  induction ops generalizing s with
  | nil => exact hnew
  | cons op _ ih => exact ih _ (hnew.after op)

/-- An insert of a live key is refused, and the lookups of all keys stay as they were
exactly if the leaf of the key has room or no live entry in its upper half. -/
theorem rejected_insert_keeps (ops : List Op) (k : PrimaryKey) (v : PageSlot)
    (hlive : (found (stateAfter ops) k).join ≠ none) :
    ∃ s', insert k v (stateAfter ops) = .error (.duplicateKey k) s' ∧
      ((∀ k', found s' k' = found (stateAfter ops) k') ↔
        SplitKeeps (leafOf (stateAfter ops) k)) := by
  obtain ⟨_, hholds⟩ := wellFormed_stateAfter ops
  rw [found_eq hholds, join_some] at hlive
  obtain ⟨s', _, hrun, hholds', hiff⟩ := insert_rejected (v := v) hholds hlive
  refine ⟨s', hrun, ?_⟩
  rw [← hiff]
  simp only [found_eq hholds, found_eq hholds', some.injEq]

theorem rejected_insert_keeps_oneKey :
    SplitKeeps (leafOf (stateAfter [.upsert ⟨1, .node, 7⟩ ⟨3, 4⟩]) ⟨1, .node, 7⟩) ∧
    ∃ s', insert ⟨1, .node, 7⟩ ⟨5, 6⟩ (stateAfter [.upsert ⟨1, .node, 7⟩ ⟨3, 4⟩]) =
        .error (.duplicateKey ⟨1, .node, 7⟩) s' ∧
      ((∀ k', found s' k' = found (stateAfter [.upsert ⟨1, .node, 7⟩ ⟨3, 4⟩]) k') ↔
        SplitKeeps (leafOf (stateAfter [.upsert ⟨1, .node, 7⟩ ⟨3, 4⟩]) ⟨1, .node, 7⟩)) :=
  ⟨by decide +kernel, rejected_insert_keeps _ _ _ (by decide +kernel)⟩

/-- Upserts that fill the root leaf. -/
def fullLeafOps : List Op :=
  (range leafCapacity).map fun i => .upsert ⟨1, .node, UInt64.ofNat (202 - i)⟩ ⟨1, 1⟩

/-- A second insert of key 5 is refused, and key 150 is gone. -/
theorem rejected_insert_loses_entries :
    found (stateAfter fullLeafOps) ⟨1, .node, 5⟩ = some (some ⟨1, 1⟩) ∧
    found (stateAfter fullLeafOps) ⟨1, .node, 150⟩ = some (some ⟨1, 1⟩) ∧
    found ((Op.insert ⟨1, .node, 5⟩ ⟨2, 2⟩).after (stateAfter fullLeafOps)) ⟨1, .node, 150⟩ =
      some none := by
  decide +kernel

end ArcGraph.Index.Primary
