import ArcGraph.Index.Primary
import ArcGraph.Index.TreeWrite

/-!
# The primary index refines a finite map

The tree is compared with a map from keys to slots. The entries of the leaves in
order are the middle layer: an operation changes at most the entry of its key, and
a tombstone is an entry that the map does not have.
-/

namespace ArcGraph.Index.Primary
open Foundation List Option Function Nat

/-! ## Leaf pages -/

def LeafEntry.liveValue (e : LeafEntry) : Option PageSlot :=
  if e.tombstone then none else some e.value

def live (entries : List LeafEntry) (k : PrimaryKey) : Option PageSlot :=
  (findKey LeafEntry.key entries k).bind LeafEntry.liveValue

section
variable {entries : List LeafEntry} {k : PrimaryKey} {v : PageSlot} {leafId : Nat}

theorem leafLookup_eq (h : AscendingBy LeafEntry.key entries) (k : PrimaryKey) :
    leafLookup entries k = live entries k := by
  rcases findInLeaf_cases h k with ⟨a, e, b, -, -, -, hfound, hfind⟩ | ⟨a, b, -, -, -, habsent, hfind⟩
  · simp only [leafLookup, hfound, live, hfind, bind_some, LeafEntry.liveValue]
  · simp only [leafLookup, habsent, live, hfind, bind_none]

/-- The entries have the key with a live value; no other key differs. -/
structure Puts (k : PrimaryKey) (v : PageSlot) (old new : List LeafEntry) : Prop where
  updates : UpdatesAt LeafEntry.key k old new
  found : findKey LeafEntry.key new k = some ⟨k, v, false⟩
  length : new.length ≤ old.length + 1

theorem leafInsert_puts (leafId : Nat) (v : PageSlot) (h : AscendingBy LeafEntry.key entries)
    (hlive : live entries k = none) (hlen : entries.length < leafCapacity) :
    ∃ new, leafInsert leafId entries k v = .ok new ∧ Puts k v entries new := by
  rcases findInLeaf_cases h k with
    ⟨a, e, b, rfl, rfl, ha, hfound, hfind⟩ | ⟨a, b, rfl, ha, hb, habsent, hfind⟩
  · have htomb : e.tombstone = true := by
      simpa [live, hfind, LeafEntry.liveValue] using hlive
    refine ⟨a ++ ⟨e.key, v, false⟩ :: b, ?_, ?_, findKey_found ha rfl, by simp⟩
    · simp [leafInsert, hfound, htomb]
    · exact .replace h rfl rfl
  · refine ⟨a ++ ⟨k, v, false⟩ :: b, ?_, .insert h ha hb rfl, findKey_found ha rfl, ?_⟩
    · simp only [leafInsert, habsent, insertAt, if_neg (not_le.mpr hlen), insertIdx_append]
    · simp only [length_append, length_cons]
      omega

theorem leafInsert_live (h : AscendingBy LeafEntry.key entries) (hlive : live entries k ≠ none) :
    leafInsert leafId entries k v = .error (.duplicateKey k) := by
  rcases findInLeaf_cases h k with ⟨a, e, b, -, -, -, hfound, hfind⟩ | ⟨a, b, -, -, -, -, hfind⟩
  · have htomb : e.tombstone = false := by
      simpa [live, hfind, LeafEntry.liveValue] using hlive
    simp [leafInsert, hfound, htomb]
  · simp [live, hfind] at hlive

theorem containsIncludingTombstoned_eq (h : AscendingBy LeafEntry.key entries) :
    containsIncludingTombstoned entries k = (findKey LeafEntry.key entries k).isSome := by
  rcases findInLeaf_cases h k with ⟨a, e, b, -, -, -, hfound, hfind⟩ | ⟨a, b, -, -, -, habsent, hfind⟩
  · simp [containsIncludingTombstoned, hfound, hfind]
  · simp only [containsIncludingTombstoned, habsent, hfind, isSome_none]

theorem leafUpsert_puts (leafId : Nat) (v : PageSlot) (h : AscendingBy LeafEntry.key entries)
    (hlen : entries.length < leafCapacity ∨ containsIncludingTombstoned entries k = true)
    (hcap : entries.length ≤ leafCapacity) :
    ∃ new, leafUpsert leafId entries k v = .ok (new, live entries k) ∧
      UpdatesAt LeafEntry.key k entries new ∧
      findKey LeafEntry.key new k = some ⟨k, v, false⟩ ∧ new.length ≤ leafCapacity := by
  rcases findInLeaf_cases h k with
    ⟨a, e, b, rfl, rfl, ha, hfound, hfind⟩ | ⟨a, b, rfl, ha, hb, habsent, hfind⟩
  · refine ⟨a ++ ⟨e.key, v, false⟩ :: b, ?_, .replace h rfl rfl, findKey_found ha rfl, ?_⟩
    · simp [leafUpsert, hfound, live, hfind, LeafEntry.liveValue]
    · simpa using hcap
  · have hroom : (a ++ b).length < leafCapacity := by
      rw [containsIncludingTombstoned_eq h, hfind] at hlen
      simpa using hlen
    refine ⟨a ++ ⟨k, v, false⟩ :: b, ?_, .insert h ha hb rfl, findKey_found ha rfl, ?_⟩
    · simp only [leafUpsert, habsent, insertAt, if_neg (not_le.mpr hroom), insertIdx_append,
        Except.map, live, hfind, bind_none]
    · simp only [length_append, length_cons] at hroom ⊢
      omega

theorem leafRemove_spec (h : AscendingBy LeafEntry.key entries) :
    ∃ new, leafRemove entries k = (new, live entries k) ∧ UpdatesAt LeafEntry.key k entries new ∧
      live new k = none ∧ new.length = entries.length := by
  rcases findInLeaf_cases h k with
    ⟨a, e, b, rfl, rfl, ha, hfound, hfind⟩ | ⟨a, b, rfl, ha, _, habsent, hfind⟩
  · by_cases htomb : e.tombstone = true
    · have hdead : live (a ++ e :: b) e.key = none := by
        simp [live, hfind, LeafEntry.liveValue, htomb]
      refine ⟨_, ?_, .refl h, hdead, rfl⟩
      simp only [leafRemove, hfound, htomb, if_true, hdead]
    · refine ⟨a ++ { e with tombstone := true } :: b, ?_, .replace h rfl rfl, ?_, by simp⟩
      · simp [leafRemove, hfound, if_neg htomb, live, hfind, LeafEntry.liveValue]
      · rw [live, findKey_append, findKey_eq_none_of_lt ha, findKey_cons_self rfl]
        rfl
  · have hnone : live (a ++ b) k = none := by simp only [live, hfind, bind_none]
    refine ⟨_, ?_, .refl h, hnone, rfl⟩
    simp only [leafRemove, habsent, hnone]

/-! ### The halves of a full leaf -/

variable {left right : List LeafEntry} {mid : LeafEntry}

variable (h : AscendingBy LeafEntry.key (left ++ mid :: right))
include h

theorem live_left (hk : k < mid.key) : live (left ++ mid :: right) k = live left k := by
  obtain ⟨-, -, -, habove⟩ := ascendingBy_insert.mp h
  have hnone : findKey LeafEntry.key (mid :: right) k = none := by
    refine findKey_eq_none_of_gt (forall_mem_cons.mpr ⟨hk, fun x hx => ?_⟩)
    exact hk.trans (habove x hx)
  rw [live, findKey_append, hnone, or_none, live]

theorem live_right (hk : mid.key ≤ k) : live (left ++ mid :: right) k = live (mid :: right) k := by
  obtain ⟨-, -, hbelow, -⟩ := ascendingBy_insert.mp h
  have hnone : findKey LeafEntry.key left k = none :=
    findKey_eq_none_of_lt fun x hx => (hbelow x hx).trans_le hk
  rw [live, findKey_append, hnone, none_or, live]

end

/-! ## The operation at the leaf -/

section
variable {s : State} {h : Nat} {es : List LeafEntry} {ids : List Nat} {k : PrimaryKey} {v : PageSlot}
  {p : Place PrimaryKey LeafEntry} {lo hi : Option PrimaryKey} {id : Nat}

/-- What the leaf operation leaves behind: the tree is ready for the way back up, and
no key but `k` has changed. -/
structure LeafResult (s s₁ : State) (p : Place PrimaryKey LeafEntry) (k : PrimaryKey)
    (newEs : List LeafEntry) (pending : Option (SplitInfo PrimaryKey)) : Prop where
  done : ∃ newIds, LeafDone config LeafEntry.key s s₁ p newEs newIds pending
  updates : UpdatesAt LeafEntry.key k p.entries newEs

theorem finishLeaf_spec (hs : Holds config LeafEntry.key s h es ids)
    (hl : Leads config LeafEntry.key s.pages k h lo hi id es ids p) {newEs : List LeafEntry}
    (hupd : UpdatesAt LeafEntry.key k p.entries newEs) (hlen : newEs.length ≤ leafCapacity)
    (previous : Option PageSlot) :
    ∃ s1, finishLeaf p.leaf newEs previous s = .ok (⟨previous, previous.isSome⟩, none) s1 ∧
      LeafResult s s1 p k newEs none := by
  refine ⟨_, rfl, ⟨[p.leaf], ?_⟩, hupd⟩
  exact .update hs hl rfl rfl le_rfl hupd.ascending (hl.inBounds hupd) hlen rfl

section
variable {entries left right new : List LeafEntry} {mid : LeafEntry} {leafId : Nat}
  (hsplit : splitLeaf LeafEntry.key leafId entries = .ok ⟨left, mid.key, mid :: right⟩)
  (hfree : s.pages s.nextPage = none) (hne : leafId ≠ s.nextPage)
include hsplit hfree hne

theorem splitAndInsert_lower (hk : k < mid.key) (hinsert : leafInsert leafId left k v = .ok new) :
    splitAndInsert leafId entries k v s = .ok (⟨none, false⟩, some ⟨mid.key, s.nextPage⟩)
      (s.afterSplit leafId new (mid :: right)) := by
  have hfree' := s.update_nextPage hfree hne
  simp only [splitAndInsert, bind_apply, alloc_apply, hsplit, liftExcept_ok, writePage_apply,
    if_pos hk, hinsert, stageEmit_apply, update_idem, installForTxn_of_none, hfree',
    pure_apply, IndexState.afterSplit, append_assoc, cons_append, nil_append]

theorem splitAndInsert_upper (hk : ¬k < mid.key)
    (hinsert : leafInsert s.nextPage (mid :: right) k v = .ok new) :
    splitAndInsert leafId entries k v s = .ok (⟨none, false⟩, some ⟨mid.key, s.nextPage⟩)
      (s.afterSplit leafId left new) := by
  have hfree' := s.update_nextPage hfree hne
  simp only [splitAndInsert, bind_apply, alloc_apply, hsplit, liftExcept_ok, writePage_apply,
    if_neg hk, hinsert, stageEmit_apply, installForTxn_of_none, hfree', pure_apply,
    IndexState.afterSplit, append_assoc, cons_append, nil_append]

end

theorem splitAndInsert_spec (hs : Holds config LeafEntry.key s h es ids)
    (hl : Leads config LeafEntry.key s.pages k h lo hi id es ids p)
    (hlive : live p.entries k = none) (hfull : leafCapacity ≤ p.entries.length) :
    ∃ s1 newEs pending, splitAndInsert p.leaf p.entries k v s = .ok (⟨none, false⟩, pending) s1 ∧
      LeafResult s s1 p k newEs pending ∧ findKey LeafEntry.key newEs k = some ⟨k, v, false⟩ := by
  have hasc : AscendingBy LeafEntry.key p.entries := hl.leaf_spec.1.2.2.1
  obtain ⟨_, mid, _, hentries, hsplit, hleft, hright, hlower, hupper⟩ := hl.halves hs hfull
  have hne : p.leaf ≠ s.nextPage := (hl.nodup hs).2.2.1.ne
  have hfree := hs.fresh _ (le_refl s.nextPage)
  rw [hentries] at hasc hlive
  by_cases hk : k < mid.key
  · rw [live_left hasc hk] at hlive
    obtain ⟨new, hinsert, hput⟩ := leafInsert_puts p.leaf v (ascendingBy_append.mp hasc).1 hlive hleft
    obtain ⟨hupd, hdone⟩ := hlower new hk hput.updates hput.length
    refine ⟨_, _, _, splitAndInsert_lower hsplit hfree hne hk hinsert, ⟨⟨_, hdone⟩, hupd⟩, ?_⟩
    rw [findKey_append, hput.found, some_or]
  · have hk' := not_lt.mp hk
    rw [live_right hasc hk'] at hlive
    obtain ⟨new, hinsert, hput⟩ := leafInsert_puts s.nextPage v (ascendingBy_append.mp hasc).2.1
      hlive hright
    obtain ⟨hupd, hdone⟩ := hupper new hk' hput.updates hput.length
    refine ⟨_, _, _, splitAndInsert_upper hsplit hfree hne hk hinsert, ⟨⟨_, hdone⟩, hupd⟩, ?_⟩
    have hbelow := (hput.updates.upper hasc hk').2.2
    rw [findKey_append, findKey_eq_none_of_lt hbelow, hput.found, none_or]

/-- What an operation returns, and what it makes of the entry of its key. -/
structure OpSpec (op : WriteOp) (es newEs : List LeafEntry) (k : PrimaryKey) (v : PageSlot)
    (result : WriteResult) : Prop where
  previous : result.previous = if op = .insert then none else live es k
  value : live newEs k = if op = .remove then none else some v

theorem live_of_found {entries : List LeafEntry}
    (hfind : findKey LeafEntry.key entries k = some ⟨k, v, false⟩) : live entries k = some v := by
  simp [live, hfind, LeafEntry.liveValue]

theorem applyOp_spec (hs : Holds config LeafEntry.key s h es ids)
    (hl : Leads config LeafEntry.key s.pages k h lo hi id es ids p) (op : WriteOp)
    (hop : op = .insert → live p.entries k = none) :
    ∃ s1 result newEs pending, applyOp p.leaf p.entries k (some v) op s = .ok (result, pending) s1 ∧
      LeafResult s s1 p k newEs pending ∧ OpSpec op p.entries newEs k v result := by
  obtain ⟨hasc, hcap⟩ : AscendingBy LeafEntry.key p.entries ∧ p.entries.length ≤ leafCapacity :=
    ⟨hl.leaf_spec.1.2.2.1, hl.leaf_spec.1.2.2.2.2⟩
  cases op with
  | insert =>
    by_cases hfull : leafCapacity ≤ p.entries.length
    · obtain ⟨s1, newEs, pending, hrun, hres, hfind⟩ := splitAndInsert_spec (v := v) hs hl (hop rfl)
        hfull
      exact ⟨s1, ⟨none, false⟩, newEs, pending, by simpa only [applyOp, if_pos hfull] using hrun,
        hres, rfl, live_of_found hfind⟩
    · have hroom := not_le.mp hfull
      obtain ⟨newEs, hinsert, hput⟩ := leafInsert_puts p.leaf v hasc (hop rfl) hroom
      have hlen := hput.length
      obtain ⟨s1, hrun, hres⟩ := finishLeaf_spec hs hl hput.updates (by omega) none
      refine ⟨s1, ⟨none, false⟩, newEs, none, ?_, hres, rfl, live_of_found hput.found⟩
      simpa only [applyOp, if_neg hfull, bind_apply, hinsert, liftExcept_ok, isSome_none]
        using hrun
  | upsert =>
    by_cases hin : p.entries.length < leafCapacity ∨
        containsIncludingTombstoned p.entries k = true
    · obtain ⟨newEs, hupsert, hupd, hfind, hlen⟩ :=
        leafUpsert_puts p.leaf v hasc hin hcap
      obtain ⟨s1, hrun, hres⟩ := finishLeaf_spec hs hl hupd hlen (live p.entries k)
      refine ⟨s1, ⟨live p.entries k, (live p.entries k).isSome⟩, newEs, none, ?_, hres, rfl,
        live_of_found hfind⟩
      simpa only [applyOp, if_pos hin, bind_apply, hupsert, liftExcept_ok] using hrun
    · have hnone : live p.entries k = none := by
        have hfind : findKey LeafEntry.key p.entries k = none := by
          simpa [containsIncludingTombstoned_eq hasc] using (not_or.mp hin).2
        rw [live, hfind, bind_none]
      obtain ⟨s1, newEs, pending, hrun, hres, hfind⟩ := splitAndInsert_spec (v := v) hs hl hnone
        (by omega)
      exact ⟨s1, ⟨none, false⟩, newEs, pending, by simpa only [applyOp, if_neg hin] using hrun,
        hres, hnone.symm, live_of_found hfind⟩
  | remove =>
    obtain ⟨newEs, hremove, hupd, hdead, hlen⟩ := leafRemove_spec (k := k) hasc
    obtain ⟨s1, hrun, hres⟩ := finishLeaf_spec hs hl hupd (by omega) (live p.entries k)
    refine ⟨s1, ⟨live p.entries k, (live p.entries k).isSome⟩, newEs, none, ?_, hres, rfl, hdead⟩
    simpa only [applyOp, hremove] using hrun

end

/-! ## A write -/

theorem visits_pure : Visits (fun _ _ => pure () : Nat → PrimaryPage → PrimaryM Unit) :=
  fun _ _ s => ⟨s, rfl, .refl s⟩

theorem applies_internalInsert : Applies config applyInternalInsert := by
  intro id split page s hpage
  obtain ⟨s', hrun, hsame⟩ := captureFromGuard_same (K := PrimaryKey) id page s
  refine ⟨s', hsame, ?_⟩
  simp only [applyInternalInsert, bind_apply, latch_of_some hpage, hrun]

section
variable {s : State} {h : Nat} {es : List LeafEntry} {ids : List Nat} {k : PrimaryKey} {v : PageSlot}

def HoldsEntries (s : State) (es : List LeafEntry) : Prop :=
  ∃ h ids, Holds config LeafEntry.key s h es ids

/-- A write reaches the leaf of its key with the tree as it was; what is left to do
is the operation there and the way back up. -/
theorem writeDeferred_reaches (hs : Holds config LeafEntry.key s h es ids) (k : PrimaryKey)
    (value : Option PageSlot) (op : WriteOp) :
    ∃ p path s1, SameTree s s1 ∧ Holds config LeafEntry.key s1 h es ids ∧
      Leads config LeafEntry.key s1.pages k h none none s1.rootCache es ids p ∧
      writeDeferred k value op s = (do
        let (result, leafSplit) ← applyOp p.leaf p.entries k value op
        absorb config applyInternalInsert publishRoot path leafSplit
        return (result, (← get).staged) : PrimaryM _) s1 ∧
      ∀ s2 pending newEs newIds, LeafDone config LeafEntry.key s1 s2 p newEs newIds pending →
        ∃ s3, absorb config applyInternalInsert publishRoot path pending s2 = .ok () s3 ∧
          HoldsEntries s3 (p.before ++ newEs ++ p.after) ∧ RootStep config s s3 := by
  have hstart : SameTree s { s with staged := [] } := ⟨rfl, rfl, rfl, rfl, rfl⟩
  obtain ⟨p, path, hleads, ⟨s0, hsame0, hdesc⟩, hup⟩ :=
    (hs.same hstart).write visits_pure applies_internalInsert publishRoot k
  have hleaf : s0.pages p.leaf = some (.leaf p.entries) := by
    rw [hsame0.pages]
    exact hleads.leaf_spec.1.1
  obtain ⟨s1, hcapture, hsame1⟩ :=
    captureFromGuard_same (K := PrimaryKey) p.leaf (.leaf p.entries : PrimaryPage) s0
  have hsame := hsame0.trans hsame1
  have hsame' : SameTree s s1 := hstart.trans hsame
  refine ⟨p, path, s1, hsame', hs.same hsame', ?_, ?_, fun s2 pending newEs newIds hdone => ?_⟩
  · rw [hsame.pages, hsame.rootCache]
    exact hleads
  · simp [writeDeferred, hdesc, applyLeafOp, latch_of_some hleaf, hcapture]
  · obtain ⟨s3, h', ids', habsorb, hholds, -, -, -, hroots, -⟩ :=
      hup s2 pending newEs newIds (hdone.of_same hsame)
    exact ⟨s3, habsorb, ⟨h', ids', hholds⟩, hroots.of_same hstart⟩

theorem writeDeferred_spec (hs : HoldsEntries s es) {value : Option PageSlot} {op : WriteOp}
    (hvalue : op = .remove ∨ value = some v) (hop : op = .insert → live es k = none) :
    ∃ s' es' result staged, writeDeferred k value op s = .ok (result, staged) s' ∧
      HoldsEntries s' es' ∧ OpSpec op es es' k v result ∧
      (∀ k', k' ≠ k → live es' k' = live es k') ∧ RootStep config s s' := by
  obtain ⟨h, _, hs⟩ := hs
  obtain ⟨p, _, s1, -, hs1, hleads, hwrite, hup⟩ := writeDeferred_reaches hs k value op
  have hlive : live p.entries k = live es k := by rw [live, live, hleads.findKey_eq]
  obtain ⟨s2, result, newEs, pending, hrun, hres, hspec⟩ :=
    applyOp_spec (v := v) hs1 hleads op (fun h => hlive.trans (hop h))
  have hrun' : applyOp p.leaf p.entries k value op s1 = .ok (result, pending) s2 := by
    rcases hvalue with rfl | rfl
    · exact hrun
    · exact hrun
  obtain ⟨newIds, hdone⟩ := hres.done
  obtain ⟨s3, habsorb, hholds, hroots⟩ := hup s2 pending newEs newIds hdone
  obtain ⟨hself, hothers⟩ := hleads.updates hres.updates
  refine ⟨s3, _, result, s3.staged, ?_, hholds, ⟨?_, ?_⟩, fun k' hk' => ?_, hroots⟩
  · simp only [hwrite, bind_apply, hrun', habsorb, get_apply, pure_apply]
  · rw [hspec.previous, hlive]
  · rw [← hspec.value, live, live, hself]
  · rw [live, live, hothers k' hk']

theorem lookup_spec (hs : HoldsEntries s es) (k : PrimaryKey) : lookup k s = .ok (live es k) s := by
  obtain ⟨_, _, hs⟩ := hs
  obtain ⟨_, hread, hasc, hfind⟩ := hs.read k
  simp only [lookup, bind_apply, root_apply, get_apply, hread, pure_apply, leafLookup_eq hasc, live,
    hfind]

end

/-! ## The map -/

inductive Op
  | insert (key : PrimaryKey) (value : PageSlot)
  | upsert (key : PrimaryKey) (value : PageSlot)
  | remove (key : PrimaryKey)
  | lookup (key : PrimaryKey)

def Op.run : Op → PrimaryM (Option PageSlot)
  | .insert key value => do
      Primary.insert key value
      return none
  | .upsert key value => Primary.upsert key value
  | .remove key => Primary.remove key
  | .lookup key => Primary.lookup key

def runOps : List Op → PrimaryM (List (Option PageSlot))
  | [] => return []
  | op :: rest => do
      let result ← op.run
      let results ← runOps rest
      return result :: results

abbrev SlotMap := PrimaryKey → Option PageSlot

variable (m : SlotMap)

/-- An insert is for keys the map does not have. -/
def Op.Allowed : Op → Prop
  | .insert key _ => m key = none
  | _ => True

def Op.answer : Op → Option PageSlot
  | .insert _ _ => none
  | .upsert key _ => m key
  | .remove key => m key
  | .lookup key => m key

def Op.apply : Op → SlotMap
  | .insert key value => update m key (some value)
  | .upsert key value => update m key (some value)
  | .remove key => update m key none
  | .lookup _ => m

def AllAllowed (m : SlotMap) : List Op → Prop
  | [] => True
  | op :: rest => op.Allowed m ∧ AllAllowed (op.apply m) rest

def answers (m : SlotMap) : List Op → List (Option PageSlot)
  | [] => []
  | op :: rest => op.answer m :: answers (op.apply m) rest

def applyAll (ops : List Op) : SlotMap := ops.foldl Op.apply m

/-- The tree is well formed: sorted pages within the bounds of the separators above
them, all leaves at one depth, no page above its capacity, no page in two places. -/
def WellFormed (s : State) : Prop := ∃ es, HoldsEntries s es

/-- The tree is well formed and has the entries of the map, up to tombstones. -/
def Represents (s : State) (m : SlotMap) : Prop := ∃ es, HoldsEntries s es ∧ ∀ k, live es k = m k

theorem represents_new : Represents new fun _ => none := by
  refine ⟨[], ⟨0, [1], ?_, ?_, by simp⟩, fun k => rfl⟩
  · intro i hi
    have hi' : 2 ≤ i := hi
    have hne : i ≠ 1 := by omega
    simp [new, update_of_ne hne]
  · exact ⟨rfl, rfl, Pairwise.nil, by simp, zero_le _⟩

variable {s : State} {m : SlotMap}

theorem Represents.same {s' : State} (hs : Represents s m) (hpages : s'.pages = s.pages)
    (hroot : s'.rootCache = s.rootCache) (hnext : s.nextPage ≤ s'.nextPage) : Represents s' m := by
  obtain ⟨es, ⟨h, ids, hs⟩, hlive⟩ := hs
  refine ⟨es, ⟨h, ids, fun i hi => ?_, ?_, hs.nodup⟩, hlive⟩
  · rw [hpages]
    exact hs.fresh i (hnext.trans hi)
  · rw [hpages, hroot]
    exact hs.tree

section
variable (hs : Represents s m) (op : WriteOp) (k : PrimaryKey) (v : PageSlot)
  (value : Option PageSlot) (hvalue : op = .remove ∨ value = some v)
  (hop : op = .insert → m k = none)
include hs op k v value hvalue hop

theorem writeDeferred_represents :
    ∃ s' result staged, writeDeferred k value op s = .ok (result, staged) s' ∧
      result.previous = (if op = .insert then none else m k) ∧
      Represents s' (update m k (if op = .remove then none else some v)) ∧
      RootStep config s s' := by
  obtain ⟨_, hholds, hlive⟩ := hs
  obtain ⟨s', es', result, staged, hrun, hholds', hspec, hothers, hroots⟩ :=
    writeDeferred_spec hholds hvalue fun h => (hlive k).trans (hop h)
  refine ⟨s', result, staged, hrun, ?_, ⟨es', hholds', fun k' => ?_⟩, hroots⟩
  · rw [hspec.previous, hlive]
  · by_cases hk : k' = k
    · subst hk
      rw [update_self, hspec.value]
    · rw [update_of_ne hk, hothers k' hk, hlive]

theorem write_spec :
    ∃ s' result, write k value op s = .ok result s' ∧
      result.previous = (if op = .insert then none else m k) ∧
      Represents s' (update m k (if op = .remove then none else some v)) := by
  have hstart : Represents { s with log := {}, extra := [] } m := hs.same rfl rfl le_rfl
  obtain ⟨s', result, _, hrun, hprev, hs', -⟩ :=
    writeDeferred_represents hstart op k v value hvalue hop
  refine ⟨s', result, ?_, hprev, hs'⟩
  simp only [write, bind_apply, modify_apply, hrun, pure_apply]

end

/-- One operation on the tree is one operation on the map. -/
theorem run_spec (hs : Represents s m) (op : Op) (hop : op.Allowed m) :
    ∃ s', op.run s = .ok (op.answer m) s' ∧ Represents s' (op.apply m) := by
  cases op with
  | insert k v =>
    obtain ⟨s', result, hrun, -, hrep⟩ := write_spec hs .insert k v (some v) (.inr rfl) (fun _ => hop)
    refine ⟨s', ?_, hrep⟩
    simp only [Op.run, insert, bind_apply, hrun, pure_apply, Op.answer]
  | upsert k v =>
    obtain ⟨s', result, hrun, hprev, hrep⟩ :=
      write_spec hs .upsert k v (some v) (.inr rfl) (fun h => by cases h)
    refine ⟨s', ?_, hrep⟩
    simp only [Op.run, upsert, bind_apply, hrun, pure_apply, hprev]
    rfl
  | remove k =>
    obtain ⟨s', result, hrun, hprev, hrep⟩ :=
      write_spec hs .remove k ⟨0, 0⟩ none (.inl rfl) (fun h => by cases h)
    refine ⟨s', ?_, hrep⟩
    simp only [Op.run, remove, bind_apply, hrun, pure_apply, hprev]
    rfl
  | lookup =>
    obtain ⟨es, hholds, hlive⟩ := hs
    refine ⟨s, ?_, es, hholds, hlive⟩
    simp only [Op.run, lookup_spec hholds, hlive, Op.answer]

theorem runOps_spec (hs : Represents s m) (ops : List Op) (hops : AllAllowed m ops) :
    ∃ s', runOps ops s = .ok (answers m ops) s' ∧ Represents s' (applyAll m ops) := by
  induction ops generalizing s m with
  | nil => exact ⟨s, rfl, hs⟩
  | cons op _ ih =>
    obtain ⟨_, hrun, hs1⟩ := run_spec hs op hops.1
    obtain ⟨s2, hrest, hs2⟩ := ih hs1 hops.2
    refine ⟨s2, ?_, hs2⟩
    simp only [runOps, bind_apply, hrun, hrest, pure_apply, answers]

/-- Every operation answers as the finite map does, and leaves a well-formed tree in
which every lookup finds what the map holds. A prefix of allowed operations is
allowed, so this holds after each of them. -/
theorem primary_refines_map (ops : List Op) (hops : AllAllowed (fun _ => none) ops) :
    ∃ s, runOps ops new = .ok (answers (fun _ => none) ops) s ∧ WellFormed s ∧
      ∀ k, lookup k s = .ok (applyAll (fun _ => none) ops k) s := by
  obtain ⟨s, hrun, es, hholds, hlive⟩ := runOps_spec represents_new ops hops
  exact ⟨s, hrun, ⟨es, hholds⟩, fun k => by rw [lookup_spec hholds, hlive]⟩

theorem primary_refines_map_reviveRun :
    ∃ s, runOps [.upsert ⟨1, .node, 7⟩ ⟨3, 4⟩, .remove ⟨1, .node, 7⟩, .insert ⟨1, .node, 7⟩ ⟨5, 6⟩]
        new = .ok [none, some ⟨3, 4⟩, none] s ∧ WellFormed s ∧
      ∀ k, lookup k s = .ok (applyAll (fun _ => none) [.upsert ⟨1, .node, 7⟩ ⟨3, 4⟩,
        .remove ⟨1, .node, 7⟩, .insert ⟨1, .node, 7⟩ ⟨5, 6⟩] k) s :=
  primary_refines_map _ ⟨trivial, trivial, rfl, trivial⟩

end ArcGraph.Index.Primary
