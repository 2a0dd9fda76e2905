import ArcGraph.Mvcc.Chains
import ArcGraph.Wal.ReplayEffect

/-!
# Version chains and the index of their keys

Five writers edit the chains: commits, side-channel writes, rollbacks, replayed writes and
garbage collection. Each that pushes a version also registers the key with its tenant; no
key is ever taken out of that index, so a walk of it meets every chain of the tenant.
-/

namespace ArcGraph.Mvcc
open Foundation VersionChain Wal

/-- The chains with the part of `TxnManager` the writers share. `present` lists the keys
with an entry in `versions`, `chainKeys` is `tenant_chain_keys`, and no LSN above `counter`
has been allocated or replayed. -/
structure ChainStore where
  versions : Versions
  present : List VersionKey
  chainKeys : TenantId → List MvccKey
  counter : Nat

inductive ChainOp
  | commit (tenant : TenantId) (lsn : Nat) (writes : WriteSet)
  | sidechannel (lsn : Nat) (w : SideChannelWrite)
  | rollback (tenant : TenantId) (lsn : Nat) (writes : WriteSet)
  | replay (lsn : Nat) (k : VersionKey) (value : Option Bytes)
  | gc (anchor : Nat)

/-- The chain ends below the LSN. -/
def endsBelow (lsn : Nat) (chain : VersionChain) : Bool :=
  chain.getLast?.all fun last => decide (last.createdLsn < lsn)

namespace ChainStore
variable (s : ChainStore)

/-- Push a version, then `register_chain_key`. -/
def push (lsn : Nat) (k : VersionKey) (value : Option Bytes) : ChainStore :=
  { s with
    versions := s.versions.update k (install lsn value)
    present := s.present.insert k
    chainKeys := Function.update s.chainKeys k.1 ((s.chainKeys k.1).insert k.2) }

def step : ChainOp → Option ChainStore
  | .commit tenant lsn writes =>
    if s.counter < lsn then
      some (writes.entries.foldl (fun s w => s.push lsn (tenant, w.1) w.2)
        { s with counter := lsn })
    else none
  | .sidechannel lsn w =>
    if lsn ≤ s.counter then some (s.push lsn w.versionKey w.value) else none
  | .rollback tenant lsn writes =>
    some { s with versions := s.versions.rollbackWrites tenant lsn writes }
  | .replay lsn k value =>
    let s := { s with counter := max s.counter lsn }
    some (if endsBelow lsn (s.versions k) then s.push lsn k value else s)
  | .gc anchor =>
    some { s with
      versions := fun k => retain anchor (s.versions k)
      present := s.present.filter fun k => !(retain anchor (s.versions k)).isEmpty }

/-- What the walk reports of a chain, newest version first: the value, its LSN, and for a
tombstone the value before it. -/
def visibleState (snapshot : Nat) : List Version → Option (Option Bytes × Nat × Option Bytes)
  | [] => none
  | v :: older =>
    if v.visibleTo snapshot then
      some (v.value, v.createdLsn, if v.value.isNone then older.findSome? (·.value) else none)
    else visibleState snapshot older

variable (tenant : TenantId) (snapshot : Nat)

def forEachVisibleRecordState :
    List (MvccKey × Option Bytes × Nat × Option Bytes) :=
  (s.chainKeys tenant).filterMap fun key =>
    (visibleState snapshot (s.versions (tenant, key)).reverse).map (key, ·)

def forEachVisibleRecordLegacy :
    List (MvccKey × Bytes) :=
  (s.present.filter (·.1 = tenant)).filterMap fun k =>
    (readAt (s.versions k) snapshot).map (k.2, ·)

end ChainStore

def chainSystem : System ChainStore ChainOp where
  init := ⟨fun _ => [], [], fun _ => [], 0⟩
  step := ChainStore.step

open ChainStore Option Function List
variable {s s' : ChainStore} {tenant : TenantId} {lsn snapshot : Nat} {k : VersionKey}
  {value : Option Bytes} {op : ChainOp} {chain : VersionChain} {key : MvccKey} {b : Bytes}

/-! ## The chains stay well formed -/

/-- What `apply_sidechannel_mvcc_write` asserts in debug builds. -/
def sidechannelAbove (s : ChainStore) : ChainOp → Prop
  | .sidechannel lsn w => endsBelow lsn (s.versions w.versionKey) = true
  | _ => True

instance (s : ChainStore) : ∀ op, Decidable (sidechannelAbove s op)
  | .sidechannel .. => inferInstanceAs (Decidable (_ = true))
  | .commit .. | .rollback .. | .replay .. | .gc .. => inferInstanceAs (Decidable True)

theorem admits_of_endsBelow (h : endsBelow lsn chain = true) : Admits chain lsn :=
  fun last hl => by simpa [endsBelow, hl] using h

/-- The chains are well formed and reach no further than the counter. -/
def Counted (s : ChainStore) : Prop :=
  ∀ k, WellFormed (s.versions k) ∧ ∀ e ∈ entries (s.versions k), e.1 ≤ s.counter

theorem Counted.installed {counter : Nat} (h : Counted s) (hle : s.counter ≤ counter)
    (hlt : ∀ e ∈ entries (s.versions k), e.1 < lsn) (hlsn : lsn ≤ counter) :
    WellFormed (install lsn value (s.versions k)) ∧
      ∀ e ∈ entries (install lsn value (s.versions k)), e.1 ≤ counter := by
  refine ⟨(h k).1.install hlt, fun e he => ?_⟩
  rw [entries_install, mem_append, mem_singleton] at he
  rcases he with he | rfl
  · exact ((h k).2 e he).trans hle
  · exact hlsn

theorem Counted.push (h : Counted s) (hle : lsn ≤ s.counter)
    (hlt : endsBelow lsn (s.versions k) = true) : Counted (s.push lsn k value) := by
  intro k'
  simp only [ChainStore.push]
  by_cases hk : k' = k
  · subst hk
    rw [Versions.update_self]
    exact h.installed le_rfl (entries_lt_of_admits (h _).1 (admits_of_endsBelow hlt)) hle
  · rw [Versions.update_of_ne _ _ hk]
    exact h k'

theorem pushAll_eq (ws : List (MvccKey × Option Bytes)) (s : ChainStore) :
    (ws.foldl (fun s w => s.push lsn (tenant, w.1) w.2) s).versions =
      Versions.applyWrites (install lsn) tenant ws s.versions ∧
    (ws.foldl (fun s w => s.push lsn (tenant, w.1) w.2) s).counter = s.counter := by
  induction ws generalizing s with
  | nil => exact ⟨rfl, rfl⟩
  | cons _ _ ih => exact ih _

theorem wellFormed_rollback (lsn : Nat) (h : WellFormed chain) :
    WellFormed (rollback lsn chain) ∧ ∀ e ∈ entries (rollback lsn chain), e ∈ entries chain := by
  rcases eq_nil_or_concat chain with rfl | ⟨init, last, rfl⟩
  · exact ⟨h, fun e he => he⟩
  · by_cases hl : last.createdLsn = lsn
    · have hes : entries (init.concat last) = entries init ++ [(lsn, last.value)] := by
        simp [concat_eq_append, hl]
      obtain ⟨hwf, hent⟩ := h.rollback hes
      refine ⟨hwf, fun e he => ?_⟩
      rw [hes]
      exact mem_append_left _ (hent ▸ he)
    · have heq : rollback lsn (init.concat last) = init.concat last := by simp [rollback, hl]
      rw [heq]
      exact ⟨h, fun e he => he⟩

theorem Counted.step (h : Counted s) (hok : sidechannelAbove s op) (hs : s.step op = some s') :
    Counted s' := by
  cases op with
  | commit tenant lsn writes =>
    obtain ⟨hlt, ⟨⟩⟩ := ite_none_right_eq_some.mp hs
    intro k
    rw [(pushAll_eq ..).1, (pushAll_eq ..).2]
    rcases applyWrites_cases s.versions (install lsn) tenant writes k with
      ⟨_, _, -, -, heq⟩ | ⟨-, heq⟩ <;> rw [heq]
    · exact h.installed hlt.le (fun e he => ((h k).2 e he).trans_lt hlt) le_rfl
    · exact ⟨(h k).1, fun e he => ((h k).2 e he).trans hlt.le⟩
  | sidechannel =>
    obtain ⟨hle, ⟨⟩⟩ := ite_none_right_eq_some.mp hs
    exact h.push hle hok
  | rollback tenant lsn writes =>
    cases hs
    intro k
    rcases applyWrites_cases s.versions (fun _ => rollback lsn) tenant writes k with
      ⟨_, _, -, -, heq⟩ | ⟨-, heq⟩ <;> simp only [Versions.rollbackWrites, heq]
    · obtain ⟨hwf, hsub⟩ := wellFormed_rollback lsn (h k).1
      exact ⟨hwf, fun e he => (h k).2 e (hsub e he)⟩
    · exact h k
  | replay lsn k =>
    cases hs
    have hmax : Counted { s with counter := max s.counter lsn } :=
      fun k => ⟨(h k).1, fun e he => ((h k).2 e he).trans (le_max_left _ _)⟩
    simp only
    split
    · exact hmax.push (le_max_right _ _) ‹_›
    · exact hmax
  | gc anchor =>
    cases hs
    intro k
    obtain ⟨hwf, hsub, -⟩ := (h k).1.retain anchor
    exact ⟨hwf, fun e he => (h k).2 e (hsub e he)⟩

theorem counted_of_reach (h : chainSystem.Reach sidechannelAbove s) : Counted s :=
  h.invariant (fun _ => ⟨wellFormed_nil, by simp [chainSystem]⟩) fun _ _ _ hi hok hs =>
    hi.step hok hs

theorem render_suffix {kept es : List Entry} (h : kept <:+ es) : render kept <:+ render es := by
  induction es with
  | nil => rw [suffix_nil.mp h]
  | cons _ es ih =>
    rcases suffix_cons_iff.mp h with rfl | h
    · exact suffix_rfl
    · cases es with
      | nil => rw [suffix_nil.mp h]; exact nil_suffix
      | cons => exact (ih h).trans (suffix_cons _ _)

/-- Every reached chain is well formed, garbage collection drops only a leading part of it,
and at most one of its versions is visible to a snapshot. -/
theorem chains_wellFormed (h : chainSystem.Reach sidechannelAbove s) (k : VersionKey) :
    WellFormed (s.versions k) ∧ (∀ anchor, retain anchor (s.versions k) <:+ s.versions k) ∧
      ∀ snapshot, ∀ v ∈ s.versions k, ∀ w ∈ s.versions k, v.visibleTo snapshot = true →
        w.visibleTo snapshot = true → v = w := by
  have hwf := (counted_of_reach h k).1
  refine ⟨hwf, fun anchor => ?_, fun snapshot v hv w hw hvis hvis' => ?_⟩
  · obtain ⟨_, hsuf, hret, -⟩ := retain_render anchor hwf.sorted
    rw [hwf.rendered] at hret
    rw [hret]
    conv => rhs; rw [← hwf.rendered]
    exact render_suffix hsuf
  · obtain ⟨hle, hmax⟩ := (hwf.visibleTo_iff hv).mp hvis
    obtain ⟨hle', hmax'⟩ := (hwf.visibleTo_iff hw).mp hvis'
    have hvw := hmax' _ (mem_map_of_mem hv) hle
    have hwv := hmax _ (mem_map_of_mem hw) hle'
    have hnd : ((s.versions k).map Version.createdLsn).Nodup :=
      pairwise_map.mpr ((pairwise_map.mp hwf.sorted).imp fun hlt => hlt.ne)
    exact inj_on_of_nodup_map hnd hv hw (hvw.antisymm hwv)

/-- A commit, its side-channel write and its rollback, then replays and a collection. -/
def chainRun : List ChainOp :=
  [.commit 7 1 ⟨[(1, some [42])], by simp⟩, .sidechannel 1 ⟨0, 3, some [5]⟩,
    .rollback 7 1 ⟨[(1, some [42])], by simp⟩, .replay 2 (7, 1) (some [43]),
    .replay 2 (7, 1) (some [43]), .replay 4 (7, 1) none, .gc 4]

theorem chains_wellFormed_chainRun :
    (chainSystem.after sidechannelAbove chainRun).versions (7, 1) = [⟨4, none, none⟩] ∧
      ∀ k, WellFormed ((chainSystem.after sidechannelAbove chainRun).versions k) :=
  ⟨by decide +kernel, fun k => (chains_wellFormed (.after (by decide +kernel)) k).1⟩

/-- The side-channel write of an earlier commit comes behind the write of a later one. -/
def lateSidechannelRun : List ChainOp :=
  [.commit 0 2 ⟨[(3, some [6])], by simp⟩, .sidechannel 1 ⟨0, 3, some [5]⟩]

theorem late_sidechannel_breaks_chain :
    chainSystem.Reach (fun _ _ => True) (chainSystem.after (fun _ _ => True) lateSidechannelRun) ∧
      ¬ WellFormed ((chainSystem.after (fun _ _ => True) lateSidechannelRun).versions (0, 3)) :=
  ⟨.after (by decide +kernel), fun h => absurd h.sorted (by decide +kernel)⟩

/-! ## The index covers the chains -/

/-- A key with a version has an entry and is registered with its tenant. -/
structure Indexed (s : ChainStore) : Prop where
  keys : ∀ tenant, (s.chainKeys tenant).Nodup
  covers : ∀ k, s.versions k ≠ [] → k ∈ s.present ∧ k.2 ∈ s.chainKeys k.1

theorem Indexed.push (h : Indexed s) : Indexed (s.push lsn k value) where
  keys tenant := by
    simp only [ChainStore.push]
    by_cases ht : tenant = k.1
    · subst ht
      rw [update_self]
      exact (h.keys _).insert
    · rw [update_of_ne ht]
      exact h.keys tenant
  covers k' hne := by
    simp only [ChainStore.push, update_apply, mem_insert_iff] at hne ⊢
    by_cases hk : k' = k
    · simp [hk]
    · rw [Versions.update_of_ne _ _ hk] at hne
      obtain ⟨hp, hc⟩ := h.covers k' hne
      refine ⟨.inr hp, ?_⟩
      split
      · exact mem_insert_of_mem (‹k'.1 = k.1› ▸ hc)
      · exact hc

theorem Indexed.step (h : Indexed s) (hs : s.step op = some s') : Indexed s' := by
  cases op with
  | commit _ _ writes =>
    obtain ⟨-, ⟨⟩⟩ := ite_none_right_eq_some.mp hs
    exact foldlRecOn writes.entries _ (motive := Indexed) ⟨h.keys, h.covers⟩
      fun _ hi _ _ => hi.push
  | sidechannel =>
    obtain ⟨-, ⟨⟩⟩ := ite_none_right_eq_some.mp hs
    exact h.push
  | rollback tenant lsn writes =>
    cases hs
    refine ⟨h.keys, fun k hne => h.covers k fun hnil => hne ?_⟩
    rcases applyWrites_cases s.versions (fun _ => rollback lsn) tenant writes k with
      ⟨_, _, -, -, heq⟩ | ⟨-, heq⟩ <;> simp only [Versions.rollbackWrites, heq, hnil]
    rfl
  | replay lsn =>
    cases hs
    have hmax : Indexed { s with counter := max s.counter lsn } := ⟨h.keys, h.covers⟩
    simp only
    split
    · exact hmax.push
    · exact hmax
  | gc =>
    cases hs
    refine ⟨h.keys, fun k hne => ?_⟩
    obtain ⟨hp, hc⟩ := h.covers k fun hnil => hne (by simp [hnil, retain])
    exact ⟨mem_filter.mpr ⟨hp, by simpa using hne⟩, hc⟩

theorem indexed_of_reach {ok : ChainStore → ChainOp → Prop} (h : chainSystem.Reach ok s) :
    Indexed s :=
  h.invariant ⟨fun _ => nodup_nil, by simp [chainSystem]⟩
    fun _ _ _ hi _ hs => hi.step hs

theorem value_visibleState (l : List Version) : (visibleState snapshot l).bind (·.1) =
      (l.find? (·.visibleTo snapshot)).bind (·.value) := by
  induction l with
  | nil => rfl
  | cons v l ih =>
    rw [visibleState, find?_cons]
    cases v.visibleTo snapshot with
    | true => rfl
    | false => exact ih

theorem mem_walk_iff (h : Indexed s) :
    (∃ r, (key, some b, r) ∈ s.forEachVisibleRecordState tenant snapshot) ↔
      readAt (s.versions (tenant, key)) snapshot = some b := by
  rw [readAt, readVersion, ← value_visibleState, bind_eq_some_iff]
  simp only [forEachVisibleRecordState, mem_filterMap, map_eq_some_iff]
  constructor
  · rintro ⟨r, _, -, _, hst, heq⟩
    cases heq
    exact ⟨_, hst, rfl⟩
  · rintro ⟨⟨_, r⟩, hst, rfl⟩
    refine ⟨r, key, (h.covers (tenant, key) fun hnil => ?_).2, _, hst, rfl⟩
    rw [hnil] at hst
    cases hst

theorem mem_scan_iff (h : Indexed s) : (key, b) ∈ s.forEachVisibleRecordLegacy tenant snapshot ↔
      readAt (s.versions (tenant, key)) snapshot = some b := by
  simp only [forEachVisibleRecordLegacy, mem_filterMap, mem_filter,
    decide_eq_true_eq, map_eq_some_iff]
  constructor
  · rintro ⟨k, ⟨-, rfl⟩, _, hb, heq⟩
    cases heq
    exact hb
  · intro hb
    refine ⟨(tenant, key), ⟨(h.covers _ fun hnil => ?_).1, rfl⟩, b, hb, rfl⟩
    rw [hnil] at hb
    cases hb

/-- The walk of the index meets each key at most once, and of the records with a value
exactly those that the scan of all chains visits. -/
theorem indexed_walk_eq_scan {ok : ChainStore → ChainOp → Prop} (h : chainSystem.Reach ok s)
    (tenant : TenantId) (snapshot : Nat) :
    (∀ key b, (∃ r, (key, some b, r) ∈ s.forEachVisibleRecordState tenant snapshot) ↔
      (key, b) ∈ s.forEachVisibleRecordLegacy tenant snapshot) ∧
    ((s.forEachVisibleRecordState tenant snapshot).map Prod.fst).Nodup := by
  have hi := indexed_of_reach h
  refine ⟨fun key b => (mem_walk_iff hi).trans (mem_scan_iff hi).symm, ?_⟩
  rw [forEachVisibleRecordState, map_filterMap]
  refine (hi.keys tenant).filterMap fun a a' key ha ha' => ?_
  simp only [Option.map_map, mem_def, map_eq_some_iff] at ha ha'
  obtain ⟨_, -, rfl⟩ := ha
  obtain ⟨_, -, heq⟩ := ha'
  exact heq.symm

theorem indexed_walk_eq_scan_chainRun :
    (chainSystem.after sidechannelAbove chainRun).forEachVisibleRecordState 0 1 =
        [(3, some [5], 1, none)] ∧
      (3, [5]) ∈ (chainSystem.after sidechannelAbove chainRun).forEachVisibleRecordLegacy 0 1 :=
  ⟨by decide +kernel, ((indexed_walk_eq_scan (.after (by decide +kernel)) 0 1).1
    3 [5]).mp ⟨(1, none), by decide +kernel⟩⟩

end ArcGraph.Mvcc
