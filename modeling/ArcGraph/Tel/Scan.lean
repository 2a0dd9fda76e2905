import Mathlib.Data.List.Induction
import Mathlib.Data.List.Perm.Basic
import ArcGraph.Foundation.Sorting
import ArcGraph.Foundation.System
import ArcGraph.Tel.Index

/-!
# Scans over edge logs

A scan takes the chain heads when it is opened and walks each chain to its oldest block. It
fixes how far it reads a block when it gets there. Appends go on between its steps; those
with an LSN above the snapshot change nothing for it, and what it still has to give out
stays the same list (`Remaining`). So it gives out what was visible when it was opened,
every entry once (`scan_exact`).
-/

namespace ArcGraph.Tel
open Foundation List

structure BlockCursor where
  page : Nat
  idx : Nat
  frozen : Nat

structure ScanCursor where
  tenant : Nat
  snapshot : Nat
  chainHeads : List (Nat × Nat)
  cur : Option BlockCursor := none

namespace TelIndex
variable (s : TelIndex)

def blockCursor (tenant page : Nat) : Option BlockCursor :=
  (s.blocks (tenant, page)).map fun b => ⟨page, 0, b.entries.length⟩

def heads (tenant node : Nat) (channels : List Nat) : List (Nat × Nat) :=
  channels.filterMap fun ch => (s.chains ⟨tenant, node, ch⟩).map (ch, ·)

/-- `ScanOutCursor::new`, and `ScanInCursor::new` where the reverse index is on. -/
def scanCursor (tenant node : Nat) (typeFilter : Option Nat) (snapshot : Nat) : ScanCursor where
  tenant := tenant
  snapshot := snapshot
  chainHeads := match typeFilter with
    | some ty => s.heads tenant node [ty]
    | none => sortBy Prod.fst (s.heads tenant node (s.channels (tenant, node)))

end TelIndex

inductive Turn
  | done
  | gives (e : TelEntry) (c : ScanCursor)
  | again (c : ScanCursor)

namespace ScanCursor
variable (s : TelIndex) (live : Nat → Bool)

def turn (c : ScanCursor) : Turn :=
  match c.cur with
  | none => match c.chainHeads with
    | [] => .done
    | (_, page) :: rest =>
      .again { c with chainHeads := rest, cur := s.blockCursor c.tenant page }
  | some cur =>
    let block := s.blocks (c.tenant, cur.page)
    if cur.idx < cur.frozen then
      let next := { c with cur := some { cur with idx := cur.idx + 1 } }
      match (block.bind (·.entries[cur.idx]?)).filter (·.isVisibleAt c.snapshot) with
      | some e => if live e.rel then .gives e next else .again next
      | none => .again next
    else .again { c with cur := (block.bind (·.prevBlockPtr)).bind (s.blockCursor c.tenant) }

/-- `none` is a loop that goes on for more rounds than given. -/
def nextEntry : Nat → ScanCursor → Option (Option TelEntry × ScanCursor)
  | 0, _ => none
  | rounds + 1, c => match c.turn s live with
    | .done => some (none, c)
    | .gives e c' => some (some e, c')
    | .again c' => nextEntry rounds c'

end ScanCursor

/-! ## What a scan still gives out -/

def visible (snapshot : Nat) (live : Nat → Bool) (e : TelEntry) : Bool :=
  e.isVisibleAt snapshot && live e.rel

section
variable (s : TelIndex) (tenant : Nat) (p : TelEntry → Bool)

def Passing (head : Option Nat) (es : List TelEntry) : Prop :=
  ∃ k : ChainKey, k.tenant = tenant ∧
    TelIndex.Linked s.blocks (fun b => b.entries.filter p) k head es

def InBlock : Option BlockCursor → List TelEntry → Prop
  | none, es => es = []
  | some cur, es => ∃ b rest, s.blocks (tenant, cur.page) = some b ∧
      cur.frozen ≤ b.entries.length ∧ Passing s tenant p b.prevBlockPtr rest ∧
      es = ((b.entries.take cur.frozen).drop cur.idx).filter p ++ rest

def Queued : List (Nat × Nat) → List (List TelEntry) → Prop :=
  Forall₂ fun h es => Passing s tenant p (some h.2) es

def Remaining (live : Nat → Bool) (snapshot : Nat) (c : ScanCursor) (es : List TelEntry) : Prop :=
  c.snapshot = snapshot ∧ ∃ now later, InBlock s c.tenant (visible snapshot live) c.cur now ∧
    Queued s c.tenant (visible snapshot live) c.chainHeads later ∧ es = now ++ later.flatten

end

variable {s s' : TelIndex} {tenant node : Nat} {p : TelEntry → Bool} {live : Nat → Bool}
  {c c' : ScanCursor} {es : List TelEntry} {head : Option Nat} {snapshot : Nat}

open TelIndex

theorem blockCursor_eq {page : Nat} {b : TelBlock} (h : s.blocks (tenant, page) = some b) :
    s.blockCursor tenant page = some ⟨page, 0, b.entries.length⟩ := by
  rw [blockCursor, h]
  rfl

theorem Passing.inBlock (h : Passing s tenant p head es) :
    InBlock s tenant p (head.bind (s.blockCursor tenant)) es := by
  obtain ⟨k, rfl, hlinked⟩ := h
  cases hlinked with
  | nil => rfl
  | @cons page b rest hp hk hlt hrest =>
    simp only [Option.bind_some, blockCursor_eq hp]
    exact ⟨b, rest, hp, Nat.le_refl _, ⟨k, rfl, hrest⟩, by simp⟩

open ScanCursor

theorem turn_spec (h : Remaining s live snapshot c es) : match c.turn s live with
    | .done => es = []
    | .gives e c' => ∃ rest, es = e :: rest ∧ Remaining s live snapshot c' rest
    | .again c' => Remaining s live snapshot c' es := by
  obtain ⟨rfl, _, later, hnow, hlater, rfl⟩ := h
  unfold turn
  cases hcur : c.cur with rw [hcur] at hnow
  | none =>
    cases hnow
    cases hheads : c.chainHeads with rw [hheads] at hlater
    | nil =>
      cases hlater
      rfl
    | cons =>
      cases hlater with
      | cons hpassing hrest => exact ⟨rfl, _, _, hpassing.inBlock, hrest, rfl⟩
  | some cur =>
    obtain ⟨b, rest, hb, hfrozen, hrest, rfl⟩ := hnow
    simp only [hb, Option.bind_some]
    by_cases hidx : cur.idx < cur.frozen
    · have hlt : cur.idx < b.entries.length := by omega
      -- the entry at the cursor, and those behind it
      have hdrop : (b.entries.take cur.frozen).drop cur.idx =
          b.entries[cur.idx] :: (b.entries.take cur.frozen).drop (cur.idx + 1) := by
        rw [drop_eq_getElem_cons (by rw [length_take]; omega), getElem_take]
      have hnext : Remaining s live c.snapshot { c with cur := some { cur with idx := cur.idx + 1 } }
          (((b.entries.take cur.frozen).drop (cur.idx + 1)).filter (visible c.snapshot live) ++
            rest ++ later.flatten) := ⟨rfl, _, later, ⟨b, rest, hb, hfrozen, hrest, rfl⟩, hlater, rfl⟩
      simp only [if_pos hidx, getElem?_eq_getElem hlt, hdrop]
      cases hvisible : b.entries[cur.idx].isVisibleAt c.snapshot with
      | false => simpa [Option.filter_some, visible, hvisible] using hnext
      | true =>
        simp only [Option.filter_some, hvisible, if_true]
        cases hlive : live b.entries[cur.idx].rel with
        | false => simpa [visible, hvisible, hlive] using hnext
        | true => exact ⟨_, by simp [visible, hvisible, hlive], hnext⟩
    · have hnil : (b.entries.take cur.frozen).drop cur.idx = [] :=
        drop_eq_nil_of_le (by rw [length_take]; omega)
      simp only [if_neg hidx, hnil]
      exact ⟨rfl, _, later, hrest.inBlock, hlater, rfl⟩

theorem nextEntry_spec {rounds : Nat} {result : Option TelEntry} (h : Remaining s live snapshot c es)
    (hnext : c.nextEntry s live rounds = some (result, c')) :
    result = es.head? ∧ Remaining s live snapshot c' es.tail := by
  induction rounds generalizing c with
  | zero => cases hnext
  | succ _ ih =>
    have hturn := turn_spec h
    unfold nextEntry at hnext
    split at hnext <;> rename_i heq <;> simp only [heq] at hturn
    · cases hnext
      subst hturn
      exact ⟨rfl, h⟩
    · cases hnext
      obtain ⟨_, rfl, hrest⟩ := hturn
      exact ⟨rfl, hrest⟩
    · exact ih hturn hnext

/-! ## The loop ends -/

def Halts (s : TelIndex) (live : Nat → Bool) (c : ScanCursor) : Prop :=
  ∃ rounds, (c.nextEntry s live rounds).isSome = true

theorem Halts.of_turn (h : ∀ c', c.turn s live = .again c' → Halts s live c') : Halts s live c := by
  cases hturn : c.turn s live with
  | done | gives => exact ⟨1, by simp [nextEntry, hturn]⟩
  | again c' =>
    obtain ⟨rounds, hrounds⟩ := h c' hturn
    exact ⟨rounds + 1, by simpa [nextEntry, hturn] using hrounds⟩

theorem Halts.of_block {cur : BlockCursor} (n : Nat) (hn : cur.frozen ≤ cur.idx + n)
    (h : Halts s live { c with cur :=
      ((s.blocks (c.tenant, cur.page)).bind (·.prevBlockPtr)).bind (s.blockCursor c.tenant) }) :
    Halts s live { c with cur := some cur } := by
  induction n generalizing cur with
  | zero =>
    refine .of_turn fun c' hc' => ?_
    have hend : ¬ cur.idx < cur.frozen := by omega
    simp only [turn, if_neg hend, Turn.again.injEq] at hc'
    exact hc' ▸ h
  | succ n ih =>
    refine .of_turn fun c' hc' => ?_
    have hnext : Halts s live { c with cur := some { cur with idx := cur.idx + 1 } } :=
      ih (by simp only; omega) h
    simp only [turn] at hc'
    split at hc'
    · split at hc'
      · split at hc'
        · cases hc'
        · cases hc'
          exact hnext
      · cases hc'
        exact hnext
    · cases hc'
      exact h

theorem Halts.of_linked {content : TelBlock → List TelEntry} {k : ChainKey}
    (hlinked : TelIndex.Linked s.blocks content k head es) (hk : k.tenant = c.tenant)
    (h : Halts s live { c with cur := none }) :
    Halts s live { c with cur := head.bind (s.blockCursor c.tenant) } := by
  induction hlinked with
  | nil => exact h
  | @cons page b rest hp _ _ _ ih =>
    rw [hk] at hp
    simp only [Option.bind_some, blockCursor_eq hp]
    refine .of_block b.entries.length (by simp) ?_
    simpa only [hp, Option.bind_some] using ih

theorem Halts.of_queued {heads : List (Nat × Nat)} {ess : List (List TelEntry)}
    (h : Queued s c.tenant p heads ess) :
    Halts s live { c with chainHeads := heads, cur := none } := by
  unfold Queued at h
  induction h with
  | nil =>
    refine .of_turn fun c' hc' => ?_
    cases hc'
  | @cons _ _ hs _ hpassing _ ih =>
    refine .of_turn fun c' hc' => ?_
    simp only [turn, Turn.again.injEq] at hc'
    subst hc'
    obtain ⟨k, hk, hlinked⟩ := hpassing
    exact .of_linked (c := { c with chainHeads := hs }) hlinked hk ih

theorem Remaining.halts (h : Remaining s live snapshot c es) : Halts s live c := by
  obtain ⟨tenant, snapshot, heads, cur⟩ := c
  obtain ⟨-, _, _, hnow, hlater, -⟩ := h
  have hqueued : Halts s live ⟨tenant, snapshot, heads, none⟩ :=
    .of_queued (c := ⟨tenant, snapshot, heads, none⟩) hlater
  cases cur with
  | none => exact hqueued
  | some cur =>
    obtain ⟨_, _, hb, -, ⟨_, hk, hlinked⟩, -⟩ := hnow
    refine .of_block (c := ⟨tenant, snapshot, heads, none⟩) cur.frozen (Nat.le_add_left ..) ?_
    simp only [hb, Option.bind_some]
    exact .of_linked (c := ⟨tenant, snapshot, heads, none⟩) hlinked hk hqueued

/-! ## Appends during the scan -/

section
variable {k : ChainKey} {e : TelEntry}

theorem Passing.grows (h : Passing s tenant p head es)
    (hgrows : TelIndex.Grows k e s.blocks s'.blocks) (he : p e = false) :
    Passing s' tenant p head es := by
  obtain ⟨k', hk', hlinked⟩ := h
  refine ⟨k', hk', hlinked.frame fun page b _ hb hkey => ?_⟩
  rcases hgrows _ b hb with hb' | ⟨hk, b', hb', hkey', hprev, hentries⟩
  · exact ⟨b, hb', hkey, rfl, rfl⟩
  · exact ⟨b', hb', hkey'.trans (hk.symm.trans hkey), hprev, by simp [hentries, he]⟩

theorem Remaining.grows (h : Remaining s live snapshot c es)
    (hgrows : TelIndex.Grows k e s.blocks s'.blocks) (he : visible snapshot live e = false) :
    Remaining s' live snapshot c es := by
  obtain ⟨rfl, now, later, hnow, hlater, rfl⟩ := h
  refine ⟨rfl, now, later, ?_, hlater.imp fun _ _ hp => hp.grows hgrows he, rfl⟩
  cases hcur : c.cur with
  | none => rwa [hcur] at hnow
  | some =>
    rw [hcur] at hnow
    obtain ⟨b, rest, hb, hfrozen, hrest, rfl⟩ := hnow
    rcases hgrows _ b hb with hb' | ⟨-, b', hb', -, hprev, hentries⟩
    · exact ⟨b, rest, hb', hfrozen, hrest.grows hgrows he, rfl⟩
    · refine ⟨b', rest, hb', ?_, by rw [hprev]; exact hrest.grows hgrows he, ?_⟩
      · rw [hentries, length_append]
        omega
      · rw [hentries, take_append_of_le_length hfrozen]

end

/-! ## Opening a scan -/

variable {appends : List Append}

theorem queued_heads (h : TelIndex.Sound appends s) (channels : List Nat) :
    ∃ ess, Queued s tenant p (s.heads tenant node channels) ess ∧
      ess.flatten.Perm (channels.flatMap fun ch =>
        (entriesOf appends ⟨tenant, node, ch⟩).filter p) := by
  induction channels with
  | nil => exact ⟨[], .nil, .refl _⟩
  | cons ch _ ih =>
    obtain ⟨later, hqueued, hlater⟩ := ih
    obtain ⟨es, hlinked, hes⟩ := h.linked ⟨tenant, node, ch⟩
    rw [flatMap_cons]
    cases hchain : s.chains ⟨tenant, node, ch⟩ with rw [hchain] at hlinked
    | none =>
      cases hlinked
      refine ⟨later, ?_, by simpa [hes.nil_eq.symm] using hlater⟩
      simpa only [heads, filterMap_cons, hchain, Option.map_none] using hqueued
    | some page =>
      refine ⟨es.filter p :: later, ?_, (hes.filter p).append hlater⟩
      simpa only [Queued, heads, filterMap_cons, hchain, Option.map_some] using
        Forall₂.cons (a := (ch, page)) ⟨_, rfl, hlinked.filter p⟩ hqueued

theorem perm_flatMap_filter {α : Type} (key : α → Nat) (l : List α) {keys : List Nat}
    (h : keys.Nodup) :
    (keys.flatMap fun k => l.filter (key · = k)).Perm (l.filter (key · ∈ keys)) := by
  induction keys with
  | nil => simp
  | cons k rest ih =>
    obtain ⟨hk, hrest⟩ := nodup_cons.mp h
    rw [flatMap_cons]
    refine ((ih hrest).append_left _).trans ?_
    have hsplit := filter_append_perm (fun a => decide (key a = k))
      (l.filter (key · ∈ k :: rest))
    rw [filter_filter, filter_filter] at hsplit
    convert hsplit using 2
    · exact filter_congr fun a _ => by by_cases ha : key a = k <;> simp [ha]
    · refine filter_congr fun a _ => ?_
      by_cases ha : key a = k
      · simp [ha, hk]
      · simp [ha]

def seen (appends : List Append) (tenant node snapshot : Nat) (live : Nat → Bool) :
    List Append :=
  appends.filter fun a =>
    a.key.tenant = tenant ∧ a.key.node = node ∧ a.commitLsn ≤ snapshot ∧ live a.rel

def expected (appends : List Append) (tenant node : Nat) (typeFilter : Option Nat)
    (snapshot : Nat) (live : Nat → Bool) : List TelEntry :=
  ((seen appends tenant node snapshot live).filter fun a =>
    ∀ ty ∈ typeFilter, a.key.channel = ty).map Append.entry

theorem filter_entriesOf (hlt : snapshot < lsnMax) (ch : Nat) :
    (entriesOf appends ⟨tenant, node, ch⟩).filter (visible snapshot live) =
      ((seen appends tenant node snapshot live).filter (·.key.channel = ch)).map Append.entry := by
  rw [entriesOf, seen, filter_map, filter_filter, filter_filter]
  congr 1
  refine filter_congr fun a _ => ?_
  obtain ⟨⟨t, n, c⟩, _, _, _, _⟩ := a
  simp only [visible, Append.entry, TelEntry.new, TelEntry.isVisibleAt, Function.comp_apply,
    ChainKey.mk.injEq, hlt, and_true, Bool.decide_and, Bool.and_assoc, Bool.decide_eq_true]
  cases decide (t = tenant) <;> cases decide (n = node) <;> cases decide (c = ch) <;> simp

theorem opened (h : TelIndex.Sound appends s) (hlt : snapshot < lsnMax) (typeFilter : Option Nat) :
    ∃ es, Remaining s live snapshot (s.scanCursor tenant node typeFilter snapshot) es ∧
      es.Perm (expected appends tenant node typeFilter snapshot live) := by
  -- the heads of some channels give out the edges of these channels
  have hheads {channels : List Nat} (hnodup : channels.Nodup) :
      ∃ ess, Queued s tenant (visible snapshot live) (s.heads tenant node channels) ess ∧
        ess.flatten.Perm (((seen appends tenant node snapshot live).filter
          (·.key.channel ∈ channels)).map Append.entry) := by
    obtain ⟨ess, hqueued, hess⟩ := queued_heads h channels
    refine ⟨ess, hqueued, hess.trans ?_⟩
    simp only [filter_entriesOf hlt, ← map_flatMap]
    exact (perm_flatMap_filter _ _ hnodup).map _
  cases typeFilter with
  | some ty =>
    obtain ⟨ess, hqueued, hess⟩ := hheads (nodup_singleton ty)
    exact ⟨_, ⟨rfl, [], ess, rfl, hqueued, rfl⟩, by simpa [expected, eq_comm] using hess⟩
  | none =>
    obtain ⟨ess, hqueued, hess⟩ := hheads (h.nodup (tenant, node))
    obtain ⟨ess', hqueued', hperm⟩ := perm_comp_forall₂ (perm_sortBy Prod.fst _) hqueued
    refine ⟨_, ⟨rfl, [], ess', rfl, hqueued', rfl⟩, hperm.flatten.trans (hess.trans (.of_eq ?_))⟩
    rw [expected]
    congr 1
    refine filter_congr fun a ha => ?_
    -- an edge has made its chain
    have hkey : a.key.channel ∈ s.channels (tenant, node) := by
      obtain ⟨hmem, hprops⟩ := mem_filter.mp ha
      obtain ⟨rfl, rfl, -⟩ := of_decide_eq_true hprops
      cases hchain : s.chains a.key with
      | some page => exact h.mem_channels a.key page hchain
      | none =>
        obtain ⟨_, hlinked, hperm⟩ := h.linked a.key
        rw [hchain] at hlinked
        cases hlinked
        have hin : a.entry ∈ entriesOf appends a.key :=
          mem_map_of_mem (mem_filter.mpr ⟨hmem, by simp⟩)
        rw [← hperm.nil_eq] at hin
        cases hin
    simp [hkey]

/-! ## Whole scans -/

def built (reverse : Bool) (appends : List Append) : TelIndex :=
  appends.foldl (fun s a => (s.record reverse a).getD s) {}

theorem sound_built (reverse : Bool) (appends : List Append) :
    TelIndex.Sound appends (built reverse appends) := by
  induction appends using reverseRecOn with
  | nil =>
    exact ⟨fun _ _ _ hb => (by cases hb), fun _ => ⟨[], .nil, .refl _⟩, fun _ => nodup_nil,
      fun _ _ hc => (by cases hc)⟩
  | append_singleton appends a ih =>
    obtain ⟨s', hs', happended⟩ := append_spec ih a
    have heq : built reverse (appends ++ [a]) = s' := by
      simp only [built, foldl_append, foldl_cons, foldl_nil, record_eq_append] at hs' ⊢
      exact (congrArg (Option.getD · _) hs').trans rfl
    exact heq ▸ happended.1

structure Scan where
  index : TelIndex
  cursor : ScanCursor
  given : List TelEntry := []
  finished : Bool := false

inductive ScanAction
  | append (a : Append)
  | nextEntry (rounds : Nat)

def scanning (reverse : Bool) (before : List Append) (tenant node : Nat) (typeFilter : Option Nat)
    (snapshot : Nat) (live : Nat → Bool) : System Scan ScanAction where
  init := ⟨built reverse before,
    (built reverse before).scanCursor tenant node typeFilter snapshot, [], false⟩
  step s
    | .append a => (s.index.record reverse a).map fun index => { s with index }
    | .nextEntry rounds =>
      (s.cursor.nextEntry s.index live rounds).map fun (result, cursor) =>
        match result with
        | some e => { s with cursor, given := s.given ++ [e] }
        | none => { s with cursor, finished := true }

def Late (snapshot : Nat) (_ : Scan) : ScanAction → Prop
  | .append a => snapshot < a.commitLsn
  | .nextEntry _ => True

structure Exact (live : Nat → Bool) (snapshot : Nat) (all : List TelEntry) (s : Scan) : Prop where
  index : ∃ appends, TelIndex.Sound appends s.index
  remaining : ∃ rest, Remaining s.index live snapshot s.cursor rest ∧ (s.given ++ rest).Perm all ∧
    (s.finished = true → rest = [])

variable {reverse : Bool} {before : List Append} {typeFilter : Option Nat} {all : List TelEntry}

theorem Exact.step {scan scan' : Scan} {a : ScanAction} (h : Exact live snapshot all scan)
    (hlate : Late snapshot scan a)
    (hstep : (scanning reverse before tenant node typeFilter snapshot live).step scan a = some scan') :
    Exact live snapshot all scan' := by
  obtain ⟨⟨_, hsound⟩, rest, hrest, hperm, hfinished⟩ := h
  cases a with
  | append a =>
    obtain ⟨_, hs', happended, hgrows⟩ := append_spec hsound a
    simp only [scanning, record_eq_append, hs', Option.map_some, Option.some.injEq] at hstep
    subst hstep
    have hhidden : visible snapshot live a.entry = false := by
      have : ¬ a.commitLsn ≤ snapshot := Nat.not_le.mpr hlate
      simp [visible, TelEntry.isVisibleAt, Append.entry, TelEntry.new, this]
    exact ⟨⟨_, happended⟩, rest, hrest.grows hgrows hhidden, hperm, hfinished⟩
  | nextEntry =>
    obtain ⟨⟨_, _⟩, hnext, rfl⟩ := Option.map_eq_some_iff.mp hstep
    obtain ⟨rfl, hrest'⟩ := nextEntry_spec hrest hnext
    cases rest with
    | nil => exact ⟨⟨_, hsound⟩, [], hrest', hperm, fun _ => rfl⟩
    | cons _ rest =>
      refine ⟨⟨_, hsound⟩, rest, hrest', by simpa using hperm, fun hdone => ?_⟩
      cases hfinished hdone

/-- In each direction a scan gives out the edges that its snapshot sees, each once, whatever is
appended behind the snapshot meanwhile; every call of `next_entry` returns. -/
theorem scan_exact (reverse : Bool) (before : List Append) (tenant node : Nat)
    (typeFilter : Option Nat) (snapshot : Fin lsnMax) (live : Nat → Bool) {scan : Scan}
    (h : (scanning reverse before tenant node typeFilter snapshot live).Reach (Late snapshot) scan) :
    (∃ rest, (scan.given ++ rest).Perm (expected before tenant node typeFilter snapshot live)) ∧
    (scan.finished = true →
      scan.given.Perm (expected before tenant node typeFilter snapshot live)) ∧
    ∃ rounds, (scan.cursor.nextEntry scan.index live rounds).isSome = true := by
  obtain ⟨es, hes, hperm⟩ : ∃ es, Remaining (built reverse before) live snapshot _ es ∧ _ :=
    opened (sound_built reverse before) snapshot.isLt typeFilter
  have hexact : Exact live snapshot (expected before tenant node typeFilter snapshot live) scan :=
    h.invariant ⟨⟨before, sound_built reverse before⟩, es, hes, hperm,
      fun hdone => by cases hdone⟩ fun _ _ _ hex hlate hstep => hex.step hlate hstep
  obtain ⟨-, rest, hrest, hperm, hfinished⟩ := hexact
  refine ⟨⟨rest, hperm⟩, fun hdone => ?_, hrest.halts⟩
  rw [hfinished hdone, append_nil] at hperm
  exact hperm

instance (snapshot : Nat) (s : Scan) : DecidablePred (Late snapshot s)
  | .append _ => inferInstanceAs (Decidable (_ < _))
  | .nextEntry _ => inferInstanceAs (Decidable True)

/-- Two edges, and a third that makes the head block grow while the scan is in it. -/
def growingScan : Scan :=
  (scanning false [⟨⟨0, 1, 7⟩, 2, 10, 1, 0⟩, ⟨⟨0, 1, 7⟩, 3, 11, 2, 0⟩] 0 1 none 2
    fun _ => true).after (Late 2) [.nextEntry 5, .append ⟨⟨0, 1, 7⟩, 4, 12, 3, 0⟩, .append ⟨⟨0, 1, 7⟩, 5, 13, 4, 0⟩,
      .nextEntry 5, .nextEntry 5]

theorem scan_exact_growing : growingScan.given.length = 2 ∧ growingScan.given.Perm
    (expected [⟨⟨0, 1, 7⟩, 2, 10, 1, 0⟩, ⟨⟨0, 1, 7⟩, 3, 11, 2, 0⟩] 0 1 none 2 fun _ => true) :=
  ⟨by decide +kernel, (scan_exact false _ 0 1 none ⟨2, by decide⟩ _
    (.after (by decide +kernel))).2.1 (by decide +kernel)⟩

end ArcGraph.Tel
