import Mathlib.Data.List.Nodup

/-!
# Transactional edge logs

The edges of a node under one channel are kept in a chain of blocks. An append goes to the
head block. A full head is replaced by a copy of twice the size, and behind the largest
size by a fresh block that links the old head as its predecessor.

`TelIndex` is one set of these maps; the store has one for outgoing and one for incoming
edges, with the same code for both. A block is known by the page it was published under,
and stays there when its chain has moved on.

`Linked` says which entries a chain holds, and `Sound` ties the chains to the appends made
so far.
-/

namespace ArcGraph.Tel
open Function Option List

def lsnMax : Nat := 18446744073709551615

/-- The other end of an edge, the edge, and the LSNs it lives between. -/
structure TelEntry where
  node : Nat
  rel : Nat
  created : Nat
  expired : Nat
deriving DecidableEq

def TelEntry.new (node rel commitLsn : Nat) : TelEntry := ⟨node, rel, commitLsn, lsnMax⟩

def TelEntry.isVisibleAt (e : TelEntry) (snapshot : Nat) : Bool :=
  e.created ≤ snapshot ∧ snapshot < e.expired

structure ChainKey where
  tenant : Nat
  node : Nat
  channel : Nat
deriving DecidableEq

def headerSize : Nat := 32
def entrySize : Nat := 32
def minBlockBytes : Nat := 64
def maxBlockBytes : Nat := 65536

def nextBlockSize (current : Nat) : Option Nat :=
  if maxBlockBytes ≤ current then none
  else if current < minBlockBytes ∨ (current - headerSize) % entrySize ≠ 0 then none
  else some (min (current * 2) maxBlockBytes)

/-- A block of a legal size that has no more entries than fit. -/
structure TelBlock where
  key : ChainKey
  blockSize : Nat
  entries : List TelEntry := []
  prevBlockPtr : Option Nat := none
  size_le : minBlockBytes ≤ blockSize ∧ blockSize ≤ maxBlockBytes
  aligned : (blockSize - headerSize) % entrySize = 0
  fits : entries.length ≤ (blockSize - headerSize) / entrySize

namespace TelBlock

def new (key : ChainKey) : TelBlock where
  key := key
  blockSize := minBlockBytes
  size_le := by decide
  aligned := by decide
  fits := by decide

variable (b : TelBlock)

def append (e : TelEntry) : Option TelBlock :=
  if h : b.entries.length < (b.blockSize - headerSize) / entrySize then
    some { b with entries := b.entries ++ [e], fits := by rw [length_append]; exact h }
  else none

def setPrevBlockPtr (page : Nat) : Option TelBlock :=
  if b.prevBlockPtr.isNone then some { b with prevBlockPtr := some page } else none

theorem nextBlockSize_spec {size next : Nat} (h : nextBlockSize size = some next)
    (haligned : (size - headerSize) % entrySize = 0) :
    (minBlockBytes ≤ next ∧ next ≤ maxBlockBytes) ∧ (next - headerSize) % entrySize = 0 ∧
      (size - headerSize) / entrySize < (next - headerSize) / entrySize := by
  unfold nextBlockSize at h
  split at h
  · cases h
  · split at h
    · cases h
    · cases h
      simp only [minBlockBytes, maxBlockBytes, headerSize, entrySize] at *
      omega

/-- The copy of twice the size. It has no link to a predecessor. -/
def grown : Option TelBlock :=
  match h : nextBlockSize b.blockSize with
  | none => none
  | some size =>
    have hsize := nextBlockSize_spec h b.aligned
    some
      { key := b.key
        blockSize := size
        entries := b.entries
        size_le := hsize.1
        aligned := hsize.2.1
        fits := Nat.le_trans b.fits (Nat.le_of_lt hsize.2.2) }

/-- The block that takes over when this one, under `page`, is full. `none` is a panic: a
link that exists already. -/
def successor (page : Nat) : Option TelBlock :=
  match b.grown with
  | some g => match b.prevBlockPtr with
    | some prev => g.setPrevBlockPtr prev
    | none => some g
  | none => (TelBlock.new b.key).setPrevBlockPtr page

def HasRoom : Prop := b.entries.length < (b.blockSize - headerSize) / entrySize

variable {b}

theorem append_eq_none (h : ¬ b.HasRoom) (e : TelEntry) : b.append e = none := dif_neg h

theorem append_eq_some (h : b.HasRoom) (e : TelEntry) :
    ∃ b', b.append e = some b' ∧ b'.key = b.key ∧ b'.prevBlockPtr = b.prevBlockPtr ∧
      b'.entries = b.entries ++ [e] :=
  ⟨_, dif_pos h, rfl, rfl, rfl⟩

theorem grown_spec {g : TelBlock} (h : b.grown = some g) :
    g.HasRoom ∧ g.key = b.key ∧ g.prevBlockPtr = none ∧ g.entries = b.entries := by
  unfold grown at h
  split at h
  · cases h
  · rename_i size hsize
    cases h
    exact ⟨Nat.lt_of_le_of_lt b.fits (nextBlockSize_spec hsize b.aligned).2.2, rfl, rfl, rfl⟩

theorem successor_spec (b : TelBlock) (page : Nat) :
    ∃ fresh, b.successor page = some fresh ∧ fresh.HasRoom ∧ fresh.key = b.key ∧
      (fresh.prevBlockPtr = b.prevBlockPtr ∧ fresh.entries = b.entries ∨
        fresh.prevBlockPtr = some page ∧ fresh.entries = []) := by
  unfold successor
  cases hgrown : b.grown with
  | none =>
    have hroom : 0 < (minBlockBytes - headerSize) / entrySize := by decide
    exact ⟨_, rfl, hroom, rfl, .inr ⟨rfl, rfl⟩⟩
  | some g =>
    obtain ⟨hroom, hkey, hprev, hentries⟩ := grown_spec hgrown
    cases b.prevBlockPtr with
    | none => exact ⟨g, rfl, hroom, hkey, .inl ⟨hprev, hentries⟩⟩
    | some prev =>
      have hlink : g.setPrevBlockPtr prev = some { g with prevBlockPtr := some prev } :=
        if_pos (by rw [hprev]; rfl)
      exact ⟨_, hlink, hroom, hkey, .inl ⟨rfl, hentries⟩⟩

end TelBlock

/-- The maps of one direction. Pages come from a counter that others use too. -/
structure TelIndex where
  blocks : Nat × Nat → Option TelBlock := fun _ => none
  /-- The page of the head block. -/
  chains : ChainKey → Option Nat := fun _ => none
  /-- The channels of a node, by tenant and node. -/
  channels : Nat × Nat → List Nat := fun _ => []
  nextPage : Nat := 0

/-- An edge is appended for `key`, after others have taken that many pages. -/
structure Append where
  key : ChainKey
  node : Nat
  rel : Nat
  commitLsn : Nat
  taken : Nat

def Append.entry (a : Append) : TelEntry := .new a.node a.rel a.commitLsn

open TelBlock

namespace TelIndex
variable (s : TelIndex)

def publish (taken : Nat) (b : TelBlock) : TelIndex :=
  { s with
    blocks := update s.blocks (b.key.tenant, s.nextPage + taken) (some b)
    chains := update s.chains b.key (some (s.nextPage + taken))
    nextPage := s.nextPage + taken + 1 }

def noteChannel (key : ChainKey) : TelIndex :=
  if key.channel ∈ s.channels (key.tenant, key.node) then s
  else
    { s with
      channels := update s.channels (key.tenant, key.node)
        (s.channels (key.tenant, key.node) ++ [key.channel]) }

def chainFor (taken : Nat) (key : ChainKey) : TelIndex :=
  match s.chains key with
  | some _ => s
  | none => (s.publish taken (.new key)).noteChannel key

def append (a : Append) : Option TelIndex := do
  let s := s.chainFor a.taken a.key
  let head ← s.chains a.key
  let b ← s.blocks (a.key.tenant, head)
  match b.append a.entry with
  | some b' => some { s with blocks := update s.blocks (a.key.tenant, head) (some b') }
  | none =>
    let fresh ← b.successor head
    let fresh ← fresh.append a.entry
    some (s.publish a.taken fresh)

/-- The chain of an outgoing edge is that of its source. -/
def telAppend (tenant src channel dst rel commitLsn taken : Nat) :
    Option TelIndex :=
  s.append ⟨⟨tenant, src, channel⟩, dst, rel, commitLsn, taken⟩

def telAppendReverse (enabled : Bool) (s : TelIndex)
    (tenant dst channel src rel commitLsn taken : Nat) : Option TelIndex :=
  if enabled then s.append ⟨⟨tenant, dst, channel⟩, src, rel, commitLsn, taken⟩ else some s

/-- An edge goes into the maps of its source or, if these are kept, of its target. -/
def record (reverse : Bool) (a : Append) : Option TelIndex :=
  let ⟨⟨tenant, node, channel⟩, other, rel, commitLsn, taken⟩ := a
  if reverse then telAppendReverse true s tenant node channel other rel commitLsn taken
  else s.telAppend tenant node channel other rel commitLsn taken

theorem record_eq_append (reverse : Bool) (a : Append) : s.record reverse a = s.append a := by
  cases reverse <;> rfl

/-! ## What a chain holds -/

/-- The chain from a page on, with what each block contributes. -/
inductive Linked (blocks : Nat × Nat → Option TelBlock) (content : TelBlock → List TelEntry)
    (k : ChainKey) : Option Nat → List TelEntry → Prop
  | nil : Linked blocks content k none []
  | cons {p : Nat} {b : TelBlock} {rest : List TelEntry} :
    blocks (k.tenant, p) = some b → b.key = k → (∀ q, b.prevBlockPtr = some q → q < p) →
    Linked blocks content k b.prevBlockPtr rest →
    Linked blocks content k (some p) (content b ++ rest)

variable {blocks blocks' : Nat × Nat → Option TelBlock} {content : TelBlock → List TelEntry}
  {k : ChainKey} {head : Option Nat} {es : List TelEntry}

/-- Only the blocks from the head down matter, and of these only links and contributions. -/
theorem Linked.frame (h : Linked blocks content k head es)
    (hsame : ∀ p b, (∃ q, head = some q ∧ p ≤ q) → blocks (k.tenant, p) = some b → b.key = k →
      ∃ b', blocks' (k.tenant, p) = some b' ∧ b'.key = k ∧
        b'.prevBlockPtr = b.prevBlockPtr ∧ content b' = content b) :
    Linked blocks' content k head es := by
  induction h with
  | nil => exact .nil
  | @cons p b rest hp hk hlt _ ih =>
    obtain ⟨_, hp', hk', hprev, hcontent⟩ := hsame p b ⟨p, rfl, Nat.le_refl p⟩ hp hk
    rw [← hcontent]
    refine .cons hp' hk' (hprev ▸ hlt) (hprev ▸ ih ?_)
    rintro p' b'' ⟨q, hq, hle⟩
    exact hsame p' b'' ⟨p, rfl, Nat.le_trans hle (Nat.le_of_lt (hlt q hq))⟩

theorem Linked.filter (h : Linked blocks entries k head es) (p : TelEntry → Bool) :
    Linked blocks (fun b => b.entries.filter p) k head (es.filter p) := by
  induction h with
  | nil => exact .nil
  | cons hp hk hlt _ ih =>
    rw [filter_append]
    exact .cons hp hk hlt ih

/-! ## Appends -/

/-- Blocks stay under their page, and get at most `e` behind their entries. -/
def Grows (k : ChainKey) (e : TelEntry) (blocks blocks' : Nat × Nat → Option TelBlock) : Prop :=
  ∀ at' b, blocks at' = some b → blocks' at' = some b ∨
    b.key = k ∧ ∃ b', blocks' at' = some b' ∧ b'.key = k ∧
      b'.prevBlockPtr = b.prevBlockPtr ∧ b'.entries = b.entries ++ [e]

def entriesOf (appends : List Append) (k : ChainKey) : List TelEntry :=
  (appends.filter fun a => a.key = k).map Append.entry

/-- The index after these appends. -/
structure Sound (appends : List Append) (s : TelIndex) : Prop where
  below : ∀ tenant p b, s.blocks (tenant, p) = some b → p < s.nextPage
  linked : ∀ k, ∃ es, Linked s.blocks TelBlock.entries k (s.chains k) es ∧
    es.Perm (entriesOf appends k)
  nodup : ∀ at', (s.channels at').Nodup
  mem_channels : ∀ k head, s.chains k = some head → k.channel ∈ s.channels (k.tenant, k.node)

variable {appends : List Append} {s : TelIndex} {rest : List TelEntry} {a : Append}
  {b b' : TelBlock}

section
variable (h : Sound appends s)
include h

theorem fresh_page (tenant taken : Nat) : s.blocks (tenant, s.nextPage + taken) = none := by
  cases hb : s.blocks (tenant, s.nextPage + taken) with
  | none => rfl
  | some b =>
    have := h.below tenant _ b hb
    omega

theorem publish_keeps (taken : Nat) (b : TelBlock) {at' : Nat × Nat} (hb : s.blocks at' = some b') :
    (s.publish taken b).blocks at' = some b' := by
  have hne : at' ≠ (b.key.tenant, s.nextPage + taken) := by
    rintro rfl
    rw [fresh_page h] at hb
    cases hb
  simpa only [publish, update_of_ne hne] using hb

theorem Sound.publish (taken : Nat) {later : List Append}
    (hrest : Linked s.blocks entries b.key b.prevBlockPtr rest)
    (hperm : (b.entries ++ rest).Perm (entriesOf later b.key))
    (hothers : ∀ k, k ≠ b.key → entriesOf later k = entriesOf appends k)
    (hchannel : b.key.channel ∈ s.channels (b.key.tenant, b.key.node)) :
    Sound later (s.publish taken b) := by
  have hkeep {content k head es} (hl : Linked s.blocks content k head es) :
      Linked (s.publish taken b).blocks content k head es :=
    hl.frame fun _ b' _ hb hk => ⟨b', publish_keeps h taken b hb, hk, rfl, rfl⟩
  refine ⟨?_, ?_, h.nodup, ?_⟩
  · intro tenant p b' hb
    simp only [TelIndex.publish] at hb ⊢
    by_cases hat : (tenant, p) = (b.key.tenant, s.nextPage + taken)
    · obtain ⟨-, rfl⟩ := Prod.mk.inj hat
      omega
    · rw [update_of_ne hat] at hb
      have := h.below tenant p b' hb
      omega
  · intro k
    by_cases hk : k = b.key
    · subst hk
      refine ⟨b.entries ++ rest, ?_, hperm⟩
      have hhead : (s.publish taken b).chains b.key = some (s.nextPage + taken) :=
        update_self ..
      rw [hhead]
      refine .cons (update_self ..) rfl ?_ (hkeep hrest)
      intro q hq
      -- the predecessor has a block, so it is an older page
      rw [hq] at hrest
      cases hrest with
      | cons hp =>
        have := h.below _ _ _ hp
        omega
    · obtain ⟨es, hes, hp⟩ := h.linked k
      refine ⟨es, ?_, hothers k hk ▸ hp⟩
      have hhead : (s.publish taken b).chains k = s.chains k := update_of_ne hk ..
      rw [hhead]
      exact hkeep hes
  · intro k head hhead
    by_cases hk : k = b.key
    · exact hk ▸ hchannel
    · simp only [TelIndex.publish, update_of_ne hk] at hhead
      exact h.mem_channels k head hhead

theorem Sound.noteChannel (key : ChainKey) : Sound appends (s.noteChannel key) ∧
      key.channel ∈ (s.noteChannel key).channels (key.tenant, key.node) := by
  unfold TelIndex.noteChannel
  split
  · exact ⟨h, by assumption⟩
  · rename_i hnew
    refine ⟨⟨h.below, h.linked, ?_, ?_⟩, by simp⟩
    · intro at'
      by_cases hat : at' = (key.tenant, key.node)
      · subst hat
        simp only [update_self]
        exact nodup_append_comm.mpr (nodup_cons.mpr ⟨hnew, h.nodup _⟩)
      · simpa only [update_of_ne hat] using h.nodup at'
    · intro k head hhead
      by_cases hat : (k.tenant, k.node) = (key.tenant, key.node)
      · simpa [hat] using Or.inl (hat ▸ h.mem_channels k head hhead)
      · simpa only [update_of_ne hat] using h.mem_channels k head hhead

theorem chainFor_spec (taken : Nat) (key : ChainKey) :
    Sound appends (s.chainFor taken key) ∧ (∃ head, (s.chainFor taken key).chains key = some head) ∧
      ∀ at' b, s.blocks at' = some b → (s.chainFor taken key).blocks at' = some b := by
  unfold chainFor
  cases hchain : s.chains key with
  | some head => exact ⟨h, ⟨head, hchain⟩, fun _ _ hb => hb⟩
  | none =>
    -- the channel may as well be noted first
    have hswap : (s.publish taken (.new key)).noteChannel key =
        (s.noteChannel key).publish taken (.new key) := by
      unfold TelIndex.noteChannel TelIndex.publish
      split <;> rfl
    obtain ⟨hnoted, hchannel⟩ := h.noteChannel key
    have hblocks : (s.noteChannel key).blocks = s.blocks := by
      unfold TelIndex.noteChannel
      split <;> rfl
    obtain ⟨_, hes, hperm⟩ := h.linked key
    rw [hchain] at hes
    cases hes
    simp only [hswap]
    refine ⟨hnoted.publish taken .nil hperm (fun _ _ => rfl) hchannel,
      ⟨_, update_self ..⟩, fun at' b hb => publish_keeps hnoted taken _ (hblocks ▸ hb)⟩

end

theorem entriesOf_append_self (appends : List Append) (a : Append) :
    entriesOf (appends ++ [a]) a.key = entriesOf appends a.key ++ [a.entry] := by
  simp [entriesOf]

theorem perm_entriesOf_append (h : (es ++ rest).Perm (entriesOf appends a.key)) :
    (es ++ [a.entry] ++ rest).Perm (entriesOf (appends ++ [a]) a.key) := by
  rw [entriesOf_append_self, append_assoc]
  exact (perm_append_comm_assoc ..).trans (perm_append_comm.trans (h.append_right _))

theorem entriesOf_append_of_ne (a : Append) (h : k ≠ a.key) :
    entriesOf (appends ++ [a]) k = entriesOf appends k := by
  simp [entriesOf, h.symm]

def Appended (appends : List Append) (a : Append) (s s' : TelIndex) : Prop :=
  Sound (appends ++ [a]) s' ∧ Grows a.key a.entry s.blocks s'.blocks

theorem append_head (h : Sound appends s) {p : Nat}
    (hp : s.blocks (a.key.tenant, p) = some b) (hhead : s.chains a.key = some p)
    (hkey : b'.key = b.key) (hprev : b'.prevBlockPtr = b.prevBlockPtr)
    (hentries : b'.entries = b.entries ++ [a.entry]) : Appended appends a s
      { s with blocks := update s.blocks (a.key.tenant, p) (some b') } := by
  obtain ⟨es, hes, hperm⟩ := h.linked a.key
  rw [hhead] at hes
  cases hes with
  | @cons _ b0 rest hb0 hk hlt hrest =>
  cases hp.symm.trans hb0
  have hother {at' c} (hc : s.blocks at' = some c) (hne : at' ≠ (a.key.tenant, p)) :
      update s.blocks (a.key.tenant, p) (some b') at' = some c := by
    rwa [update_of_ne hne]
  refine ⟨⟨?_, ?_, h.nodup, h.mem_channels⟩, ?_⟩
  · intro tenant q c hc
    by_cases hat : (tenant, q) = (a.key.tenant, p)
    · obtain ⟨rfl, rfl⟩ := Prod.mk.inj hat
      exact h.below _ _ b hp
    · simp only [update_of_ne hat] at hc
      exact h.below _ _ c hc
  · intro k
    by_cases hka : k = a.key
    · subst hka
      refine ⟨b'.entries ++ rest, ?_, ?_⟩
      · simp only [hhead]
        refine .cons (update_self ..) (hkey.trans hk) (hprev ▸ hlt) (hprev ▸ hrest.frame ?_)
        rintro q c ⟨q', hq', _⟩ hc hck
        have := hlt q' hq'
        exact ⟨c, hother hc (by simp only [ne_eq, Prod.mk.injEq, not_and]; omega), hck, rfl, rfl⟩
      · rw [hentries]
        exact perm_entriesOf_append hperm
    · obtain ⟨es, hes, _⟩ := h.linked k
      refine ⟨es, hes.frame fun q c _ hc hck => ⟨c, hother hc ?_, hck, rfl, rfl⟩,
        by rwa [entriesOf_append_of_ne a hka]⟩
      intro hat
      rw [hat, hp] at hc
      cases hc
      exact hka (hck.symm.trans hk)
  · intro at' c hc
    by_cases hat : at' = (a.key.tenant, p)
    · subst hat
      cases hp.symm.trans hc
      exact .inr ⟨hk, b', update_self .., hkey.trans hk, hprev, hentries⟩
    · exact .inl (hother hc hat)

theorem append_fresh (h : Sound appends s) {fresh : TelBlock}
    (hroom : fresh.HasRoom) (hkey : fresh.key = a.key)
    (hrest : Linked s.blocks entries a.key fresh.prevBlockPtr rest)
    (hperm : (fresh.entries ++ rest).Perm (entriesOf appends a.key))
    (hchannel : a.key.channel ∈ s.channels (a.key.tenant, a.key.node)) :
    ∃ s', ((fresh.append a.entry).bind fun b => some (s.publish a.taken b)) = some s' ∧
      Appended appends a s s' := by
  obtain ⟨b, happend, hbkey, hprev, hentries⟩ := append_eq_some hroom a.entry
  have hb : b.key = a.key := hbkey.trans hkey
  refine ⟨s.publish a.taken b, by rw [happend]; rfl, ?_, ?_⟩
  · refine h.publish a.taken (by rwa [hb, hprev]) ?_ ?_ (by rwa [hb])
    · rw [hb, hentries]
      exact perm_entriesOf_append hperm
    · exact fun k hk => entriesOf_append_of_ne a (hb ▸ hk)
  · exact fun at' c hc => .inl (publish_keeps h a.taken b hc)

theorem append_spec (h : Sound appends s) (a : Append) :
    ∃ s', s.append a = some s' ∧ Appended appends a s s' := by
  obtain ⟨hchained, ⟨p, hhead⟩, hkept⟩ := chainFor_spec h a.taken a.key
  have hgrows {s'} (hs' : Appended appends a (s.chainFor a.taken a.key) s') :
      Appended appends a s s' :=
    ⟨hs'.1, fun at' b hb => hs'.2 at' b (hkept at' b hb)⟩
  have hchannel := hchained.mem_channels _ _ hhead
  obtain ⟨_, hes, hperm⟩ := hchained.linked a.key
  rw [hhead] at hes
  cases hes with
  | @cons _ b rest hp hk hlt hrest =>
  unfold append
  simp only [hhead, hp, bind_eq_bind, bind_some]
  by_cases hroom : b.HasRoom
  · obtain ⟨_, happend, hkey, hprev, hentries⟩ := append_eq_some hroom a.entry
    simp only [happend]
    exact ⟨_, rfl, hgrows (append_head hchained hp hhead hkey hprev hentries)⟩
  · obtain ⟨fresh, hfresh, hfroom, hfkey, hcases⟩ := successor_spec b p
    simp only [append_eq_none hroom, hfresh, bind_some]
    have hlinked : ∃ rest', Linked (s.chainFor a.taken a.key).blocks entries a.key
        fresh.prevBlockPtr rest' ∧ fresh.entries ++ rest' = b.entries ++ rest := by
      rcases hcases with ⟨hprev, hentries⟩ | ⟨hprev, hentries⟩
      · exact ⟨rest, hprev ▸ hrest, by rw [hentries]⟩
      · exact ⟨_, by rw [hprev]; exact .cons hp hk hlt hrest, by rw [hentries]; rfl⟩
    obtain ⟨rest', hrest', heq⟩ := hlinked
    obtain ⟨s', hs', happended⟩ := append_fresh hchained hfroom (hfkey.trans hk) hrest'
      (heq ▸ hperm) hchannel
    exact ⟨s', hs', hgrows happended⟩

end TelIndex
end ArcGraph.Tel
