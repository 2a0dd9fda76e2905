import ArcGraph.Idempotency.Store
import ArcGraph.Wal.DeltaBundle

/-!
# Binding operations across the WAL

A commit stages binding operations in order; its bundle carries them sorted by
tenant, kind, name and operation, installs before releases. A replay applies the
sorted list. For one name the last operation decides, so the sort is harmless
exactly where a name that is released at all is released last: a release followed
by an install of the same name comes back as an install followed by a release.
-/

namespace ArcGraph.Idempotency
open Foundation Wal List DecodedCommitBundle IdempotencyStore
variable (e : IdempotencyBindingEntry)

def keyOf : BindingKey := ⟨e.tenant, e.kind, e.externalId⟩

def storeTarget : ReplayTarget IdempotencyStore :=
  { ReplayTarget.idle _ with
    installBinding := fun st e => st.install (keyOf e) e.internalId
    releaseBinding := fun st e => st.release (keyOf e) }

variable (l : List IdempotencyBindingEntry) (s : IdempotencyStore)

/-- Step (e) of `apply_bundle`. -/
def replayBindings : IdempotencyStore :=
  l.foldl (applyBinding storeTarget) s

/-! ## The last operation on a name decides -/

def outcome : Option IdempotencyBinding :=
  match e.op with
  | .install => some ⟨e.internalId, none⟩
  | .release => none

variable (k : BindingKey)

def onKey (l : List IdempotencyBindingEntry) : List IdempotencyBindingEntry :=
  l.filter fun e => keyOf e = k

theorem get_applyBinding (e : IdempotencyBindingEntry) (k : BindingKey) :
    (applyBinding storeTarget s e).get k = if k = keyOf e then outcome e else s.get k := by
  unfold applyBinding outcome
  cases e.op with
  | install => exact get_installWithPayloadHash s (keyOf e) k e.internalId none
  | release => exact get_release s (keyOf e) k

theorem get_replayBindings :
    (replayBindings l s).get k = ((onKey k l).getLast?.map outcome).getD (s.get k) := by
  induction l using reverseRecOn with
  | nil => rfl
  | append_singleton l e ih =>
    rw [replayBindings, foldl_append]
    show (applyBinding storeTarget (replayBindings l s) e).get k = _
    rw [get_applyBinding, ih]
    simp only [onKey, filter_append]
    by_cases hk : keyOf e = k
    · simp [hk]
    · simp [hk, Ne.symm hk]

/-- A name that is released at all is released last. -/
def ReleasesLast : Prop :=
  ∀ r ∈ l, r.op = .release → ∀ e, (onKey (keyOf r) l).getLast? = some e → e.op = .release

theorem onKey_sortBy (l : List IdempotencyBindingEntry) :
    onKey k (sortBy bindingKey l) = sortBy bindingKey (onKey k l) := filter_sortBy _ _ l

variable {s s' : IdempotencyStore} {e : IdempotencyBindingEntry} {l : List IdempotencyBindingEntry}
  {k : BindingKey}

theorem bindingKey_le_iff {e' : IdempotencyBindingEntry} (h : keyOf e = keyOf e') :
    bindingKey e ≤ bindingKey e' ↔ e.op.asByte.toNat ≤ e'.op.asByte.toNat := by
  obtain ⟨ht, hk, hx⟩ := BindingKey.mk.inj h
  simp [bindingKey, ht, hk, hx, Prod.Lex.toLex_le_toLex]

/-- In wire order a released name is released last. -/
theorem release_of_getLast?_sortBy {r : IdempotencyBindingEntry}
    (hr : r ∈ onKey k l) (hop : r.op = .release)
    (he : (sortBy bindingKey (onKey k l)).getLast? = some e) : e.op = .release := by
  obtain ⟨init, hsplit⟩ := getLast?_eq_some_iff.mp he
  have hmem : e ∈ onKey k l := (mem_sortBy bindingKey).mp (hsplit ▸ by simp)
  have hkeys : keyOf r = keyOf e := by
    rw [of_decide_eq_true (mem_filter.mp hr).2, of_decide_eq_true (mem_filter.mp hmem).2]
  have hle : bindingKey r ≤ bindingKey e := by
    have hr' : r ∈ init ++ [e] := hsplit ▸ (mem_sortBy bindingKey).mpr hr
    rcases mem_append.mp hr' with hr' | hr'
    · have hsorted := pairwise_sortBy bindingKey (onKey k l)
      rw [hsplit] at hsorted
      exact (pairwise_append.mp hsorted).2.2 r hr' e (by simp)
    · rw [mem_singleton.mp hr']
  rw [bindingKey_le_iff hkeys, hop] at hle
  cases hopE : e.op with
  | release => rfl
  | install =>
    rw [hopE] at hle
    exact absurd hle (by decide)

theorem sortBy_onKey_of_installs (h : ∀ e ∈ onKey k l, e.op = .install) :
    sortBy bindingKey (onKey k l) = onKey k l := by
  refine sortBy_eq_self _ (pairwise_of_forall_mem_list fun e he e' he' => ?_)
  have hkeys : keyOf e = keyOf e' := by
    rw [of_decide_eq_true (mem_filter.mp he).2, of_decide_eq_true (mem_filter.mp he').2]
  rw [bindingKey_le_iff hkeys, h e he, h e' he']

/-- The lookups after a replay in wire order are those after the staged order exactly
for the lists in which releases come last. -/
theorem get_wireOrder_iff (l : List IdempotencyBindingEntry) (s : IdempotencyStore) :
    (∀ k, (replayBindings (sortBy bindingKey l) s).get k = (replayBindings l s).get k) ↔
      ReleasesLast l := by
  simp only [get_replayBindings, onKey_sortBy]
  constructor
  · intro h r hr hop e he
    have hmem : r ∈ onKey (keyOf r) l := mem_filter.mpr ⟨hr, by simp⟩
    obtain ⟨e', he'⟩ : ∃ e', (sortBy bindingKey (onKey (keyOf r) l)).getLast? = some e' := by
      have hne : sortBy bindingKey (onKey (keyOf r) l) ≠ [] :=
        ne_nil_of_mem ((mem_sortBy bindingKey).mpr hmem)
      exact ⟨_, getLast?_eq_some_getLast hne⟩
    have hrelease := release_of_getLast?_sortBy hmem hop he'
    have hsame := h (keyOf r)
    rw [he, he'] at hsame
    cases hopE : e.op with
    | release => rfl
    | install => simp [outcome, hrelease, hopE] at hsame
  · intro h k
    by_cases hrelease : ∃ r ∈ onKey k l, r.op = .release
    · obtain ⟨r, hr, hop⟩ := hrelease
      obtain ⟨hmem, hk⟩ := mem_filter.mp hr
      have hk : keyOf r = k := of_decide_eq_true hk
      have hne : onKey k l ≠ [] := ne_nil_of_mem hr
      have hne' : sortBy bindingKey (onKey k l) ≠ [] :=
        ne_nil_of_mem ((mem_sortBy bindingKey).mpr hr)
      have hlast := getLast?_eq_some_getLast hne
      have hlast' := getLast?_eq_some_getLast hne'
      have hop' := h r hmem hop _ (by rw [hk]; exact hlast)
      rw [hlast, hlast']
      simp [outcome, hop', release_of_getLast?_sortBy hr hop hlast']
    · have hinstalls : ∀ e ∈ onKey k l, e.op = .install := by
        intro e he
        cases hop : e.op with
        | install => rfl
        | release => exact absurd ⟨e, he, hop⟩ hrelease
      rw [sortBy_onKey_of_installs hinstalls]

/-! ## The whole store -/

/-- No internal id goes by two names, in the store or in the list. -/
def OneName (l : List IdempotencyBindingEntry) (s : IdempotencyStore) : Prop :=
  ∀ e ∈ l, e.op = .install → s.Unused (keyOf e) e.internalId ∧
    ∀ e' ∈ l, e'.op = .install → e'.tenant = e.tenant → e'.kind = e.kind →
      e'.internalId = e.internalId → e'.externalId = e.externalId

/-- Every binding of `s'` is one of `s` or was installed by an entry of `l`. -/
def ComesFrom (l : List IdempotencyBindingEntry) (s s' : IdempotencyStore) : Prop :=
  ∀ k b, s'.get k = some b → s.get k = some b ∨
    ∃ e ∈ l, e.op = .install ∧ keyOf e = k ∧ e.internalId = b.internalId

theorem ComesFrom.unused (h : ComesFrom l s s') (hone : OneName l s) (he : e ∈ l)
    (hop : e.op = .install) : s'.Unused (keyOf e) e.internalId := by
  intro x b hx hb hid
  obtain ⟨hunused, hlist⟩ := hone e he hop
  rcases h _ _ hb with hs | ⟨e', he', hop', hkey, hid'⟩
  · exact hunused x b hx hs hid
  · obtain ⟨ht, hk, hx'⟩ := BindingKey.mk.inj hkey
    exact hx (hx' ▸ hlist e' he' hop' ht hk (hid'.trans hid))

theorem ComesFrom.apply (h : ComesFrom l s s') (he : e ∈ l) :
    ComesFrom l s (applyBinding storeTarget s' e) := by
  intro k b hb
  rw [get_applyBinding] at hb
  split at hb
  · rename_i hk
    unfold outcome at hb
    split at hb
    · rename_i hop
      cases hb
      exact .inr ⟨e, he, hop, hk.symm, rfl⟩
    · cases hb
  · exact h k b hb

/-- A replay of operations from `l`, in any order and number, keeps the store
consistent. -/
theorem consistent_replayBindings {l' : List IdempotencyBindingEntry} (hone : OneName l s)
    (hl' : ∀ e ∈ l', e ∈ l) (hs' : s'.Consistent) (hfrom : ComesFrom l s s') :
    (replayBindings l' s').Consistent := by
  induction l' generalizing s' with
  | nil => exact hs'
  | cons e _ ih =>
    have he := hl' e mem_cons_self
    refine ih (fun x hx => hl' x (mem_cons_of_mem _ hx)) ?_ (hfrom.apply he)
    unfold applyBinding
    cases hop : e.op with
    | install =>
      exact consistent_installWithPayloadHash hs' (hfrom.unused hone he hop) none
    | release => exact consistent_release hs' (keyOf e)

theorem replay_wireOrder_iff (hs : s.Consistent) (hone : OneName l s) :
    replayBindings (sortBy bindingKey l) s = replayBindings l s ↔ ReleasesLast l := by
  rw [← get_wireOrder_iff l s]
  constructor
  · intro h k
    rw [h]
  · have hfrom : ComesFrom l s s := fun k b hb => .inl hb
    have hsorted := consistent_replayBindings hone (fun e => (mem_sortBy bindingKey).mp) hs hfrom
    have hstaged := consistent_replayBindings hone (fun e he => he) hs hfrom
    exact hsorted.ext hstaged

/-! ## Through the WAL -/

/-- `d` is what a decoder reads of the bundle `b` as a commit logs it, in the current
format or in a delta format. -/
def Logged (b d : DecodedCommitBundle) : Prop :=
  (b.Encodable ∧ decodeCommitBundleForVersion (encodeCommitBundleCurrent b)
    currentWalFormatVersion b.primaryTenant = .ok d) ∨
  ∃ format bytes, b.Typed ∧ b.Coalesced ∧ bytes.length ≤ WalRecord.maxPayloadLen ∧
    encodeCommitBundleDelta format b = .ok bytes ∧
    decodeCommitBundleForVersion bytes format.version b.primaryTenant = .ok d

theorem Logged.bindings {b d : DecodedCommitBundle} (h : Logged b d) :
    d.idempotencyBindings = sortBy bindingKey b.idempotencyBindings := by
  rcases h with ⟨henc, hdecode⟩ | ⟨_, _, ht, hcoalesced, hlen, hencode, hdecode⟩
  · rw [(decode_encode_iff b).mpr henc] at hdecode
    cases hdecode
    rfl
  · obtain ⟨_, _, h⟩ := accepted_of_encode hencode
    unfold WalRecord.maxPayloadLen WalRecord.headerSize at hlen
    obtain ⟨henc, hcount⟩ :=
      encodable_listed h ht hcoalesced.foreign (by omega)
    rw [decode_delta, decodeAll, (reads_sectionsDelta h henc hcount).runAll] at hdecode
    cases hdecode
    rfl

/-- A replay of the logged operations gives the lookups of the staged ones exactly
when every name that the commit releases is released last, whatever the store; the
two stores are then equal, reverse map included, if no id goes by two names. -/
theorem logged_bindings_iff {b d : DecodedCommitBundle} (h : Logged b d) (s : IdempotencyStore) :
    ((∀ k, (replayBindings d.idempotencyBindings s).get k =
        (replayBindings b.idempotencyBindings s).get k) ↔ ReleasesLast b.idempotencyBindings) ∧
    (s.Consistent → OneName b.idempotencyBindings s →
      (replayBindings d.idempotencyBindings s = replayBindings b.idempotencyBindings s ↔
        ReleasesLast b.idempotencyBindings)) := by
  rw [h.bindings]
  exact ⟨get_wireOrder_iff _ s, replay_wireOrder_iff⟩

/-- A commit that deletes the record named `a` and creates another one under it. -/
def renewal : DecodedCommitBundle where
  commitLsn := 1
  primaryTenant := 7
  mvccWrites := .empty
  idempotencyBindings := [⟨.release, 7, 0, 4, "a"⟩, ⟨.install, 7, 0, 5, "a"⟩]

def turnover : DecodedCommitBundle :=
  { renewal with idempotencyBindings := [⟨.release, 7, 0, 4, "b"⟩, ⟨.install, 7, 0, 5, "a"⟩] }

theorem logged_bindings_iff_turnover :
    (∀ k, (replayBindings turnover.reencoded.idempotencyBindings .new).get k =
        (replayBindings turnover.idempotencyBindings .new).get k) ↔
      ReleasesLast turnover.idempotencyBindings := by
  have htyped : turnover.Typed := ⟨by decide, by simp [turnover, renewal]⟩
  have henc : turnover.Encodable := encodable_of_length htyped
    (by simp [turnover, renewal]) (by decide +kernel)
  have hlogged : Logged turnover turnover.reencoded :=
    .inl ⟨henc, (decode_encode_iff turnover).mpr henc⟩
  exact (logged_bindings_iff hlogged .new).1

/-- The name comes back free, though the commit bound it. -/
theorem logged_install_lost :
    (decodeCommitBundleForVersion (encodeCommitBundleCurrent renewal) 8 7).map
        (fun d => (replayBindings d.idempotencyBindings .new).get ⟨7, 0, "a"⟩) = .ok none ∧
      (replayBindings renewal.idempotencyBindings .new).get ⟨7, 0, "a"⟩ = some ⟨5, none⟩ := by
  decide +kernel

end ArcGraph.Idempotency
