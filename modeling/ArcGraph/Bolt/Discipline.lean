import ArcGraph.Bolt.Server

/-!
# What a Bolt session can do

Whatever frames a connection receives and whatever the handler answers, every call stands
where the protocol allows it (`Allowed`), and every transaction is finished once
(`session_discipline`).

The four slots of the loop are tied to the trace by `Sound`: the identity is that of the one
successful authentication, the held transaction is the one that is open, and the rows still
in the stream are what the latest successful RUN has left after the rows sent or dropped.
`Placed` ties the state of the protocol to the slots.
-/

namespace ArcGraph.Bolt
open List Option Conn ConnState Nat
variable {P R : Type} {txn : Txn} {c' : Conn P R}
  {credentials db mode principal scheme : Option String} (trace : List (Event P R))

/-! ## Reading a trace -/

def signedIn : List SessionAuth :=
  trace.filterMap fun
    | .authenticate _ _ _ result => result
    | _ => none

def Event.track (opened : List Txn) : Event P R → List Txn
  | .beginTxn _ _ _ (some txn) => opened ++ [txn]
  | .commitTxn txn => opened.erase txn
  | .rollbackTxn txn => opened.erase txn
  | .dropTxn txn => opened.erase txn
  | _ => opened

def openTxns : List Txn := trace.foldl Event.track []

/-- The records of the latest successful RUN, and those of them that have left the stream. -/
def Event.flow (s : Option (List R) × List R) : Event P R → Option (List R) × List R
  | .ran records => (some records, [])
  | .sent row => (s.1, s.2 ++ [row])
  | .discarded row => (s.1, s.2 ++ [row])
  | _ => s

def streamed : Option (List R) × List R :=
  trace.foldl Event.flow (none, [])

/-- Every message received since the transaction was opened was processed successfully. -/
def CleanSince (txn : Txn) : Prop :=
  ∃ before tenant mode db since, trace = before ++ .beginTxn tenant mode db (some txn) :: since ∧
    .handled false ∉ since

/-- The next row that leaves the stream is the next record of the latest successful RUN. -/
def NextRow (row : R) : Prop :=
  ∃ records, (streamed trace).1 = some records ∧ (streamed trace).2 ++ [row] <+: records

/-- The event may follow the trace. -/
def Allowed : Event P R → Prop
  | .authenticate .. => signedIn trace = []
  | .run auth _ _ => signedIn trace = [auth] ∧ openTxns trace = []
  | .runInTxn auth _ _ txn => signedIn trace = [auth] ∧ openTxns trace = [txn]
  | .beginTxn tenant _ _ _ =>
    (∃ auth, signedIn trace = [auth] ∧ auth.tenant = tenant) ∧ openTxns trace = []
  | .commitTxn txn => openTxns trace = [txn] ∧ CleanSince trace txn
  | .rollbackTxn txn => openTxns trace = [txn]
  | .dropTxn txn => openTxns trace = [txn]
  | .sent row => NextRow trace row
  | .discarded row => NextRow trace row
  | _ => True

def Disciplined : Prop :=
  ∀ before e after, trace = before ++ e :: after → Allowed before e

def opens (txn : Txn) : Event P R → Bool
  | .beginTxn _ _ _ result => result == some txn
  | _ => false

def finishes (txn : Txn) : Event P R → Bool
  | .commitTxn t => t == txn
  | .rollbackTxn t => t == txn
  | .dropTxn t => t == txn
  | _ => false

section
variable (trace : List (Event P R)) (e : Event P R)

theorem openTxns_concat : openTxns (trace ++ [e]) = e.track (openTxns trace) := by
  simp [openTxns]

theorem streamed_concat : streamed (trace ++ [e]) = e.flow (streamed trace) := by
  simp [streamed]

variable {trace e}

theorem Disciplined.concat (h : Disciplined trace) (he : Allowed trace e) :
    Disciplined (trace ++ [e]) := by
  intro before e' after heq
  rcases eq_nil_or_concat after with rfl | ⟨after, x, rfl⟩
  · obtain ⟨rfl, hlast⟩ := append_inj' heq rfl
    rw [← (cons.inj hlast).1]
    exact he
  · rw [concat_eq_append, ← cons_append, ← append_assoc] at heq
    exact h before e' after (append_inj' heq rfl).1

theorem CleanSince.append {es : List (Event P R)} (h : CleanSince trace txn)
    (hes : .handled false ∉ es) : CleanSince (trace ++ es) txn := by
  obtain ⟨before, tenant, mode, db, since, rfl, hclean⟩ := h
  refine ⟨before, tenant, mode, db, since ++ es, by simp, fun hmem => ?_⟩
  rcases mem_append.mp hmem with hmem | hmem
  · exact hclean hmem
  · exact hes hmem

theorem CleanSince.concat (h : CleanSince trace txn) (he : e ≠ .handled false) :
    CleanSince (trace ++ [e]) txn :=
  h.append fun hmem => he (mem_singleton.mp hmem).symm

end

/-! ## The slots and the trace -/

/-- What ties the slots to the trace; `pending` are the rows taken from the stream that are
not written yet. -/
structure Sound (pending : List R) (c : Conn P R) : Prop where
  disciplined : Disciplined c.trace
  identity : signedIn c.trace = c.sessionAuth.toList
  txns : openTxns c.trace = c.heldTxn.toList
  stream : ∀ s ∈ c.activeStream, ∃ records, (streamed c.trace).1 = some records ∧
    records = (streamed c.trace).2 ++ (pending ++ s.records)
  pending : pending ≠ [] → c.activeStream.isSome = true
  fresh : ∀ txn, c.nextTxn ≤ txn → c.trace.countP (opens txn) = 0
  once : ∀ txn, c.trace.countP (opens txn) ≤ 1
  balance : ∀ txn, c.trace.countP (opens txn) =
    c.trace.countP (finishes txn) + c.heldTxn.toList.count txn
  ended : c.closed = true → c.heldTxn = none

namespace Sound
variable {c : Conn P R} {pending : List R}

/-- An event that opens, finishes, authenticates and streams nothing. -/
structure Plain (e : Event P R) : Prop where
  identity : ∀ trace : List (Event P R), signedIn (trace ++ [e]) = signedIn trace
  track : ∀ opened, e.track opened = opened
  flow : ∀ s, e.flow s = s
  opens : ∀ txn, Bolt.opens txn e = false
  finishes : ∀ txn, Bolt.finishes txn e = false

def isPlain : Event P R → Bool
  | .authenticate _ _ _ none | .run .. | .runInTxn .. | .beginTxn _ _ _ none => true
  | .cancel _ | .handled _ => true
  | _ => false

variable {e : Event P R} {auth : SessionAuth} {row : R} {s : RunOutcome R} {rest : List R}

theorem emit_idle {pending' : List R} {auth : Option SessionAuth} {stream : Option (RunOutcome R)}
    (h : Sound pending c) (he : Allowed c.trace e) (htrack : ∀ opened, e.track opened = opened)
    (hopens : ∀ txn, opens txn e = false) (hfinishes : ∀ txn, finishes txn e = false)
    (hidentity : signedIn (c.trace ++ [e]) = auth.toList)
    (hstream : ∀ s ∈ stream, ∃ records, (e.flow (streamed c.trace)).1 = some records ∧
      records = (e.flow (streamed c.trace)).2 ++ (pending' ++ s.records))
    (hpending : pending' ≠ [] → stream.isSome = true) :
    Sound pending' { c.emit e with sessionAuth := auth, activeStream := stream } where
  disciplined := h.disciplined.concat he
  identity := hidentity
  txns := by
    show openTxns (c.trace ++ [e]) = c.heldTxn.toList
    rw [openTxns_concat, htrack, h.txns]
  stream := by
    show ∀ s ∈ stream, ∃ records, (streamed (c.trace ++ [e])).1 = some records ∧
      records = (streamed (c.trace ++ [e])).2 ++ (pending' ++ s.records)
    rw [streamed_concat]
    exact hstream
  pending := hpending
  fresh txn htxn := by
    show (c.trace ++ [e]).countP (opens txn) = 0
    rw [countP_append, h.fresh txn htxn, countP_singleton, hopens]
    rfl
  once txn := by
    show (c.trace ++ [e]).countP (opens txn) ≤ 1
    rw [countP_append, countP_singleton, hopens]
    exact h.once txn
  balance txn := by
    show (c.trace ++ [e]).countP (opens txn) =
      (c.trace ++ [e]).countP (finishes txn) + c.heldTxn.toList.count txn
    rw [countP_append, countP_append, countP_singleton, countP_singleton, hopens, hfinishes]
    exact h.balance txn
  ended := h.ended

theorem plain_of_isPlain (h : isPlain e = true) : Plain e := by
  unfold isPlain at h
  split at h
  all_goals first
    | exact ⟨fun _ => by simp [signedIn], fun _ => rfl, fun _ => rfl, fun _ => rfl, fun _ => rfl⟩
    | cases h

section
variable (h : Sound pending c)
include h

theorem signed {auth : Option SessionAuth} (hauth : c.sessionAuth = auth) :
    signedIn c.trace = auth.toList :=
  hauth ▸ h.identity

theorem held {txn : Option Nat} (hheld : c.heldTxn = txn) : openTxns c.trace = txn.toList :=
  hheld ▸ h.txns

theorem emit_plain (hevent : isPlain e = true) (he : Allowed c.trace e) :
    Sound pending (c.emit e) := by
  have hplain := plain_of_isPlain hevent
  refine h.emit_idle he hplain.track hplain.opens hplain.finishes
    ((hplain.identity c.trace).trans h.identity) ?_ h.pending
  rw [hplain.flow]
  exact h.stream

theorem of_slots (htrace : c'.trace = c.trace)
    (hauth : c'.sessionAuth = c.sessionAuth) (hheld : c'.heldTxn = c.heldTxn)
    (hstream : c'.activeStream = c.activeStream) (hnext : c'.nextTxn = c.nextTxn)
    (hover : c'.closed = c.closed) : Sound pending c' where
  disciplined := htrace ▸ h.disciplined
  identity := by rw [htrace, hauth, h.identity]
  txns := by rw [htrace, hheld, h.txns]
  stream := by
    rw [htrace, hstream]
    exact h.stream
  pending := by
    rw [hstream]
    exact h.pending
  fresh := by
    rw [htrace, hnext]
    exact h.fresh
  once := htrace ▸ h.once
  balance := by
    rw [htrace, hheld]
    exact h.balance
  ended := by
    rw [hover, hheld]
    exact h.ended

theorem dropStream : Sound [] { c with activeStream := none } where
  disciplined := h.disciplined
  identity := h.identity
  txns := h.txns
  stream _ hs := nomatch hs
  pending hne := absurd rfl hne
  fresh := h.fresh
  once := h.once
  balance := h.balance
  ended := h.ended

theorem signIn (hnone : c.sessionAuth = none) :
    Sound pending { c.emit (.authenticate scheme principal credentials (some auth)) with
      sessionAuth := some auth } := by
  have hsigned : signedIn c.trace = [] := h.signed hnone
  refine h.emit_idle hsigned (fun _ => rfl) (fun _ => rfl) (fun _ => rfl) ?_ h.stream h.pending
  unfold signedIn at hsigned ⊢
  rw [filterMap_append, hsigned]
  rfl

end

theorem ran {outcome : RunOutcome R} (h : Sound [] c) :
    Sound [] { c.emit (.ran outcome.records) with activeStream := some outcome } := by
  refine h.emit_idle trivial (fun _ => rfl) (fun _ => rfl) (fun _ => rfl)
    (by simpa [emit, signedIn] using h.identity) ?_ fun hne => absurd rfl hne
  intro s hs
  cases hs
  exact ⟨outcome.records, rfl, rfl⟩

theorem openTxn {tenant : Nat} (h : Sound pending c)
    (hauth : c.sessionAuth = some auth) (htenant : auth.tenant = tenant)
    (hheld : c.heldTxn = none) (hover : c.closed = false) :
    Sound pending { c.emit (.beginTxn tenant mode db (some c.nextTxn)) with
      heldTxn := some c.nextTxn
      nextTxn := c.nextTxn + 1 } := by
  have hopen : openTxns c.trace = [] := h.held hheld
  refine ⟨h.disciplined.concat ⟨⟨auth, h.signed hauth, htenant⟩, hopen⟩, ?_, ?_, ?_, h.pending, ?_, ?_,
    ?_, ?_⟩
  · simpa [emit, signedIn] using h.identity
  · show openTxns (c.trace ++ [_]) = [c.nextTxn]
    rw [openTxns_concat, hopen]
    rfl
  · intro s hs
    show ∃ records, (streamed (c.trace ++ [_])).1 = some records ∧
      records = (streamed (c.trace ++ [_])).2 ++ (pending ++ s.records)
    rw [streamed_concat]
    exact h.stream s hs
  · intro txn htxn
    have hlt : c.nextTxn < txn := htxn
    simpa [emit, opens, Nat.ne_of_lt hlt] using h.fresh txn (Nat.le_of_lt hlt)
  · intro txn
    by_cases heq : c.nextTxn = txn
    · subst heq
      simp [emit, opens, h.fresh c.nextTxn (Nat.le_refl _)]
    · simpa [emit, opens, heq] using h.once txn
  · intro txn
    have hbalance := h.balance txn
    rw [hheld] at hbalance
    by_cases heq : c.nextTxn = txn
    · subst heq
      simpa [emit, opens, finishes] using hbalance
    · simpa [emit, opens, finishes, heq] using hbalance
  · intro hend
    exact absurd hend (by simp [emit, hover])

/-- An event that finishes the transaction and does nothing else. -/
structure Finish (txn : Txn) (e : Event P R) : Prop where
  identity : ∀ trace : List (Event P R), signedIn (trace ++ [e]) = signedIn trace
  track : ∀ opened, e.track opened = opened.erase txn
  flow : ∀ s, e.flow s = s
  opens : ∀ txn, Bolt.opens txn e = false
  finishes : ∀ txn', Bolt.finishes txn' e = (txn == txn')

theorem finish_of_mem (h : e ∈ [.commitTxn txn, .rollbackTxn txn, .dropTxn txn]) :
    Finish txn e := by
  simp only [mem_cons, not_mem_nil, or_false] at h
  rcases h with rfl | rfl | rfl <;>
    exact ⟨fun _ => by simp [signedIn], fun _ => rfl, fun _ => rfl, fun _ => rfl, fun _ => rfl⟩

theorem finishTxn (h : Sound pending c)
    (hevent : e ∈ [.commitTxn txn, .rollbackTxn txn, .dropTxn txn])
    (hheld : c.heldTxn = some txn) (he : Allowed c.trace e) :
    Sound pending { c.emit e with heldTxn := none } where
  disciplined := h.disciplined.concat he
  identity := ((finish_of_mem hevent).identity c.trace).trans h.identity
  txns := by
    show openTxns (c.trace ++ [e]) = []
    rw [openTxns_concat, (finish_of_mem hevent).track, h.txns, hheld]
    simp
  stream := by
    show ∀ s ∈ c.activeStream, ∃ records, (streamed (c.trace ++ [e])).1 = some records ∧
      records = (streamed (c.trace ++ [e])).2 ++ (pending ++ s.records)
    rw [streamed_concat, (finish_of_mem hevent).flow]
    exact h.stream
  pending := h.pending
  fresh t ht := by
    show (c.trace ++ [e]).countP (opens t) = 0
    rw [countP_append, h.fresh t ht, countP_singleton, (finish_of_mem hevent).opens]
    rfl
  once t := by
    show (c.trace ++ [e]).countP (opens t) ≤ 1
    rw [countP_append, countP_singleton, (finish_of_mem hevent).opens]
    exact h.once t
  balance t := by
    show (c.trace ++ [e]).countP (opens t) = (c.trace ++ [e]).countP (finishes t) + 0
    have hbalance := h.balance t
    rw [hheld, toList_some, count_singleton] at hbalance
    rw [countP_append, countP_append, countP_singleton, countP_singleton,
      (finish_of_mem hevent).opens, (finish_of_mem hevent).finishes]
    simpa using hbalance
  ended _ := rfl

theorem sendRow (h : Sound (row :: pending) c) : Sound pending (c.emit (.sent row)) := by
  obtain ⟨s, hs⟩ := isSome_iff_exists.mp (h.pending (cons_ne_nil row pending))
  obtain ⟨records, hlatest, hrecords⟩ := h.stream s hs
  have hnext : NextRow c.trace row :=
    ⟨records, hlatest, pending ++ s.records, by rw [hrecords]; simp⟩
  refine h.emit_idle hnext (fun _ => rfl) (fun _ => rfl) (fun _ => rfl)
    (by simpa [signedIn] using h.identity) ?_ fun _ => h.pending (cons_ne_nil row pending)
  intro s' hs'
  obtain ⟨records', hlatest', hrecords'⟩ := h.stream s' hs'
  exact ⟨records', hlatest', by rw [hrecords']; simp [Event.flow]⟩

theorem sendRows {rows : List R} (h : Sound (rows ++ pending) c) :
    Sound pending { c with trace := c.trace ++ rows.map .sent } := by
  induction rows generalizing c with
  | nil => exact h.of_slots (by simp) rfl rfl rfl rfl rfl
  | cons _ _ ih =>
    have hrest := ih (h.sendRow)
    exact hrest.of_slots (by simp [emit]) rfl rfl rfl rfl rfl

theorem discardRow (h : Sound [] c) (hs : c.activeStream = some s)
    (hrow : s.records = row :: rest) :
    Sound [] { c.emit (.discarded row) with activeStream := some { s with records := rest } } := by
  obtain ⟨records, hlatest, hrecords⟩ := h.stream s hs
  rw [hrow] at hrecords
  have hnext : NextRow c.trace row := ⟨records, hlatest, rest, by rw [hrecords]; simp⟩
  refine h.emit_idle hnext (fun _ => rfl) (fun _ => rfl) (fun _ => rfl)
    (by simpa [emit, signedIn] using h.identity) ?_ fun hne => absurd rfl hne
  intro s' hs'
  cases hs'
  exact ⟨records, hlatest, by rw [hrecords]; simp [Event.flow]⟩

theorem discardRows {dropped : List R} (h : Sound [] c) (hs : c.activeStream = some s)
    (hrows : s.records = dropped ++ rest) :
    Sound [] { c with
      activeStream := some { s with records := rest }
      trace := c.trace ++ dropped.map .discarded } := by
  induction dropped generalizing c s with
  | nil =>
    have hsame : { s with records := rest } = s := by
      rw [nil_append] at hrows
      rw [← hrows]
    exact h.of_slots (by simp) rfl rfl (by rw [hs, hsame]) rfl rfl
  | cons _ _ ih =>
    have hrest := ih (h.discardRow hs hrows) rfl rfl
    exact hrest.of_slots (by simp [emit]) rfl rfl rfl rfl rfl

end Sound

/-! ## One message -/

/-- What the state of the protocol says about the slots. -/
structure Placed (state : ConnState) (c : Conn P R) : Prop where
  initial : state = .initial → c.sessionAuth = none
  idle : state = .initial ∨ state = .ready ∨ state = .streaming → c.heldTxn = none
  tx : state = .txReady ∨ state = .txStreaming →
    ∃ txn, c.heldTxn = some txn ∧ CleanSince c.trace txn

variable {c : Conn P R} {state : ConnState} {txn : Txn}

theorem placed_over (hstate : state = .failed ∨ state = .closed) : Placed state c := by
  rcases hstate with rfl | rfl <;> exact ⟨by simp, by simp, by simp⟩

theorem placed_idle (hstate : state = .ready ∨ state = .streaming) (h : c.heldTxn = none) :
    Placed state c := by
  rcases hstate with rfl | rfl <;> exact ⟨by simp, fun _ => h, by simp⟩

theorem placed_tx (hstate : state = .txReady ∨ state = .txStreaming) (h : c.heldTxn = some txn)
    (hclean : CleanSince c.trace txn) : Placed state c := by
  rcases hstate with rfl | rfl <;> exact ⟨by simp, by simp, fun _ => ⟨txn, h, hclean⟩⟩

/-- A message was processed: the slots are sound with the rows of the replies to be written,
and the state machine will be in place. -/
structure Processed (state : ConnState) (msg : ClientMessage P)
    (r : List (ServerMessage R) × HandlerOutcome × Conn P R) : Prop where
  sound : Sound (Conn.rows r.1) r.2.2
  placed : Placed (state.commitResult msg r.2.1) r.2.2
  state : r.2.2.state = state
  running : r.2.2.closed = false

section
variable {c : Conn P R} {answers : Answers R}

variable {msg : ClientMessage P}

theorem processed_failWith {e : BoltError} (h : Sound [] c)
    (hstate : c.state = state) (hover : c.closed = false)
    (hfail : state.commitResult msg .failure = .failed) : Processed state msg (c.failWith e) where
  sound := h
  placed := by
    show Placed (state.commitResult msg .failure) c
    rw [hfail]
    exact placed_over (.inl rfl)
  state := hstate
  running := hover

theorem processed_hello (h : Sound [] c)
    (hstate : c.state = .initial) (hplaced : Placed c.state c) (hover : c.closed = false) :
    Processed .initial (.hello scheme principal credentials)
      (c.hello answers scheme principal credentials) := by
  have hnone := hplaced.initial hstate
  unfold hello
  cases answers.authenticate with
  | ok =>
    exact ⟨h.signIn hnone, placed_idle (.inl rfl) (hplaced.idle (.inl hstate)), hstate, hover⟩
  | error =>
    exact processed_failWith (h.emit_plain rfl (h.signed hnone)) hstate hover rfl

theorem rollbackHeld_sound (h : Sound [] c) :
    Sound [] c.rollbackHeld ∧ c.rollbackHeld.heldTxn = none := by
  unfold rollbackHeld
  cases hheld : c.heldTxn with
  | none => exact ⟨h, hheld⟩
  | some txn =>
    exact ⟨h.finishTxn (e := .rollbackTxn txn) (by simp) hheld (h.held hheld), rfl⟩

theorem rollbackHeld_frame (c : Conn P R) :
    c.rollbackHeld.state = c.state ∧ c.rollbackHeld.closed = c.closed := by
  unfold rollbackHeld
  cases c.heldTxn <;> exact ⟨rfl, rfl⟩

theorem cancel_sound (h : Sound [] c) :
    Sound [] c.cancel ∧ c.cancel.state = c.state ∧ c.cancel.closed = c.closed := by
  unfold cancel
  cases c.sessionAuth with
  | none => exact ⟨h, rfl, rfl⟩
  | some =>
    exact ⟨h.emit_plain rfl trivial, rfl, rfl⟩

theorem processed_reset (h : Sound [] c) (hover : c.closed = false) :
    Processed c.state .reset c.reset := by
  obtain ⟨hcancel, hstate, hopen⟩ := cancel_sound h
  obtain ⟨hsound, hnone⟩ := rollbackHeld_sound hcancel.dropStream
  obtain ⟨hstate', hopen'⟩ := rollbackHeld_frame { c.cancel with activeStream := none }
  exact ⟨hsound, placed_idle (.inl rfl) hnone, hstate'.trans hstate,
    (hopen'.trans hopen).trans hover⟩

theorem rows_map_record (rows : List R) (hasMore : Bool) :
    Conn.rows (rows.map ServerMessage.record ++ [.pullSuccess hasMore]) = rows := by
  induction rows with
  | nil => rfl
  | cons row rows ih =>
    show row :: Conn.rows (rows.map .record ++ [.pullSuccess hasMore]) = row :: rows
    rw [ih]

theorem placed_drained {rest : List R}
    (hmsg : (∃ n, msg = .pull n) ∨ ∃ n, msg = .discard n) (hplaced : Placed c.state c)
    (hAdmitted : c.state = .streaming ∨ c.state = .txStreaming) (hheld : c'.heldTxn = c.heldTxn)
    (hclean : ∀ txn, CleanSince c.trace txn → CleanSince c'.trace txn) :
    Placed (c.state.commitResult msg (drainOutcome rest)) c' := by
  unfold drainOutcome
  rcases hAdmitted with hstate | hstate
  · have hnone : c'.heldTxn = none := hheld.trans (hplaced.idle (.inr (.inr hstate)))
    rw [hstate]
    rcases hmsg with ⟨n, rfl⟩ | ⟨n, rfl⟩ <;> split <;>
      exact placed_idle (by simp [commitResult, advance]) hnone
  · obtain ⟨txn, htxn, hc⟩ := hplaced.tx (.inr hstate)
    have hsome : c'.heldTxn = some txn := hheld.trans htxn
    rw [hstate]
    rcases hmsg with ⟨n, rfl⟩ | ⟨n, rfl⟩ <;> split <;>
      exact placed_tx (by simp [commitResult, advance]) hsome (hclean txn hc)

variable (h : Sound [] c) (hplaced : Placed c.state c) (hover : c.closed = false) {n : Int}
include h hplaced hover

theorem processed_run {query : String} {parameters : P}
    (hAdmitted : c.state = .ready ∨ c.state = .txReady) :
    Processed c.state (.run query parameters) (c.run answers query parameters) := by
  have hfail : c.state.commitResult (.run query parameters) .failure = .failed := rfl
  unfold run
  cases hauth : c.sessionAuth with
  | none => exact processed_failWith h rfl hover hfail
  | some auth =>
    cases hheld : c.heldTxn with
    | none =>
      have hcall := h.emit_plain (e := .run auth query parameters) rfl
        ⟨h.signed hauth, h.held hheld⟩
      dsimp only
      cases answers.run.getD
          (.error (.internal "auto-commit RUN dispatch task panicked")) with
      | error => exact processed_failWith hcall rfl hover hfail
      | ok =>
        -- without a transaction the state is `ready`
        have hready : c.state = .ready := by
          refine hAdmitted.resolve_right fun htx => ?_
          obtain ⟨txn, htxn, -⟩ := hplaced.tx (.inl htx)
          exact absurd (hheld.symm.trans htxn) (by simp)
        refine ⟨hcall.ran, ?_, rfl, hover⟩
        rw [hready]
        exact placed_idle (.inr rfl) hheld
    | some txn =>
      have hcall := h.emit_plain (e := .runInTxn auth query parameters txn) rfl
        ⟨h.signed hauth, h.held hheld⟩
      have htx : c.state = .txReady := by
        refine hAdmitted.resolve_left fun hready => ?_
        exact absurd (hheld.symm.trans (hplaced.idle (.inr (.inl hready)))) (by simp)
      obtain ⟨txn', htxn, hclean⟩ := hplaced.tx (.inl htx)
      obtain rfl : txn = txn' := some.inj (hheld.symm.trans htxn)
      dsimp only
      cases answers.runInTxn with
      | none =>
        have hstill : openTxns (c.emit (.runInTxn auth query parameters txn)).trace =
            [txn] := by
          rw [hcall.txns]
          exact congrArg toList hheld
        exact processed_failWith (hcall.finishTxn (e := .dropTxn txn) (by simp) hheld hstill) rfl
          hover hfail
      | some result =>
        cases result with
        | error => exact processed_failWith hcall rfl hover hfail
        | ok =>
          refine ⟨hcall.ran, ?_, rfl, hover⟩
          rw [htx]
          exact placed_tx (.inr rfl) hheld
            ((hclean.concat (by simp)).concat (by simp))

section
variable (hAdmitted : c.state = .streaming ∨ c.state = .txStreaming)
include hAdmitted

theorem processed_pull : Processed c.state (.pull n) (c.pull n) := by
  unfold pull
  cases hs : c.activeStream with
  | none => exact processed_failWith h rfl hover rfl
  | some s =>
    refine ⟨?_, placed_drained (.inl ⟨n, rfl⟩) hplaced hAdmitted rfl fun _ hc => hc, rfl, hover⟩
    dsimp only
    rw [rows_map_record]
    obtain ⟨records, hlatest, hrecords⟩ := h.stream s hs
    refine ⟨h.disciplined, h.identity, h.txns, ?_, fun _ => rfl, h.fresh, h.once, h.balance,
      h.ended⟩
    intro s' hs'
    cases hs'
    exact ⟨records, hlatest, by rw [hrecords, take_append_drop, nil_append]⟩

theorem processed_discard : Processed c.state (.discard n) (c.discard n) := by
  unfold Conn.discard
  cases hs : c.activeStream with
  | none => exact processed_failWith h rfl hover rfl
  | some =>
    refine ⟨h.discardRows hs (take_append_drop ..).symm, ?_, rfl, hover⟩
    refine placed_drained (.inr ⟨n, rfl⟩) hplaced hAdmitted rfl fun txn hc => ?_
    apply hc.append
    intro hmem
    obtain ⟨_, -, heq⟩ := mem_map.mp hmem
    exact nomatch heq

end

theorem processed_begin (hAdmitted : c.state = .ready) :
    Processed c.state (.begin mode db) (c.begin answers mode db) := by
  have hheld := hplaced.idle (.inr (.inl hAdmitted))
  unfold begin
  cases hauth : c.sessionAuth with
  | none => exact processed_failWith h rfl hover rfl
  | some auth =>
    dsimp only
    cases answers.beginTxn with
    | error =>
      refine processed_failWith (h.emit_plain rfl ⟨⟨auth, ?_, rfl⟩, h.held hheld⟩) rfl hover rfl
      exact h.signed hauth
    | ok =>
      refine ⟨h.openTxn hauth rfl hheld hover, ?_, rfl, hover⟩
      rw [hAdmitted]
      exact placed_tx (.inl rfl) rfl ⟨c.trace, auth.tenant, mode, db, [], rfl, not_mem_nil⟩

theorem processed_commit
    (hAdmitted : c.state = .txReady) : Processed c.state .commit (c.commit answers) := by
  obtain ⟨txn, hheld, hclean⟩ := hplaced.tx (.inl hAdmitted)
  have hdone := h.finishTxn (e := .commitTxn txn) (by simp) hheld ⟨h.held hheld, hclean⟩
  unfold commit
  rw [hheld]
  dsimp only
  cases answers.commitTxn.getD (.error (.internal "COMMIT dispatch task panicked")) with
  | error => exact processed_failWith hdone rfl hover rfl
  | ok =>
    refine ⟨hdone.dropStream, ?_, rfl, hover⟩
    rw [hAdmitted]
    exact placed_idle (.inl rfl) rfl

theorem processed_rollback (hAdmitted : c.state = .txReady) :
    Processed c.state .rollback c.rollback := by
  obtain ⟨_, hheld, -⟩ := hplaced.tx (.inl hAdmitted)
  obtain ⟨hsound, hnone⟩ := rollbackHeld_sound h
  obtain ⟨hstate, hopen⟩ := rollbackHeld_frame c
  unfold rollback
  rw [hheld]
  refine ⟨hsound.dropStream, ?_, hstate, hopen.trans hover⟩
  rw [hAdmitted]
  exact placed_idle (.inl rfl) hnone

theorem processed_message
    (hAdmitted : c.state.admit msg = .process ∨ c.state.admit msg = .processThenClose) :
    Processed c.state msg (c.processMessage answers msg) := by
  cases msg with
  | hello =>
    have hinitial : c.state = .initial := by
      revert hAdmitted
      cases c.state <;> simp [ ConnState.admit]
    rw [hinitial]
    exact processed_hello h hinitial hplaced hover
  | goodbye => exact ⟨h, placed_over (.inr rfl), rfl, hover⟩
  | reset => exact processed_reset h hover
  | run =>
    refine processed_run h hplaced hover ?_
    revert hAdmitted
    cases c.state <;> simp [ ConnState.admit]
  | pull =>
    refine processed_pull h hplaced hover ?_
    revert hAdmitted
    cases c.state <;> simp [ ConnState.admit]
  | discard =>
    refine processed_discard h hplaced hover ?_
    revert hAdmitted
    cases c.state <;> simp [ ConnState.admit]
  | begin =>
    refine processed_begin h hplaced hover ?_
    revert hAdmitted
    cases c.state <;> simp [ ConnState.admit]
  | commit =>
    refine processed_commit h hplaced hover ?_
    revert hAdmitted
    cases c.state <;> simp [ ConnState.admit]
  | rollback =>
    refine processed_rollback h hplaced hover ?_
    revert hAdmitted
    cases c.state <;> simp [ ConnState.admit]

end

/-! ## One round of the loop -/

/-- What holds between the rounds. -/
structure Settled (c : Conn P R) : Prop where
  sound : Sound [] c
  placed : c.closed = false → Placed c.state c

section
variable {c : Conn P R} {pending : List R}

theorem close_sound (h : Sound pending c) : Sound [] c.close := by
  have hstream := h.dropStream
  unfold close
  cases hheld : c.heldTxn with
  | none =>
    exact ⟨by simpa using h.disciplined, by simpa using h.identity, by simpa [hheld] using h.txns,
      fun _ hs => (nomatch hs), fun hne => absurd rfl hne, by simpa using h.fresh,
      by simpa using h.once, by simpa [hheld] using h.balance, fun _ => rfl⟩
  | some txn =>
    have hdone := hstream.finishTxn (e := .dropTxn txn) (by simp) hheld (h.held hheld)
    exact ⟨hdone.disciplined, hdone.identity, hdone.txns, hdone.stream, hdone.pending,
      hdone.fresh, hdone.once, hdone.balance, fun _ => rfl⟩

theorem close_settled (h : Sound pending c) : Settled c.close where
  sound := close_sound h
  placed hover := nomatch hover

variable {replies : List (ServerMessage R)} {msg : ClientMessage P}

variable {failsAt : Option Nat} {result : HandlerOutcome}

/-- Whatever part of the replies is written, its rows are the next ones. -/
theorem write_sound (h : Sound (rows replies) c) :
    Sound (rows (replies.drop (failsAt.getD replies.length))) (c.write replies failsAt) := by
  have hsplit : rows (replies.take (failsAt.getD replies.length)) ++
      rows (replies.drop (failsAt.getD replies.length)) = rows replies := by
    unfold rows
    rw [← filterMap_append, take_append_drop]
  rw [← hsplit] at h
  exact h.sendRows

theorem write_all_sound (h : Sound (rows replies) c) (hwhole : broken replies failsAt = false) :
    Sound [] (c.write replies failsAt) := by
  have hwritten : Sound (rows (replies.drop (failsAt.getD replies.length)))
      (c.write replies failsAt) := write_sound h
  have hall : replies.length ≤ failsAt.getD replies.length := by
    cases failsAt with
    | none => exact Nat.le_refl _
    | some => simpa [broken] using hwhole
  rwa [drop_eq_nil_of_le hall] at hwritten

theorem cleanSince_write (h : CleanSince c.trace txn) :
    CleanSince (c.write replies failsAt).trace txn := by
  apply h.append
  intro hmem
  obtain ⟨_, -, heq⟩ := mem_map.mp hmem
  exact nomatch heq

theorem handled_sound {ok : Bool} (h : Sound [] c) : Sound [] (c.emit (.handled ok)) := by
  exact h.emit_plain rfl trivial

theorem answer_settled {reply : ServerMessage R} (h : Sound [] c) (hrow : rows [reply] = []) :
    Settled (c.answer reply .failed failsAt) := by
  rw [← hrow] at h
  unfold answer
  split
  · exact close_settled (write_sound h)
  · rename_i hwhole
    have hwritten := write_all_sound h (by simpa using hwhole)
    exact ⟨handled_sound (hwritten.of_slots rfl rfl rfl rfl rfl rfl),
      fun _ => placed_over (.inl rfl)⟩

theorem tally_slots (c : Conn P R) (msg : ClientMessage P) (result : HandlerOutcome) :
    (c.tally msg result).trace = c.trace ∧ (c.tally msg result).sessionAuth = c.sessionAuth ∧
      (c.tally msg result).heldTxn = c.heldTxn ∧
      (c.tally msg result).activeStream = c.activeStream ∧
      (c.tally msg result).nextTxn = c.nextTxn ∧ (c.tally msg result).closed = c.closed := by
  unfold tally
  split <;> exact ⟨rfl, rfl, rfl, rfl, rfl, rfl⟩

theorem Placed.of_slots (h : Placed state c)
    (hauth : c'.sessionAuth = c.sessionAuth) (hheld : c'.heldTxn = c.heldTxn)
    (hclean : state = .txReady ∨ state = .txStreaming →
      ∀ txn, CleanSince c.trace txn → CleanSince c'.trace txn) : Placed state c' where
  initial hstate := hauth.trans (h.initial hstate)
  idle hstate := hheld.trans (h.idle hstate)
  tx hstate := by
    obtain ⟨txn, htxn, hc⟩ := h.tx hstate
    exact ⟨txn, hheld.trans htxn, hclean hstate txn hc⟩

/-- A failure leaves no transaction in a state from which it could be committed. -/
theorem ne_failure_of_tx (h : state.commitResult msg result = .txReady ∨
      state.commitResult msg result = .txStreaming) : result ≠ .failure := by
  rintro rfl
  cases msg <;> simp [commitResult] at h

theorem conclude_settled (h : Processed state msg (replies, result, c)) :
    Settled (c.conclude msg result replies failsAt) := by
  unfold conclude
  split
  · exact close_settled (write_sound h.sound)
  · rename_i hwhole
    have hwritten := write_all_sound h.sound (by simpa using hwhole)
    obtain ⟨htrace, hauth, hheld, hstream, hnext, hover⟩ :=
      tally_slots (c.write replies failsAt) msg result
    refine ⟨handled_sound (hwritten.of_slots htrace hauth hheld hstream hnext hover), fun _ => ?_⟩
    have hplaced : Placed (c.state.commitResult msg result) c := by
      have hstate : c.state = state := h.state
      rw [hstate]
      exact h.placed
    refine hplaced.of_slots hauth hheld fun htx txn hclean => ?_
    have hok := ne_failure_of_tx htx
    show CleanSince (((c.write replies failsAt).tally msg result).trace ++ [_]) txn
    rw [htrace]
    exact (cleanSince_write hclean).concat (by simpa using hok)

theorem process_settled {answers : Answers R} (h : Sound [] c) (hplaced : Placed c.state c)
    (hover : c.closed = false)
    (hAdmitted : c.state.admit msg = .process ∨ c.state.admit msg = .processThenClose) :
    Settled (c.process answers msg failsAt) := by
  have hprocessed : Processed c.state msg (c.processMessage answers msg) :=
    processed_message h hplaced hover hAdmitted
  exact conclude_settled hprocessed

theorem handlePair_settled {input : Input P R} (h : Settled c) (hover : c.closed = false) :
    Settled (handlePair c input) := by
  have hplaced := h.placed hover
  cases input with
  | eof => exact close_settled h.sound
  | undecodable => exact answer_settled h.sound rfl
  | message msg =>
    dsimp only [handlePair]
    cases hAdmitted : c.state.admit msg with
    | process => exact process_settled h.sound hplaced hover (.inl hAdmitted)
    | processThenClose =>
      exact close_settled (process_settled h.sound hplaced hover (.inr hAdmitted)).sound
    | ignore =>
      -- only a failed connection ignores messages
      have hfailed : c.state = .failed := by
        cases hstate : c.state <;> cases msg <;> simp [hstate, ConnState.admit] at hAdmitted ⊢
      dsimp only
      rw [hfailed]
      exact answer_settled h.sound rfl
    | protocolViolation => exact answer_settled h.sound rfl

end

/-! ## Every run -/

theorem sound_init : Sound [] ({} : Conn P R) where
  disciplined before e after h := absurd h.symm (by simp)
  identity := rfl
  txns := rfl
  stream _ hs := nomatch hs
  pending hne := absurd rfl hne
  fresh _ _ := rfl
  once _ := zero_le 1
  balance _ := rfl
  ended _ := rfl

theorem settled_of_reach (h : Foundation.System.Reach session anyInput c) : Settled c := by
  have hinit : Placed .initial ({} : Conn P R) :=
    ⟨fun _ => rfl, fun _ => rfl, fun hstate => by simp at hstate⟩
  apply h.invariant ⟨sound_init, fun _ => hinit⟩
  intro c input c' hc _ hstep
  have hrun : (if c.closed then none else some (handlePair c input)) = some c' := hstep
  split at hrun
  · exact nomatch hrun
  · rename_i hover
    rw [← some.inj hrun]
    exact handlePair_settled hc (by simpa using hover)

/-- In every run of a connection each event of the trace stands where it is allowed:
statements and transactions only under the identity of the one successful authentication, a
RUN inside the open transaction exactly when there is one, a transaction opened only when none
is open, committed only if every message since its BEGIN was processed successfully, and the
rows that leave the stream the next records of the latest successful RUN. Every transaction
is opened once and finished at most once, and once the connection is over every transaction
is finished. -/
theorem session_discipline (c : Conn P R) (h : Foundation.System.Reach session anyInput c) :
    (∀ before e after, c.trace = before ++ e :: after → Allowed before e) ∧
    (∀ txn, c.trace.countP (opens txn) ≤ 1 ∧
      c.trace.countP (finishes txn) ≤ c.trace.countP (opens txn)) ∧
    (c.closed = true → ∀ txn, c.trace.countP (finishes txn) = c.trace.countP (opens txn)) := by
  have hsound := (settled_of_reach h).sound
  refine ⟨hsound.disciplined, fun txn => ⟨hsound.once txn, ?_⟩, ?_⟩
  · rw [hsound.balance txn]
    exact le_add_right _ _
  · intro hover txn
    have hbalance := hsound.balance txn
    rw [hsound.ended hover] at hbalance
    simpa using hbalance.symm

/-- A handler that accepts everything and answers each RUN with the rows 1 and 2. -/
def obliging : Answers Nat where
  authenticate := .ok ⟨7, some "alice", .read⟩
  run := some (.ok ⟨["n"], [1, 2]⟩)
  runInTxn := some (.ok ⟨["n"], [1, 2]⟩)
  beginTxn := .ok ()
  commitTxn := some (.ok "arcgraph:1")

/-- A transaction with one statement whose first row is pulled and whose second is dropped. -/
def oneTransaction : List (Input Unit Nat) :=
  [.message (.hello (some "basic") (some "alice") (some "secret")) obliging none,
    .message (.begin (some "w") none) obliging none,
    .message (.run "RETURN 1" ()) obliging none,
    .message (.pull 1) obliging none,
    .message (.discard (-1)) obliging none,
    .message .commit obliging none,
    .message .goodbye obliging none]

theorem session_discipline_oneTransaction :
    ((session (P := Unit) (R := Nat)).after anyInput oneTransaction).trace.countP (finishes 0) =
      1 := by
  have hreach : Foundation.System.Reach session anyInput
      ((session (P := Unit) (R := Nat)).after anyInput oneTransaction) :=
    .after (by decide +kernel)
  rw [(session_discipline _ hreach).2.2 (by decide +kernel) 0]
  decide +kernel

end ArcGraph.Bolt
