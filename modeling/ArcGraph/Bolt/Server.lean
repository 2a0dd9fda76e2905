import ArcGraph.Foundation.System

/-!
# A Bolt connection

One connection runs a loop: read a frame, decode it, ask the state machine whether the
message is admissible, call the query handler, write the replies, advance the state machine.
Beside the state machine's state the loop holds the identity of the session, the result
stream of the last successful RUN and the open explicit transaction.

The handler is outside: what its calls return is part of a step's input, a call that is
dispatched to a blocking thread may also panic. `run_in_txn` gives back the handle it was
given, as its contract says; a panic consumes the handle, whose drop aborts the transaction.
Handles are numbered in the order in which `begin_txn` returns them.

`trace` records the calls, the rows that leave the stream and how each message ended; the
program does not read it. A write to the peer may fail at any reply, which ends the
connection. Rows and statement parameters are types of their own.
-/

namespace ArcGraph.Bolt

inductive SessionScope
  | read
  | power
deriving DecidableEq

structure SessionAuth where
  tenant : Nat
  principal : Option String
  scope : SessionScope
deriving DecidableEq

/-- What the server can report to its peer. `pack` carries the codec's own text. -/
inductive BoltError
  | handshakeRejected (reason : String)
  | framing (reason : String)
  | io (reason : String)
  | pack (reason : String)
  | messageTooLarge (bytes max : Nat)
  | protocolViolation (reason : String)
  | unauthorized (reason : String)
  | syntaxFault (reason : String)
  | parameterMissing (reason : String)
  | invalidParameter (reason : String)
  | notImplemented (reason : String)
  | resourceExhausted (reason : String)
  | cancelled
  | substrate (reason : String)
  | transientConflict (target : String)
  | internal (reason : String)
deriving DecidableEq

namespace BoltError

def neo4jCode : BoltError → String
  | handshakeRejected _ => "Neo.ClientError.Request.InvalidFormat"
  | framing _ => "Neo.ClientError.Request.InvalidFormat"
  | io _ => "Neo.DatabaseError.General.UnknownError"
  | pack _ => "Neo.ClientError.Request.InvalidFormat"
  | messageTooLarge .. => "Neo.ClientError.Request.InvalidFormat"
  | protocolViolation _ => "Neo.ClientError.Request.Invalid"
  | unauthorized _ => "Neo.ClientError.Security.Unauthorized"
  | syntaxFault _ => "Neo.ClientError.Statement.SyntaxError"
  | parameterMissing _ => "Neo.ClientError.Statement.ParameterMissing"
  | invalidParameter _ => "Neo.ClientError.Statement.TypeError"
  | notImplemented _ => "Neo.ClientError.Statement.NotImplemented"
  | resourceExhausted _ => "Neo.TransientError.General.OutOfMemoryError"
  | cancelled => "Neo.ClientError.Transaction.Terminated"
  | substrate _ => "Neo.ClientError.Database.DatabaseNotFound"
  | transientConflict _ => "Neo.TransientError.Transaction.DeadlockDetected"
  | internal _ => "Neo.DatabaseError.General.UnknownError"

def message : BoltError → String
  | handshakeRejected reason => s!"handshake rejected: {reason}"
  | framing reason => s!"framing fault: {reason}"
  | io reason => s!"io: {reason}"
  | pack reason => s!"packstream: {reason}"
  | messageTooLarge bytes max => s!"bolt message too large: {bytes} > {max}"
  | protocolViolation reason => s!"protocol violation: {reason}"
  | unauthorized reason => s!"authentication failed: {reason}"
  | syntaxFault reason => s!"syntax error: {reason}"
  | parameterMissing reason => s!"parameter missing: {reason}"
  | invalidParameter reason => s!"invalid parameter: {reason}"
  | notImplemented reason => s!"not implemented: {reason}"
  | resourceExhausted reason => s!"resource exhausted: {reason}"
  | cancelled => "cancelled"
  | substrate reason => s!"substrate: {reason}"
  | transientConflict _ =>
    "the transaction could not complete due to a concurrent write conflict; " ++
      "retry the transaction"
  | internal reason => s!"internal: {reason}"

end BoltError

/-- A message of the client. Of the map of BEGIN only `mode` and `db` are read. -/
inductive ClientMessage (P : Type)
  | hello (scheme principal credentials : Option String)
  | goodbye
  | reset
  | run (query : String) (parameters : P)
  | discard (n : Int)
  | pull (n : Int)
  | begin (mode db : Option String)
  | commit
  | rollback

inductive ServerMessage (R : Type)
  | helloSuccess
  | runSuccess (fields : List String)
  | pullSuccess (hasMore : Bool)
  | resetSuccess
  | beginSuccess
  | commitSuccess (bookmark : String)
  | rollbackSuccess
  | record (row : R)
  | ignored
  | failure (code message : String)

def ServerMessage.failureFromError {R : Type} (e : BoltError) : ServerMessage R :=
  .failure e.neo4jCode e.message

/-! ## The state machine -/

inductive ConnState
  | initial
  | ready
  | streaming
  | txReady
  | txStreaming
  | failed
  | closed
deriving DecidableEq

inductive Transition
  | process
  | ignore
  | protocolViolation (reason : String)
  | processThenClose
deriving DecidableEq

inductive HandlerOutcome
  | success
  | failure
  | hasMore
deriving DecidableEq

variable {P R : Type}

def ConnState.admit : ConnState → ClientMessage P → Transition
  | _, .goodbye => .processThenClose
  | _, .reset => .process
  | .initial, .hello .. => .process
  | .initial, _ => .protocolViolation "expected HELLO first"
  | .ready, .run .. => .process
  | .ready, .begin .. => .process
  | .ready, .pull _ => .protocolViolation "PULL/DISCARD without active RUN"
  | .ready, .discard _ => .protocolViolation "PULL/DISCARD without active RUN"
  | .ready, .commit => .protocolViolation "COMMIT/ROLLBACK without an open transaction"
  | .ready, .rollback => .protocolViolation "COMMIT/ROLLBACK without an open transaction"
  | .ready, .hello .. => .protocolViolation "duplicate HELLO"
  | .streaming, .pull _ => .process
  | .streaming, .discard _ => .process
  | .streaming, .run .. => .protocolViolation "RUN while streaming previous result"
  | .streaming, .begin .. => .protocolViolation "BEGIN while streaming previous result"
  | .streaming, .commit => .protocolViolation "COMMIT/ROLLBACK while streaming (no open tx)"
  | .streaming, .rollback => .protocolViolation "COMMIT/ROLLBACK while streaming (no open tx)"
  | .streaming, .hello .. => .protocolViolation "duplicate HELLO"
  | .txReady, .run .. => .process
  | .txReady, .commit => .process
  | .txReady, .rollback => .process
  | .txReady, .begin .. => .protocolViolation "BEGIN while a transaction is already open"
  | .txReady, .pull _ => .protocolViolation "PULL/DISCARD without active RUN in transaction"
  | .txReady, .discard _ => .protocolViolation "PULL/DISCARD without active RUN in transaction"
  | .txReady, .hello .. => .protocolViolation "duplicate HELLO"
  | .txStreaming, .pull _ => .process
  | .txStreaming, .discard _ => .process
  | .txStreaming, .run .. =>
    .protocolViolation "RUN while streaming previous result in transaction"
  | .txStreaming, .begin .. => .protocolViolation "BEGIN while streaming previous result"
  | .txStreaming, .commit =>
    .protocolViolation "COMMIT/ROLLBACK while streaming (drain the stream first)"
  | .txStreaming, .rollback =>
    .protocolViolation "COMMIT/ROLLBACK while streaming (drain the stream first)"
  | .txStreaming, .hello .. => .protocolViolation "duplicate HELLO"
  | .failed, _ => .ignore
  | .closed, _ => .protocolViolation "connection closed"

/-- The state after a message whose handler did not fail. -/
def ConnState.advance : ConnState → ClientMessage P → HandlerOutcome → ConnState
  | .initial, .hello .., _ => .ready
  | .ready, .run .., _ => .streaming
  | .streaming, .pull _, .hasMore => .streaming
  | .streaming, .discard _, .hasMore => .streaming
  | .streaming, .pull _, .success => .ready
  | .streaming, .discard _, .success => .ready
  | .ready, .begin .., _ => .txReady
  | .txReady, .run .., _ => .txStreaming
  | .txStreaming, .pull _, .hasMore => .txStreaming
  | .txStreaming, .discard _, .hasMore => .txStreaming
  | .txStreaming, .pull _, .success => .txReady
  | .txStreaming, .discard _, .success => .txReady
  | .txReady, .commit, _ => .ready
  | .txReady, .rollback, _ => .ready
  | state, _, _ => state

def ConnState.commitResult (state : ConnState) (msg : ClientMessage P)
    (outcome : HandlerOutcome) : ConnState :=
  match msg, outcome with
  | .reset, _ => .ready
  | .goodbye, _ => .closed
  | _, .failure => .failed
  | _, _ => state.advance msg outcome

/-! ## The connection -/

abbrev Txn := Nat

structure RunOutcome (R : Type) where
  fields : List String
  records : List R

/-- What the handler's calls return while one message is processed; `none` is a panic of a
dispatched call. -/
structure Answers (R : Type) where
  authenticate : Except BoltError SessionAuth
  run : Option (Except BoltError (RunOutcome R))
  runInTxn : Option (Except BoltError (RunOutcome R))
  beginTxn : Except BoltError Unit
  commitTxn : Option (Except BoltError String)

inductive Event (P R : Type)
  | authenticate (scheme principal credentials : Option String) (result : Option SessionAuth)
  | cancel (tenant : Nat)
  | run (auth : SessionAuth) (query : String) (parameters : P)
  | runInTxn (auth : SessionAuth) (query : String) (parameters : P) (txn : Txn)
  | beginTxn (tenant : Nat) (mode db : Option String) (result : Option Txn)
  | commitTxn (txn : Txn)
  | rollbackTxn (txn : Txn)
  | dropTxn (txn : Txn)
  /-- A RUN succeeded with these records. -/
  | ran (records : List R)
  | sent (row : R)
  | discarded (row : R)
  /-- A message was answered; `ok` says that it was processed successfully. -/
  | handled (ok : Bool)

structure ConnTaskOutcome where
  runsSucceeded : Nat := 0
  runsFailed : Nat := 0
  authFailures : Nat := 0

structure Conn (P R : Type) where
  state : ConnState := .initial
  sessionAuth : Option SessionAuth := none
  activeStream : Option (RunOutcome R) := none
  heldTxn : Option Txn := none
  outcome : ConnTaskOutcome := {}
  closed : Bool := false
  nextTxn : Txn := 0
  trace : List (Event P R) := []

variable (c : Conn P R)

namespace Conn

def emit (e : Event P R) : Conn P R := { c with trace := c.trace ++ [e] }

def failWith (e : BoltError) :
    List (ServerMessage R) × HandlerOutcome × Conn P R :=
  ([.failureFromError e], .failure, c)

variable (answers : Answers R)

def hello (scheme principal credentials : Option String) :
    List (ServerMessage R) × HandlerOutcome × Conn P R :=
  match answers.authenticate with
  | .ok auth =>
    ([.helloSuccess], .success,
      { c.emit (.authenticate scheme principal credentials (some auth)) with
        sessionAuth := some auth })
  | .error e => (c.emit (.authenticate scheme principal credentials none)).failWith e

def cancel : Conn P R :=
  match c.sessionAuth with
  | some auth => c.emit (.cancel auth.tenant)
  | none => c

/-- Hand the open transaction, if there is one, to `rollback_txn`. -/
def rollbackHeld : Conn P R :=
  match c.heldTxn with
  | some txn => { c.emit (.rollbackTxn txn) with heldTxn := none }
  | none => c

def reset : List (ServerMessage R) × HandlerOutcome × Conn P R :=
  ([.resetSuccess], .success, rollbackHeld { c.cancel with activeStream := none })

def runAnswer : Except BoltError (RunOutcome R) →
    List (ServerMessage R) × HandlerOutcome × Conn P R
  | .ok outcome =>
    ([.runSuccess outcome.fields], .success,
      { c.emit (.ran outcome.records) with activeStream := some outcome })
  | .error e => c.failWith e

def run (query : String) (parameters : P) :
    List (ServerMessage R) × HandlerOutcome × Conn P R :=
  match c.sessionAuth, c.heldTxn with
  | none, _ => c.failWith (.protocolViolation "RUN before HELLO")
  | some auth, some txn =>
    let c := c.emit (.runInTxn auth query parameters txn)
    match answers.runInTxn with
    | some result => c.runAnswer result
    | none =>
      ({ c.emit (.dropTxn txn) with heldTxn := none }).runAnswer
        (.error (.internal "explicit-transaction RUN dispatch task panicked"))
  | some auth, none =>
    (c.emit (.run auth query parameters)).runAnswer
      (answers.run.getD (.error (.internal "auto-commit RUN dispatch task panicked")))

variable (n : Int)

/-- How many of `len` records a PULL or DISCARD of `n` takes. -/
def taken (len : Nat) : Nat := if n < 0 then len else min n.toNat len

def drainOutcome (rest : List R) : HandlerOutcome := if rest.isEmpty then .success else .hasMore

def pull : List (ServerMessage R) × HandlerOutcome × Conn P R :=
  match c.activeStream with
  | none => c.failWith (.protocolViolation "PULL without active RUN")
  | some stream =>
    let rest := stream.records.drop (taken n stream.records.length)
    ((stream.records.take (taken n stream.records.length)).map .record ++
        [.pullSuccess !rest.isEmpty], drainOutcome rest,
      { c with activeStream := some { stream with records := rest } })

def discard : List (ServerMessage R) × HandlerOutcome × Conn P R :=
  match c.activeStream with
  | none => c.failWith (.protocolViolation "DISCARD without active RUN")
  | some stream =>
    let dropped := stream.records.take (taken n stream.records.length)
    let rest := stream.records.drop (taken n stream.records.length)
    ([.pullSuccess !rest.isEmpty], drainOutcome rest,
      { c with
        activeStream := some { stream with records := rest }
        trace := c.trace ++ dropped.map .discarded })

def begin (mode db : Option String) :
    List (ServerMessage R) × HandlerOutcome × Conn P R :=
  match c.sessionAuth with
  | none => c.failWith (.protocolViolation "BEGIN before HELLO")
  | some auth =>
    match answers.beginTxn with
    | .ok () =>
      ([.beginSuccess], .success,
        { c.emit (.beginTxn auth.tenant mode db (some c.nextTxn)) with
          heldTxn := some c.nextTxn
          nextTxn := c.nextTxn + 1 })
    | .error e => (c.emit (.beginTxn auth.tenant mode db none)).failWith e

def commit :
    List (ServerMessage R) × HandlerOutcome × Conn P R :=
  match c.heldTxn with
  | none => c.failWith (.protocolViolation "COMMIT without an open transaction")
  | some txn =>
    let c := { c.emit (.commitTxn txn) with heldTxn := none }
    match answers.commitTxn.getD (.error (.internal "COMMIT dispatch task panicked")) with
    | .ok bookmark => ([.commitSuccess bookmark], .success, { c with activeStream := none })
    | .error e => c.failWith e

def rollback : List (ServerMessage R) × HandlerOutcome × Conn P R :=
  match c.heldTxn with
  | none => c.failWith (.protocolViolation "ROLLBACK without an open transaction")
  | some _ => ([.rollbackSuccess], .success, { c.rollbackHeld with activeStream := none })

def processMessage :
    ClientMessage P → List (ServerMessage R) × HandlerOutcome × Conn P R
  | .hello scheme principal credentials => c.hello answers scheme principal credentials
  | .goodbye => ([], .success, c)
  | .reset => c.reset
  | .run query parameters => c.run answers query parameters
  | .pull n => c.pull n
  | .discard n => c.discard n
  | .begin mode db => c.begin answers mode db
  | .commit => c.commit answers
  | .rollback => c.rollback

/-- The loop returns: the stream and an open transaction are dropped. -/
def close : Conn P R :=
  { c with
    closed := true
    activeStream := none
    heldTxn := none
    trace := c.trace ++ c.heldTxn.toList.map .dropTxn }

variable (replies : List (ServerMessage R))

def rows : List R :=
  replies.filterMap fun
    | .record row => some row
    | _ => none

/-- Write the replies; `failsAt` is the number of replies written before a write fails. -/
def write (failsAt : Option Nat) :
    Conn P R :=
  { c with trace := c.trace ++ (rows (replies.take (failsAt.getD replies.length))).map .sent }

def broken (failsAt : Option Nat) : Bool :=
  failsAt.any (· < replies.length)

variable (msg : ClientMessage P) (result : HandlerOutcome)

def tally : Conn P R :=
  match msg, result with
  | .run .., .failure =>
    { c with outcome := { c.outcome with runsFailed := c.outcome.runsFailed + 1 } }
  | .run .., _ =>
    { c with outcome := { c.outcome with runsSucceeded := c.outcome.runsSucceeded + 1 } }
  | .hello .., .failure =>
    { c with outcome := { c.outcome with authFailures := c.outcome.authFailures + 1 } }
  | _, _ => c

def answer (reply : ServerMessage R) (state : ConnState)
    (failsAt : Option Nat) : Conn P R :=
  if broken [reply] failsAt then (c.write [reply] failsAt).close
  else ({ c.write [reply] failsAt with state := state }).emit (.handled false)

def conclude
    (replies : List (ServerMessage R)) (failsAt : Option Nat) : Conn P R :=
  if broken replies failsAt then (c.write replies failsAt).close
  else
    ({ (c.write replies failsAt).tally msg result with
        state := c.state.commitResult msg result }).emit
      (.handled (decide (result ≠ HandlerOutcome.failure)))

def process
    (failsAt : Option Nat) : Conn P R :=
  let r := c.processMessage answers msg
  r.2.2.conclude msg r.2.1 r.1 failsAt

end Conn

/-- What a connection is given: a decoded frame or one that cannot be decoded, with the
handler's answers and the fate of the replies, or the end of the stream. -/
inductive Input (P R : Type)
  | message (msg : ClientMessage P) (answers : Answers R) (failsAt : Option Nat)
  | undecodable (e : BoltError) (failsAt : Option Nat)
  | eof

/-- One round of the loop. -/
def handlePair : Input P R → Conn P R
  | .eof => c.close
  | .undecodable e failsAt => c.answer (.failureFromError e) .failed failsAt
  | .message msg answers failsAt =>
    match c.state.admit msg with
    | .process => c.process answers msg failsAt
    | .processThenClose => (c.process answers msg failsAt).close
    | .ignore => c.answer .ignored c.state failsAt
    | .protocolViolation reason =>
      c.answer (.failureFromError (.protocolViolation reason)) .failed failsAt

/-- A connection after its handshake. -/
def session : Foundation.System (Conn P R) (Input P R) where
  init := {}
  step c input := if c.closed then none else some (handlePair c input)

/-- No frame and no answer of the handler is excluded. -/
def anyInput (_ : Conn P R) (_ : Input P R) : Prop := True

instance (c : Conn P R) (input : Input P R) : Decidable (anyInput c input) := isTrue trivial

end ArcGraph.Bolt
