import ArcGraph.Merge.GetOrCreate

/-!
# From the text of a MERGE to its plan

A MERGE pattern is planned before the statement takes its mutexes. Its lock key is a
rendering of label and properties in which numbers that the filter may call equal look
alike. Its match branch scans the label, if the label has an id when the statement is
planned; if not, the branch is empty for good, although a statement that holds the mutex
first may create both the label and the node. Two statements planned before the label
exists therefore both create the node (`planned_merges_both_create`).

The statements of `get_or_create` are those planned when the label has an id, whose
properties are equal to themselves (`class_planned`).
-/

namespace ArcGraph.Merge
open Foundation ArcGraph.Graph Function List

/-! ## Values -/

structure F64 where
  bits : Nat
deriving DecidableEq

namespace F64
variable (f : F64)

def negative : Bool := f.bits / 2 ^ 63 % 2 == 1

def exponent : Nat := f.bits / 2 ^ 52 % 2 ^ 11

def fraction : Nat := f.bits % 2 ^ 52

def isNaN : Bool := f.exponent == 2047 && f.fraction != 0

/-- The number in units of the smallest subnormal; infinities lie beyond all others. -/
def units : Int :=
  let magnitude : Nat :=
    if f.exponent = 0 then f.fraction else (2 ^ 52 + f.fraction) * 2 ^ (f.exponent - 1)
  if f.negative then -magnitude else magnitude

/-- Equality of numbers: NaN equals nothing. -/
def eq (g : F64) : Bool := !f.isNaN && !g.isNaN && f.units == g.units

def ofInt (n : Int) : F64 :=
  let m := n.natAbs
  let sign := if n < 0 then 2 ^ 63 else 0
  if m = 0 then ⟨0⟩
  else
    let e := m.log2
    let significand :=
      if e ≤ 52 then m * 2 ^ (52 - e)
      else
        let unit := 2 ^ (e - 52)
        let q := m / unit
        let r := m % unit
        if unit < 2 * r ∨ unit = 2 * r ∧ q % 2 = 1 then q + 1 else q
    -- a significand rounded up to the next power of two carries into the exponent
    ⟨sign + (1023 + e) * 2 ^ 52 + (significand - 2 ^ 52)⟩

/-- The value of a number without fraction, cut to the range of `i64`. -/
def toInt : Option Int :=
  let one : Nat := 2 ^ 1074
  let bound : Nat := 2 ^ 63
  if f.isNaN ∨ f.exponent = 2047 ∨ f.units % one ≠ 0 then none
  else
    let v := f.units / one
    if v < -bound ∨ bound < v then none else some (min v (bound - 1))

end F64

/-- `other` are lists, maps, entities and the rest, by the text of their canonical cell. -/
inductive Value
  | null
  | boolean (b : Bool)
  | integer (n : Int)
  | float (f : F64)
  | string (s : String)
  | other (cell : String)
deriving DecidableEq

/-- Equality under three-valued logic; `otherEq` compares lists, maps and the rest. -/
def valuesEqual3vl (otherEq : String → String → Option Bool) : Value → Value → Option Bool
  | .null, _ | _, .null => none
  | .boolean x, .boolean y => some (x == y)
  | .integer x, .integer y => some (x == y)
  | .float x, .float y => some (x.eq y)
  | .integer x, .float y | .float y, .integer x => some ((F64.ofInt x).eq y)
  | .string x, .string y => some (x == y)
  | .other x, .other y => otherEq x y
  | _, _ => some false

/-! ## Lock keys -/

def f64ExactIntBound : Nat := 2 ^ 53

def canonicalizeKeyValue : Value → Value
  | .integer n => if f64ExactIntBound ≤ n.natAbs then .float (F64.ofInt n) else .integer n
  | .float f =>
    match f.toInt with
    | some n =>
      if (F64.ofInt n).eq f ∧ n.natAbs < f64ExactIntBound then .integer n else .float f
    | none => .float f
  | value => value

def canonicalCell : Value → String
  | .null => "NULL"
  | .boolean b => if b then "T" else "F"
  | .integer n => "I:" ++ toString n
  | .float f => "F:" ++ toString f.bits
  | .string s => "S:" ++ toString s.utf8ByteSize ++ ":" ++ s
  | .other cell => cell

def framed (s : String) : String := toString s.utf8ByteSize ++ ":" ++ s

def recordSeparator : String := String.singleton (Char.ofNat 0x1e)

def resolveOneKey (tenant : String) (label : Option String) (properties : List (String × Value)) :
    String :=
  let head := "MK" ++ recordSeparator ++ tenant ++ recordSeparator ++
    match label with
    | some l => "L:" ++ framed l
    | none => "L:-"
  let resolved := properties.map fun p => (p.1, canonicalizeKeyValue p.2)
  (sortBy (fun p : String × Value => p.1) resolved).foldl
    (fun key p => key ++ recordSeparator ++ framed p.1 ++ "=" ++ canonicalCell p.2) head

/-! ## Planning -/

structure NodeRecord where
  label : Option String
  bag : String → Option Value

structure MergeSpec where
  label : Option String
  properties : List (String × Value)
  onCreate : List (NodeRecord → NodeRecord) := []
  onMatch : List (NodeRecord → NodeRecord) := []

namespace MergeSpec
variable (otherEq : String → String → Option Bool) (m : MergeSpec)

def hasProperties (node : NodeRecord) : Bool :=
  m.properties.all fun p =>
    valuesEqual3vl otherEq ((node.bag p.1).getD .null) p.2 == some true

/-- The record of the create branch; a name that is given twice takes its last value. -/
def pattern : NodeRecord := ⟨m.label, fun name => m.properties.reverse.lookup name⟩

/-- The match branch, for the labels that have an id when the statement is planned. -/
def matchBranch (interned : List String) (node : NodeRecord) : Bool :=
  match m.label with
  | some label =>
    if label ∈ interned then node.label == some label && m.hasProperties otherEq node else false
  | none => m.hasProperties otherEq node

def plan (tenant : String) (interned : List String) : Clause NodeRecord where
  keys := [resolveOneKey tenant m.label m.properties]
  accepts := m.matchBranch otherEq interned
  created := m.onCreate.foldl (fun record f => f record) m.pattern
  onMatch := m.onMatch

end MergeSpec

/-- The MERGEs of one pattern form a class if its label has an id when they are planned and
the filter accepts the record that the create branch leaves. -/
theorem class_planned {stmts : StmtId → Statement NodeRecord} {member : StmtId → Prop}
    {otherEq : String → String → Option Bool} {m : MergeSpec} {tenant : String}
    {interned : List String}
    (hplanned : ∀ id, member id → stmts id = ⟨[m.plan otherEq tenant interned]⟩)
    (hinterned : ∀ label, m.label = some label → label ∈ interned)
    (hlabel : (m.plan otherEq tenant interned).created.label = m.label)
    (hself : m.hasProperties otherEq (m.plan otherEq tenant interned).created = true)
    (hkeeps : Keeps stmts (m.matchBranch otherEq interned)) :
    Class stmts (m.matchBranch otherEq interned) (resolveOneKey tenant m.label m.properties)
      member where
  locked id hid := by
    rw [hplanned id hid]
    exact mem_singleton.mpr rfl
  single id hid := by
    refine ⟨m.plan otherEq tenant interned, by rw [hplanned id hid], rfl, ?_⟩
    unfold MergeSpec.matchBranch
    split
    · rename_i label hsome
      rw [if_pos (hinterned label hsome), hlabel, hsome, hself]
      simp
    · exact hself
  keeps := hkeeps

/-! ## A match branch that finds nothing -/

open World

section
variable {B : Type} {stmts : StmtId → Statement B} {store : CrudStore B} {w : World B} {id : StmtId}
  {k : String} {c : Clause B} {bound created : List NodeId}

/-- The world while the statement holds its only mutex. -/
def World.during (w : World B) (id : StmtId) (k : String) (graph : Graph.World B)
    (installed : List StmtId) (run : Run B) : World B where
  graph := graph
  locks := update w.locks k (some id)
  installed := installed
  runs := update w.runs id run

def Clause.creation (c : Clause B) (store : CrudStore B) : Transaction B :=
  Transaction.writeNode { snapshot := store.head } store.nextNode (some c.created)

theorem matched_eq_nil (hempty : ∀ b, c.accepts b = false) (store : CrudStore B)
    (tx : Transaction B) : c.matched store tx = [] := by
  unfold Clause.matched Clause.acceptsNode
  refine filter_eq_nil_iff.mpr fun n _ => ?_
  cases tx.readNode store n with
  | none => simp
  | some b => simp [hempty]

theorem step_begin_during (hclauses : (stmts id).clauses = [c]) (g : Graph.World B) :
    step stmts (w.during id k g [] { phase := .acquiring [] }) (.begin id) =
      some (w.during id k (g.setSession id (some (.active { snapshot := g.store.head }))) []
        { phase := .probing [c] }) := by
  simp [step, setPhase, hclauses, during]

theorem step_probe_during (hempty : ∀ b, c.accepts b = false) (g : Graph.World B)
    (tx : Transaction B) :
    step stmts (w.during id k (g.setSession id (some (.active tx))) [] { phase := .probing [c] })
        (.probe id) =
      some (w.during id k (g.setSession id (some (.active tx))) []
        { phase := .staging c [] [] }) := by
  simp [step, setPhase, during, Graph.World.setSession, matched_eq_nil hempty]

theorem step_stage_during (g : Graph.World B) :
    step stmts (w.during id k (g.setSession id (some (.active { snapshot := g.store.head }))) []
        { phase := .staging c [] [] }) (.stage id) =
      some (w.during id k
        (Graph.World.setSession { g with store := { g.store with nextNode := g.store.nextNode + 1 } }
          id (some (.active (c.creation g.store)))) []
        { phase := .probing [], bound := [g.store.nextNode], created := [g.store.nextNode] }) := by
  simp [step, during, staged, Graph.World.setSession, Graph.World.call,
    CrudStore.stage, Clause.creation]

theorem step_install_during {g : Graph.World B} {store0 : CrudStore B}
    (hstamp : g.store.nodeStamp store0.nextNode ≤ store0.head) :
    step stmts (w.during id k (g.setSession id (some (.active (c.creation store0)))) []
        { phase := .probing [], bound, created }) (.install id) =
      some (w.during id k (g.setSession id (some (.active (c.creation store0)))) [id]
        { phase := .installed, bound, created }) := by
  have hfirst : g.store.conflicts (c.creation store0) = false := by
    simp only [CrudStore.conflicts, Clause.creation, Transaction.writeNode, any_cons,
      any_nil, Bool.or_false]
    exact decide_eq_false (Nat.not_lt.mpr hstamp)
  have hwrites : (c.creation store0).nodeWrites ≠ [] := cons_ne_nil _ _
  simp [step, during, install, Graph.World.setSession, setPhase, contended, hfirst, hwrites]

theorem step_publish_during (hkeys : (stmts id).keys = [k]) (g : Graph.World B)
    (tx : Transaction B) :
    step stmts (w.during id k (g.setSession id (some (.active tx))) [id]
        { phase := .installed, bound, created }) (.publish id) =
      some (w.during id k
        (Graph.World.setSession { g with store := g.store.install tx } id none) []
        { phase := .releasing [k], bound, created, outcome := some true }) := by
  simp [step, during, publish, finish, Graph.World.setSession, hkeys]

variable (h : System.Reach (system stmts store) (fun _ _ => True) w)
include h

theorem reach_step {a : Action} {w' : World B} (hstep : step stmts w a = some w') :
    System.Reach (system stmts store) (fun _ _ => True) w' :=
  .step h trivial (show (system stmts store).step w a = some w' from hstep)

/-- While nothing else moves, a statement whose match branch is empty creates a node and is
committed. -/
theorem creates_alone (hkeys : (stmts id).keys = [k]) (hclauses : (stmts id).clauses = [c])
    (hrun : w.runs id = { phase := .acquiring [k] }) (hfree : w.locks k = none)
    (hqueue : w.installed = []) (hempty : ∀ b, c.accepts b = false)
    (hstamp : w.graph.store.nodeStamp w.graph.store.nextNode ≤ w.graph.store.head) :
    ∃ w', System.Reach (system stmts store) (fun _ _ => True) w' ∧ Succeeded w' id ∧
      (w'.runs id).created = [w.graph.store.nextNode] ∧
      (∀ id', id' ≠ id → w'.runs id' = w.runs id') ∧ w'.locks k = none ∧ w'.installed = [] ∧
      w'.graph.store.nextNode = w.graph.store.nextNode + 1 ∧
      w'.graph.store.nodeStamp (w.graph.store.nextNode + 1) =
        w.graph.store.nodeStamp (w.graph.store.nextNode + 1) ∧
      w'.graph.store.head = w.graph.store.head + 1 := by
  have hacquire : step stmts w (.acquire id) =
      some (w.during id k w.graph [] { phase := .acquiring [] }) := by
    simp [step, hrun, hfree, setPhase, setLock, hqueue, during]
  have h1 := reach_step h hacquire
  have h2 := reach_step h1 (step_begin_during hclauses w.graph)
  have h3 := reach_step h2 (step_probe_during hempty w.graph _)
  have h4 := reach_step h3 (step_stage_during w.graph)
  have h5 := reach_step h4 (step_install_during (by exact hstamp))
  have h6 := reach_step h5 (step_publish_during hkeys _ _)
  have hrelease : ∀ g bound created, step stmts
      (w.during id k g [] { phase := .releasing [k], bound, created, outcome := some true })
      (.release id) = some (setLock (w.during id k g []
        { phase := .releasing [], bound, created, outcome := some true }) k none) := by
    intro g bound created
    simp [step, during, setPhase, setLock]
  have h7 := reach_step h6 (hrelease _ _ _)
  refine ⟨_, h7, ?_, ?_, ?_, ?_, rfl, rfl, ?_, rfl⟩
  · simp [Succeeded, during]
  · simp [during]
  · intro id' hne
    exact update_of_ne hne _ _
  · simp
  · simp [setLock, during, Graph.World.setSession, CrudStore.install,
      Clause.creation, Transaction.writeNode]

end

/-- A MERGE of one user, planned when no label has an id. -/
def mergeUser : StmtId → Statement NodeRecord := fun _ =>
  ⟨[MergeSpec.plan (fun _ _ => none)
    { label := some "User", properties := [("id", .integer 1)] } "tenant" []]⟩

/-- Two statements for the same user, planned before the label exists and run one after the
other, both create a node. -/
theorem planned_merges_both_create : ∃ w, System.Reach (system mergeUser {}) (fun _ _ => True) w ∧
    (mergeUser 0).keys = (mergeUser 1).keys ∧ (mergeUser 0).keys ≠ [] ∧ Succeeded w 0 ∧
      Succeeded w 1 ∧ (w.runs 0).created = [0] ∧ (w.runs 1).created = [1] := by
  obtain ⟨w, hreach, hs, hcreated, hothers, hfree, hqueue, hnext, hstamp, hhead⟩ :=
    @creates_alone NodeRecord mergeUser {} _ 0 _ _ .init rfl rfl rfl rfl rfl (fun _ => rfl)
      (Nat.le_refl 0)
  obtain ⟨w', hreach', hs', hcreated', hothers', -⟩ :=
    @creates_alone NodeRecord mergeUser {} _ 1 _ _ hreach rfl rfl (hothers 1 (by decide)) hfree
      hqueue (fun _ => rfl) (by rw [hnext, hstamp, hhead]; exact Nat.zero_le _)
  refine ⟨w', hreach', rfl, cons_ne_nil _ _, ?_, hs', ?_, ?_⟩
  · unfold Succeeded
    rw [hothers' 0 (by decide)]
    exact hs
  · rw [hothers' 0 (by decide)]
    exact hcreated
  · rw [hcreated', hnext]
    rfl

end ArcGraph.Merge
