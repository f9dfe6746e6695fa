import Dataflow.Directory
import Dataflow.Overload

/-!
# Nodes

A node is a value, a trigger, or a container that never evaluates: a scope with named members or a
group of functions.  Inputs and trigger inputs change from outside, constants by folding, formulas
and triggers by their rules.  What a node would become in a pass depends on the node and on what its
rule sees of its parents alone (`Node.outcome`).
-/

namespace Dataflow

inductive NodeKind where
  | input (type : DataType)
  /-- A literal, which changes by folding only. -/
  | constant
  | formula (type : DataType) (rule : ValueRule)
  | triggerInput
  | trigger (rule : TriggerRule)
  | scope (members : Directory)
  | functionGroup (group : FunctionGroup)

namespace NodeKind

/-- The node that a behavior runs; a formula produces `t`. -/
def ofBehavior (t : DataType) : Behavior → NodeKind
  | .value rule => formula t rule
  | .trigger rule => trigger rule

/-- Nodes of this kind may have parents. -/
def isDerived : NodeKind → Bool
  | formula _ _ | trigger _ => true
  | _ => false

/-- Nodes of this kind take part in evaluation. -/
def isData : NodeKind → Bool
  | scope _ | functionGroup _ => false
  | _ => true

def isTrigger : NodeKind → Bool
  | triggerInput | trigger _ => true
  | _ => false

/-- The type that nodes of this kind are declared to hold. -/
def declaredType? : NodeKind → Option DataType
  | input t | formula t _ => some t
  | _ => none

/-- The kind in a word, or the name of the rule. -/
def label : NodeKind → String
  | input _ => "input"
  | constant => "constant"
  | formula _ rule => rule.name
  | triggerInput => "trigger input"
  | trigger rule => rule.name
  | scope _ => "namespace"
  | functionGroup _ => "function group"

end NodeKind

/-- A change from outside that waits for the node's next evaluation. -/
inductive Staged where
  | value (v : Value)
  | provoke
  deriving DecidableEq

/-- What becomes of a node when it is evaluated. -/
inductive Outcome where
  /-- The node takes a value that differs from the one it holds. -/
  | value (v : Value)
  | fire
  | unchanged
  /-- The node is not evaluated: a container, or a formula with a parent that holds no value yet. -/
  | skip
  deriving DecidableEq

def Outcome.isChange : Outcome → Bool
  | value _ | fire => true
  | unchanged | skip => false

structure Node where
  kind : NodeKind
  /-- The nodes this one reads, in the order of the arguments; one may be read more than once. -/
  parents : List NodeId
  /-- The nodes that read this one, in the order in which they came to. -/
  children : List NodeId
  /-- The length of the longest path from a node without parents, once it has settled. -/
  depth : Nat
  value? : Option Value
  provoked : Bool
  staged? : Option Staged
  /-- The last pass in which the node changed or fired; 0 if there was none. -/
  changedIn : Nat
  name? : Option String
  scope? : Option NodeId

namespace Node

/-- A node before anything has happened to it. -/
def fresh (kind : NodeKind) (parents : List NodeId) (value? : Option Value) : Node where
  kind := kind
  parents := parents
  children := []
  depth := 0
  value? := value?
  provoked := false
  staged? := none
  changedIn := 0
  name? := none
  scope? := none

/-- The type of data the node produces; containers produce none. -/
def dataType? (n : Node) : Option DataType :=
  match n.kind with
  | .input t | .formula t _ => some t
  | .constant => n.value?.map Value.dataType
  | .triggerInput | .trigger _ => some .trigger
  | .scope _ | .functionGroup _ => none

def members? (n : Node) : Option Directory :=
  match n.kind with
  | .scope members => some members
  | _ => none

def firedIn (n : Node) (pass : Nat) : Bool := pass ≠ 0 && n.changedIn = pass

/-- What a rule sees of this node in a pass. -/
def toArg (n : Node) (pass : Nat) : Arg where
  value? := if n.kind.isTrigger then none else n.value?
  fired := n.firedIn pass
  isTrigger := n.kind.isTrigger

/-- What would become of the node, given what its rule sees of its parents. -/
def outcome (n : Node) (args : List Arg) : Outcome :=
  match n.kind with
  | .formula _ rule =>
    if args.any Arg.isMissing then .skip
    else match rule.compute args n.value? with
      | some v => if n.value? = some v then .unchanged else .value v
      | none => .unchanged
  | .trigger rule => if rule.fires args then .fire else .unchanged
  | .input _ | .constant =>
    match n.staged? with
    | some (.value v) => if n.value? = some v then .unchanged else .value v
    | _ => .unchanged
  | .triggerInput => if n.staged? = some .provoke then .fire else .unchanged
  | .scope _ | .functionGroup _ => .skip

/-- The node after an evaluation in a pass: nothing is staged any more, and the outcome has
happened. -/
def settled (n : Node) (pass : Nat) : Outcome → Node
  | .value v => { n with staged? := none, value? := some v, changedIn := pass }
  | .fire => { n with staged? := none, provoked := true, changedIn := pass }
  | .unchanged | .skip => { n with staged? := none }

/-- Adds a child at the end, unless it is one already. -/
def addChild (n : Node) (child : NodeId) : Node :=
  if child ∈ n.children then n else { n with children := n.children ++ [child] }

def removeChild (n : Node) (child : NodeId) : Node :=
  { n with children := n.children.filter (· ≠ child) }

/-- Changes the members of a scope; other nodes stay as they are. -/
def mapMembers (n : Node) (f : Directory → Directory) : Node :=
  match n.kind with
  | .scope members => { n with kind := .scope (f members) }
  | _ => n

end Node

/-- A node before it exists: what it is, and the value it starts with. -/
structure NodeSpec where
  kind : NodeKind
  initial? : Option Value

namespace NodeSpec

def input (t : DataType) : NodeSpec := ⟨.input t, none⟩

def inputWith (v : Value) : NodeSpec := ⟨.input v.dataType, some v⟩

def constant (v : Value) : NodeSpec := ⟨.constant, some v⟩

/-- A formula, which is computed as soon as it is created if its parents have values. -/
def formula (t : DataType) (rule : ValueRule) : NodeSpec := ⟨.formula t rule, none⟩

def triggerInput : NodeSpec := ⟨.triggerInput, none⟩

def trigger (rule : TriggerRule) : NodeSpec := ⟨.trigger rule, none⟩

/-- A derived node that runs by a behavior; a formula produces `t`. -/
def ofBehavior (t : DataType) (behavior : Behavior) : NodeSpec := ⟨.ofBehavior t behavior, none⟩

/-- The value to start with; a formula holds it until its first recomputation with a result. -/
def withValue (s : NodeSpec) (v : Value) : NodeSpec := { s with initial? := some v }

end NodeSpec

/-- The node that a conversion to `target` puts in front of its argument. -/
def CastRule.nodeSpec (rule : CastRule) (target : DataType) : NodeSpec :=
  .ofBehavior target rule.conversion.behavior

/-- The node that a call of a definition builds. -/
def FunctionDef.nodeSpec (d : FunctionDef) : NodeSpec := .ofBehavior d.result d.behavior

end Dataflow
