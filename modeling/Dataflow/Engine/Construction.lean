import Dataflow.Engine.Basic

/-!
# Construction

Creating, linking and removing the nodes of an engine.  A formula is computed once when it is
created.  A node whose links change is evaluated in the next pass.
-/

namespace Dataflow.Engine

variable {σ : Type}

/-- Computes a new formula, outside of any pass, if its parents have values. -/
def computeFirst (g : Graph) (id : NodeId) : Graph :=
  match g.node? id with
  | none => g
  | some n =>
    match n.kind, (g.args? 0 n.parents).map n.outcome with
    | .formula _ _, some (.value v) => g.modify id (·.settled 0 (.value v))
    | _, _ => g

/-- Refuses an initial value that is not of the declared type. -/
def checkInitial (spec : NodeSpec) : Except GraphError Unit :=
  match spec.kind.declaredType?, spec.initial?.map Value.dataType with
  | some declared, some found =>
    if found = declared then .ok () else .error (.noCastPath found declared)
  | _, _ => .ok ()

/-- Creates a node below the given parents.  Triggers and containers take no initial value. -/
def createNode (e : Engine σ) (spec : NodeSpec) (parents : List NodeId) :
    Except GraphError (NodeId × Engine σ) := do
  checkInitial spec
  let initial? := if spec.kind.isTrigger || !spec.kind.isData then none else spec.initial?
  let (id, graph) ← e.graph.addNode (.fresh spec.kind parents initial?)
  return (id, { e with graph := computeFirst graph id })

def createNamed (e : Engine σ) (scope : NodeId) (name : String) (spec : NodeSpec)
    (parents : List NodeId) : Except GraphError (NodeId × Engine σ) := do
  e.graph.checkScope none scope name
  let (id, created) ← e.createNode spec parents
  let graph ← created.graph.setScope id scope name
  return (id, { created with graph := graph })

def input (e : Engine σ) (t : DataType) : Except GraphError (NodeId × Engine σ) :=
  e.createNode (.input t) []

def inputWith (e : Engine σ) (v : Value) : Except GraphError (NodeId × Engine σ) :=
  e.createNode (.inputWith v) []

def triggerInput (e : Engine σ) : Except GraphError (NodeId × Engine σ) :=
  e.createNode .triggerInput []

/-- The shared constants without the entry under a value, if that entry is the given node. -/
def unshare (e : Engine σ) (v : Value) (id : NodeId) : Table Value NodeId :=
  if e.constants.find? v = some id then e.constants.erase v else e.constants

/-- Removes a node that nothing depends on, together with its pending work and its observers. -/
def removeNode (e : Engine σ) (id : NodeId) : Except GraphError (Engine σ) :=
  if id = e.root then .error (.wrongKind id .removableNode)
  else do
    let (removed, graph) ← e.graph.removeNode id
    let constants :=
      match removed.kind, removed.value? with
      | .constant, some v => e.unshare v id
      | _, _ => e.constants
    return { e with
      graph := graph
      eval := e.eval.remove id
      constants := constants
      observers := e.observers.forget id
      tasks := e.tasks.filter (·.node ≠ id) }

/-- Makes a node read one more parent, as its last argument.  The answer is false if it does so
already. -/
def addChild (e : Engine σ) (parent child : NodeId) : Except GraphError (Bool × Engine σ) := do
  let (added, graph) ← e.graph.addChild parent child
  return (added, if added then { e with graph := graph }.pendEval child else e)

/-- Makes a node read one parent less.  The answer is false if it does not read that parent. -/
def removeChild (e : Engine σ) (parent child : NodeId) : Except GraphError (Bool × Engine σ) := do
  let (removed, graph) ← e.graph.removeChild parent child
  return (removed, if removed then { e with graph := graph }.pendEval child else e)

def setParents (e : Engine σ) (id : NodeId) (parents : List NodeId) :
    Except GraphError (Engine σ) := do
  let graph ← e.graph.setParents id parents
  return { e with graph := graph }.pendEval id

end Dataflow.Engine
