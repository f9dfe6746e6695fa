import Dataflow.Config
import Dataflow.Graph.Depth
import Dataflow.Graph.Link
import Dataflow.Observer
import Dataflow.Report

/-!
# Engines

An engine holds what a dataflow program needs while it runs: the graph, the nodes to be evaluated,
the conversions, the shared constants, the observers, and the work and the report of the pass under
way.  Writes from outside are only staged; a pass makes them visible.  An operation that is refused
gives no new engine, so that nothing changes.
-/

namespace Dataflow

/-- A running dataflow program.  Its observers work on a state of type `σ`. -/
structure Engine (σ : Type) where
  graph : Graph
  eval : PendingSet
  casts : CastRegistry
  /-- The constants that are shared, by value. -/
  constants : Table Value NodeId
  observers : ObserverTable σ
  /-- The work that waits for the end of the pass. -/
  tasks : List Task
  config : EngineConfig
  /-- The scope in which all paths begin. -/
  root : NodeId
  /-- The number of the last pass that evaluated anything. -/
  pass : Nat
  groupLevel : Nat
  /-- What the pass under way has done so far. -/
  report : PassReport
  host : σ

namespace Engine

variable {σ : Type}

/-- An engine with the root scope only and with the standard conversions. -/
def new (config : EngineConfig) (host : σ) : Engine σ :=
  let (root, graph) := Graph.empty.addScope
  { graph := graph
    eval := .empty
    casts := .standard
    constants := .empty
    observers := .empty
    tasks := []
    config := config
    root := root
    pass := 0
    groupLevel := 0
    report := .none
    host := host }

def node (e : Engine σ) (id : NodeId) : Except GraphError Node := e.graph.node id

def nodeCount (e : Engine σ) : Nat := e.graph.size

/-- The settled value of a node; staged values are not visible. -/
def value (e : Engine σ) (id : NodeId) : Except GraphError (Option Value) :=
  return (← e.node id).value?

def describe (e : Engine σ) (id : NodeId) : String := e.graph.describe id

/-- Makes a node pending for evaluation, under the depth stored for it. -/
def pendEval (e : Engine σ) (id : NodeId) : Engine σ :=
  { e with eval := e.eval.insertAll (e.graph.withDepths [id]) }

/-- The data type of a node; containers have none. -/
def dataType (e : Engine σ) (id : NodeId) : Except GraphError DataType := do
  match (← e.node id).dataType? with
  | some t => .ok t
  | none => .error (.wrongKind id .dataNode)

end Engine

end Dataflow
