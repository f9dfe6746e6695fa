import Dataflow.Engine.Construction
import Dataflow.StandardLibrary

/-!
# Names in an engine

Scopes, paths and function groups.  Paths begin in the root scope.
-/

namespace Dataflow.Engine

variable {σ : Type}

def lookup (e : Engine σ) (path : String) : Except GraphError NodeId := e.graph.lookup e.root path

def createScope (e : Engine σ) (scope : NodeId) (name : String) :
    Except GraphError (NodeId × Engine σ) := do
  e.graph.checkScope none scope name
  let (id, added) := e.graph.addScope
  let graph ← added.setScope id scope name
  return (id, { e with graph := graph })

def setScope (e : Engine σ) (id scope : NodeId) (name : String) : Except GraphError (Engine σ) := do
  let graph ← e.graph.setScope id scope name
  return { e with graph := graph }

/-- The members of a scope, sorted by name. -/
def members (e : Engine σ) (id : NodeId) : Except GraphError (List (String × NodeId)) := do
  match (← e.node id).members? with
  | some members => .ok members.entries
  | none => .error (.wrongKind id .scope)

/-- Stores a function group in a scope under its own name. -/
def defineFunction (e : Engine σ) (scope : NodeId) (group : FunctionGroup) :
    Except GraphError (NodeId × Engine σ) := do
  e.graph.checkScope none scope group.name
  let (id, added) ← e.graph.addNode (.fresh (.functionGroup group) [] none)
  let graph ← added.setScope id scope group.name
  return (id, { e with graph := graph })

/-- Stores function groups one after the other, up to the first that is refused. -/
def defineAll (e : Engine σ) (scope : NodeId) :
    List FunctionGroup → Except GraphError Unit × Engine σ
  | [] => (.ok (), e)
  | group :: rest =>
    match e.defineFunction scope group with
    | .ok (_, next) => next.defineAll scope rest
    | .error err => (.error err, e)

/-- Stores the standard library in the root scope.  Where a group is refused, those before it
stay. -/
def installLibrary (e : Engine σ) : Except GraphError Unit × Engine σ :=
  e.defineAll e.root (StandardLibrary.groups e.config.maxVariadicArgs)

end Dataflow.Engine
