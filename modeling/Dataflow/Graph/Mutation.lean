import Dataflow.Graph.Depth
import Dataflow.Graph.Link
import Dataflow.Graph.Scope

/-!
# Mutations

What can be done with a graph on its own, apart from any engine, one change at a time, in any order.  A refused change
leaves the graph as it is.  Nodes are added as they are given, with the children, the place and the members that they
may have from another graph.
-/

namespace Dataflow.Graph

/-- A change of a graph. -/
inductive Mutation where
  | addNode (n : Node)
  | removeNode (id : NodeId)
  | addChild (parent child : NodeId)
  | removeChild (parent child : NodeId)
  | setParents (id : NodeId) (parents : List NodeId)
  | setScope (id scope : NodeId) (name : String)
  | settleDepths

/-- The graph after a change that may have been refused. -/
def accept (g : Graph) : Except GraphError Graph → Graph
  | .ok next => next
  | .error _ => g

def Mutation.apply : Mutation → Graph → Graph
  | addNode n, g => g.accept ((g.addNode n).map Prod.snd)
  | removeNode id, g => g.accept ((g.removeNode id).map Prod.snd)
  | addChild parent child, g => g.accept ((g.addChild parent child).map Prod.snd)
  | removeChild parent child, g => g.accept ((g.removeChild parent child).map Prod.snd)
  | setParents id parents, g => g.accept (g.setParents id parents)
  | setScope id scope name, g => g.accept (g.setScope id scope name)
  | settleDepths, g => g.settleDepths.2

/-- The graph after some changes, one after the other. -/
def mutate (g : Graph) (changes : List Mutation) : Graph := changes.foldl (fun g change => change.apply g) g

end Dataflow.Graph
