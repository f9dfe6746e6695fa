import Dataflow.GraphError
import Dataflow.Node
import Dataflow.PendingSet
import Dataflow.Store

/-!
# Graphs

A graph is a store of nodes, linked by their lists of parents and children, together with the set of
nodes whose depth may be stale.  The depth of a node is 0 without parents, otherwise one more than
its deepest parent.  Edits leave depths alone and make the edited node pending; settling them is
left to the depth update.
-/

namespace Dataflow

/-- Nodes and the links between them. -/
structure Graph where
  store : Store Node
  /-- The nodes whose depth has to be computed anew. -/
  update : PendingSet

namespace Graph

def empty : Graph := ⟨.empty, .empty⟩

def node? (g : Graph) (id : NodeId) : Option Node := g.store.get? id

def node (g : Graph) (id : NodeId) : Except GraphError Node :=
  match g.node? id with
  | some n => .ok n
  | none => .error (.unknownNode id)

def contains (g : Graph) (id : NodeId) : Bool := g.store.contains id

def size (g : Graph) : Nat := g.store.size

/-- The nodes with their ids, by slot. -/
def nodes (g : Graph) : List (NodeId × Node) := g.store.entries

def depth (g : Graph) (id : NodeId) : Except GraphError Nat := return (← g.node id).depth

def modify (g : Graph) (id : NodeId) (f : Node → Node) : Graph :=
  { g with store := g.store.modify id f }

def pendUpdate (g : Graph) (id : NodeId) (depth : Nat) : Graph :=
  { g with update := g.update.insert id depth }

/-- The given nodes, as far as they exist, with their depths. -/
def withDepths (g : Graph) (ids : List NodeId) : List Pending :=
  ids.filterMap fun id => (g.node? id).map fun n => ⟨n.depth, id⟩

/-- One more than the greatest depth among the parents; 0 if there are none. -/
def depthBelow (g : Graph) (parents : List NodeId) : Except GraphError Nat := do
  let depths ← parents.mapM g.depth
  return depths.foldl (fun d parentDepth => max d (parentDepth + 1)) 0

/-- Refuses a parent that does not take part in evaluation. -/
def checkDataParent (g : Graph) (parent : NodeId) : Except GraphError Unit := do
  if (← g.node parent).kind.isData then .ok () else .error (.wrongKind parent .dataNode)

def linkChild (g : Graph) (parents : List NodeId) (child : NodeId) : Graph :=
  parents.foldl (fun g parent => g.modify parent (·.addChild child)) g

def unlinkChild (g : Graph) (parents : List NodeId) (child : NodeId) : Graph :=
  parents.foldl (fun g parent => g.modify parent (·.removeChild child)) g

/-- Adds a node below the parents that it lists.  Only derived nodes have parents, and parents take
part in evaluation.  While other depths are stale, the new one has to be confirmed too. -/
def addNode (g : Graph) (n : Node) : Except GraphError (NodeId × Graph) :=
  if n.parents ≠ [] ∧ n.kind.isDerived = false then
    .error (.unexpectedParents n.kind.label)
  else do
    n.parents.forM g.checkDataParent
    let depth ← g.depthBelow n.parents
    let (id, store) := g.store.insert { n with depth := depth }
    let linked := { g with store := store }.linkChild n.parents id
    return (id, if g.update.isEmpty then linked else linked.pendUpdate id depth)

def addScope (g : Graph) : NodeId × Graph :=
  let (id, store) := g.store.insert (.fresh (.scope .empty) [] none)
  (id, { g with store := store })

/-- Takes a node out of its scope, if it is in one. -/
def detach (g : Graph) (id : NodeId) : Graph :=
  match g.node? id with
  | some { name? := some name, scope? := some scope, .. } =>
    (g.modify scope (·.mapMembers (·.erase name))).modify id fun n =>
      { n with name? := none, scope? := none }
  | _ => g

/-- Unlinks and removes a node that no other node depends on, and gives it back. -/
def removeNode (g : Graph) (id : NodeId) : Except GraphError (Node × Graph) := do
  let n ← g.node id
  let members := (n.members?.map Directory.size).getD 0
  if n.children ≠ [] then .error (.danglingChild id n.children.length)
  else if members ≠ 0 then .error (.danglingChild id members)
  else
    let detached := g.detach id
    match detached.store.remove? id with
    | none => .error (.unknownNode id)
    | some (removed, store) =>
      let unlinked := { detached with store := store }.unlinkChild removed.parents id
      return (removed, { unlinked with update := unlinked.update.remove id })

end Graph

end Dataflow
