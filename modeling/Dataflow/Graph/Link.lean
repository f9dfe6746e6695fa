import Dataflow.Graph.Basic

/-!
# Links

Links between existing nodes.  A link that would let a node depend on itself is refused before
anything changes: before a link from parent to child is made, the descendants of the child are
searched for the parent.
-/

namespace Dataflow.Graph

/-- Looks for `target` among the descendants of the nodes on the stack, the topmost first.  `seen`
holds the nodes that have been on the stack. -/
def searchBelow (g : Graph) (target : NodeId) :
    Nat → List NodeId → List NodeId → Except GraphError Bool
  | 0, _, _ => .ok false
  | _ + 1, _, [] => .ok false
  | fuel + 1, seen, id :: stack => do
    let children := (← g.node id).children
    if target ∈ children then .ok true
    else
      -- The children are pushed in their order, so that the last one comes out first.
      let unseen := children.filter (· ∉ seen)
      g.searchBelow target fuel (unseen ++ seen) (unseen.reverse ++ stack)

/-- The one node is the other, or a descendant of it by way of children. -/
def reaches (g : Graph) (source target : NodeId) : Except GraphError Bool :=
  if source = target then .ok true else g.searchBelow target (g.size + 2) [] [source]

/-- Refuses a link by which `parent` would depend on itself. -/
def checkAcyclic (g : Graph) (parent child : NodeId) : Except GraphError Unit := do
  if ← g.reaches child parent then .error (.graphCycle parent child) else .ok ()

/-- Makes `parent` the last parent of `child`.  The answer is false if it is one of them already. -/
def addChild (g : Graph) (parent child : NodeId) : Except GraphError (Bool × Graph) := do
  g.checkDataParent parent
  let n ← g.node child
  if n.kind.isDerived = false then .error (.wrongKind child .derivedNode)
  else if parent ∈ n.parents then .ok (false, g)
  else
    g.checkAcyclic parent child
    let linked := (g.linkChild [parent] child).modify child fun n =>
      { n with parents := n.parents ++ [parent] }
    return (true, linked.pendUpdate child n.depth)

/-- Removes every link from `parent` to `child`.  The answer is false if there is none. -/
def removeChild (g : Graph) (parent child : NodeId) : Except GraphError (Bool × Graph) := do
  discard (g.node parent)
  let n ← g.node child
  if parent ∉ n.parents then .ok (false, g)
  else
    let orphaned := g.modify child fun n => { n with parents := n.parents.filter (· ≠ parent) }
    return (true, (orphaned.unlinkChild [parent] child).pendUpdate child n.depth)

def setParents (g : Graph) (id : NodeId) (parents : List NodeId) : Except GraphError Graph := do
  let n ← g.node id
  if n.kind.isDerived = false ∧ parents ≠ [] then .error (.wrongKind id .derivedNode)
  else
    parents.forM fun parent => do
      g.checkDataParent parent
      g.checkAcyclic parent id
    let dropped := n.parents.filter (· ∉ parents)
    let linked := ((g.unlinkChild dropped id).linkChild parents id).modify id fun n =>
      { n with parents := parents }
    return linked.pendUpdate id n.depth

end Dataflow.Graph
