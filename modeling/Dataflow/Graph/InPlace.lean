import Dataflow.Graph.Link
import Dataflow.Graph.Scope
import Dataflow.Stepwise

/-!
# Editing a graph in place

The edits of graphs, with the changes made one after the other to the nodes that they concern.  Each of these changes
may be refused because a node is missing, when others have been made already.
-/

namespace Dataflow.Graph.InPlace

open Stepwise

/-- Changes a node, which has to exist. -/
def alter (id : NodeId) (f : Node → Node) : Stepwise Graph Unit := do
  let _ ← read (·.node id)
  change (·.modify id f)

/-- Stores a node. -/
def store (n : Node) : Stepwise Graph NodeId :=
  modifyGet fun g =>
    let (id, store) := g.store.insert n
    (id, { g with store := store })

/-- Takes a node out, without regard to its links. -/
def take (id : NodeId) : Stepwise Graph Node := fun g =>
  match g.store.remove? id with
  | some (n, store) => .ok n { g with store := store }
  | none => .error (.unknownNode id) g

def addNode (n : Node) : Stepwise Graph NodeId :=
  if n.parents ≠ [] ∧ n.kind.isDerived = false then throw (.unexpectedParents n.kind.label)
  else do
    read fun g => n.parents.forM g.checkDataParent
    let depth ← read fun g => g.depthBelow n.parents
    let id ← store n
    alter id fun n => { n with depth := depth }
    n.parents.forM fun parent => alter parent (·.addChild id)
    change fun g => if g.update.isEmpty then g else g.pendUpdate id depth
    return id

def detach (id : NodeId) : Stepwise Graph Unit := do
  let n ← read (·.node id)
  match n.name?, n.scope? with
  | some name, some scope => do
    change (·.modify scope (·.mapMembers (·.erase name)))
    alter id fun n => { n with name? := none, scope? := none }
  | _, _ => return ()

def removeNode (id : NodeId) : Stepwise Graph Node := do
  let n ← read (·.node id)
  let members := (n.members?.map Directory.size).getD 0
  if n.children ≠ [] then throw (.danglingChild id n.children.length)
  else if members ≠ 0 then throw (.danglingChild id members)
  else do
    detach id
    let removed ← take id
    change (·.unlinkChild removed.parents id)
    change fun g => { g with update := g.update.remove id }
    return removed

def setScope (id scope : NodeId) (name : String) : Stepwise Graph Unit := do
  read (·.checkScope (some id) scope name)
  detach id
  alter scope (·.mapMembers (·.insert name id))
  alter id fun n => { n with name? := some name, scope? := some scope }

def addChild (parent child : NodeId) : Stepwise Graph Bool := do
  read (·.checkDataParent parent)
  let n ← read (·.node child)
  if n.kind.isDerived = false then throw (.wrongKind child .derivedNode)
  else if parent ∈ n.parents then return false
  else do
    read (·.checkAcyclic parent child)
    alter parent (·.addChild child)
    alter child fun n => { n with parents := n.parents ++ [parent] }
    change (·.pendUpdate child n.depth)
    return true

def removeChild (parent child : NodeId) : Stepwise Graph Bool := do
  let _ ← read (·.node parent)
  let n ← read (·.node child)
  if parent ∉ n.parents then return false
  else do
    alter child fun n => { n with parents := n.parents.filter (· ≠ parent) }
    alter parent (·.removeChild child)
    change (·.pendUpdate child n.depth)
    return true

def setParents (id : NodeId) (parents : List NodeId) : Stepwise Graph Unit := do
  let n ← read (·.node id)
  if n.kind.isDerived = false ∧ parents ≠ [] then throw (.wrongKind id .derivedNode)
  else do
    read fun g => parents.forM fun parent => do
      g.checkDataParent parent
      g.checkAcyclic parent id
    (n.parents.filter (· ∉ parents)).forM fun parent => alter parent (·.removeChild id)
    parents.forM fun parent => alter parent (·.addChild id)
    alter id fun n => { n with parents := parents }
    change (·.pendUpdate id n.depth)

end Dataflow.Graph.InPlace
