import Dataflow.Graph.Basic
import Dataflow.Name

/-!
# Scopes

Named nodes are members of scopes, which are nodes too, so that scopes form a tree and named nodes
have paths.  The scope of a node is no parent of it: it is not an argument and does not count toward
the depth.  A scope is never placed inside itself.
-/

namespace Dataflow.Graph

/-- Looks for `outer` among the given number of scopes from `inner` outward. -/
def enclosesWithin (g : Graph) (outer : NodeId) : Nat → NodeId → Except GraphError Bool
  | 0, _ => .ok false
  | fuel + 1, inner =>
    if inner = outer then .ok true
    else do
      match (← g.node inner).scope? with
      | none => return false
      | some scope => g.enclosesWithin outer fuel scope

/-- `outer` is `inner` or one of the scopes around it. -/
def encloses (g : Graph) (outer inner : NodeId) : Except GraphError Bool :=
  g.enclosesWithin outer (g.size + 1) inner

/-- Refuses to place a node, or one that does not exist yet, in a scope under a name. -/
def checkScope (g : Graph) (node? : Option NodeId) (scope : NodeId) (name : String) :
    Except GraphError Unit :=
  if Name.isValid name = false then .error (.invalidName name)
  else do
    match (← g.node scope).members? with
    | none => .error (.wrongKind scope .scope)
    | some members =>
      let existing := members.find? name
      if existing ≠ none ∧ existing ≠ node? then .error (.duplicateName scope name)
      else
        match node? with
        | none => .ok ()
        | some id =>
          discard (g.node id)
          if ← g.encloses id scope then .error (.graphCycle scope id) else .ok ()

def setScope (g : Graph) (id scope : NodeId) (name : String) : Except GraphError Graph := do
  g.checkScope (some id) scope name
  return ((g.detach id).modify scope (·.mapMembers (·.insert name id))).modify id fun n =>
    { n with name? := some name, scope? := some scope }

/-- The member of a member, and so on, by the names given. -/
def descend (g : Graph) (path : String) : NodeId → List String → Except GraphError NodeId
  | id, [] => .ok id
  | id, name :: rest => do
    match (← g.node id).members?.bind (·.find? name) with
    | none => .error (.notFound path)
    | some member => g.descend path member rest

def lookup (g : Graph) (scope : NodeId) (path : String) : Except GraphError NodeId :=
  match Name.ofPath? path with
  | none => .error (.invalidName path)
  | some names => g.descend path scope names

/-- The names of the given number of scopes from a node outward, the outermost first. -/
def namesWithin (g : Graph) : Nat → NodeId → Except GraphError (List String)
  | 0, _ => .ok []
  | fuel + 1, id => do
    let n ← g.node id
    let outer ←
      match n.scope? with
      | none => pure []
      | some scope => g.namesWithin fuel scope
    return outer ++ n.name?.toList

/-- The path of a node from the outermost scope; none if neither the node nor a scope around it has
a name. -/
def pathOf (g : Graph) (id : NodeId) : Except GraphError (Option String) := do
  let names ← g.namesWithin (g.size + 1) id
  return if names = [] then none else some (Name.toPath names)

/-- A node in a line: its path or else its id, its kind, and its value or that it has been
provoked. -/
def describe (g : Graph) (id : NodeId) : String :=
  match g.node? id with
  | none => id.toText ++ " <removed>"
  | some n =>
    let title :=
      match g.pathOf id with
      | .ok (some path) => path
      | _ => id.toText
    let subject := title ++ " " ++ n.kind.label
    match n.value? with
    | some v => subject ++ " = " ++ v.toText
    | none => if n.provoked then subject ++ " (provoked)" else subject

end Dataflow.Graph
