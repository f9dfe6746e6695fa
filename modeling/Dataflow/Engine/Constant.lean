import Dataflow.Engine.Construction

/-!
# Constants

Equal constants can be shared: the engine keeps a table from values to the constants that hold them.
A constant whose value is changed leaves the table.
-/

namespace Dataflow.Engine

variable {σ : Type}

def shared? (e : Engine σ) (v : Value) : Option NodeId :=
  (e.constants.find? v).filter e.graph.contains

/-- A constant with the given value, shared with any other if constants are shared at all. -/
def constant (e : Engine σ) (v : Value) : Except GraphError (NodeId × Engine σ) :=
  match if e.config.dedupConstants then e.shared? v else none with
  | some id => .ok (id, e)
  | none => do
    let (id, created) ← e.createNode (.constant v) []
    if e.config.dedupConstants then
      return (id, { created with constants := created.constants.insert v id })
    else
      return (id, created)

/-- Shares a constant.  If there is an equal shared one and the constant has neither children nor a
name, it is removed in favor of the shared one; otherwise it stays as it is. -/
def intern (e : Engine σ) (id : NodeId) : Except GraphError (NodeId × Engine σ) := do
  let n ← e.node id
  match n.kind, n.value? with
  | .constant, none => return (id, e)
  | .constant, some v =>
    match e.shared? v with
    | some other =>
      if other = id ∨ n.children ≠ [] ∨ n.name? ≠ none then return (id, e)
      else return (other, ← e.removeNode id)
    | none => return (id, { e with constants := e.constants.insert v id })
  | _, _ => .error (.wrongKind id .constant)

/-- Refuses to fold a value into a node that is no constant, or that holds a value of another type. -/
def checkFold (id : NodeId) (n : Node) (v : Value) : Except GraphError Unit :=
  match n.kind, n.value? with
  | .constant, some old =>
    if old.dataType = v.dataType then .ok ()
    else .error (.typeMismatch id old.dataType v.dataType)
  | .constant, none => .ok ()
  | _, _ => .error (.wrongKind id .constant)

/-- Stages a new value for a constant.  The answer is false if nothing would change. -/
def setConstant (e : Engine σ) (id : NodeId) (v : Value) : Except GraphError (Bool × Engine σ) := do
  let n ← e.node id
  checkFold id n v
  if n.staged? = some (.value v) ∨ (n.staged? = none ∧ n.value? = some v) then return (false, e)
  else
    -- The table lists settled values, so the entry of the old one goes.
    let constants :=
      match n.value? with
      | some old => e.unshare old id
      | none => e.constants
    return (true, { e with
      graph := e.graph.modify id fun n => { n with staged? := some (.value v) }
      eval := e.eval.insert id n.depth
      constants := constants })

end Dataflow.Engine
