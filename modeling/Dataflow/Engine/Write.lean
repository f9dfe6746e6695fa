import Dataflow.Engine.Basic

/-!
# Writes from outside

Setting an input and provoking a trigger.  Both are staged until the next pass.  Setting an input to
the value that it holds withdraws whatever was staged for it.
-/

namespace Dataflow.Engine

variable {σ : Type}

/-- Stages a value for an input.  The answer is false if nothing would change. -/
def setInput (e : Engine σ) (id : NodeId) (v : Value) : Except GraphError (Bool × Engine σ) := do
  let n ← e.node id
  match n.kind with
  | .input expected =>
    if v.dataType ≠ expected then .error (.typeMismatch id expected v.dataType)
    else if n.value? = some v then
      if n.staged? = none then return (false, e)
      else
        return (true, { e with
          graph := e.graph.modify id fun n => { n with staged? := none }
          eval := e.eval.remove id })
    else if n.staged? = some (.value v) then return (false, e)
    else
      return (true, { e with
        graph := e.graph.modify id fun n => { n with staged? := some (.value v) }
        eval := e.eval.insert id n.depth })
  | _ => .error (.wrongKind id .input)

/-- Stages the firing of a trigger input.  The answer is false if it is staged already. -/
def provoke (e : Engine σ) (id : NodeId) : Except GraphError (Bool × Engine σ) := do
  let n ← e.node id
  match n.kind with
  | .triggerInput =>
    if n.staged? ≠ none then return (false, e)
    else
      return (true, { e with
        graph := e.graph.modify id fun n => { n with staged? := some .provoke }
        eval := e.eval.insert id n.depth })
  | _ => .error (.wrongKind id .triggerInput)

def applyEdit (e : Engine σ) : Edit → Except GraphError (Bool × Engine σ)
  | .setValue id v => e.setInput id v
  | .provoke id => e.provoke id

/-- Makes edits one after the other and counts those that are refused. -/
def applyEdits (e : Engine σ) (edits : List Edit) : Nat × Engine σ :=
  edits.foldl (fun (rejected, e) edit =>
    match e.applyEdit edit with
    | .ok (_, next) => (rejected, next)
    | .error _ => (rejected + 1, e)) (0, e)

end Dataflow.Engine
