import Dataflow.Engine.Basic

/-!
# Registering observers

An observer waits for a value node to change or for a trigger to fire.  Removing an observer also
drops the calls to it that are still queued.
-/

namespace Dataflow.Engine

variable {σ : Type}

def register (e : Engine σ) (o : Observer σ) : ObserverId × Engine σ :=
  let (id, observers) := e.observers.register o
  (id, { e with observers := observers })

/-- Calls back at the end of every pass in which the value of a node changed. -/
def onValue (e : Engine σ) (id : NodeId) (callback : Callback σ) :
    Except GraphError (ObserverId × Engine σ) := do
  let kind := (← e.node id).kind
  if kind.isTrigger || !kind.isData then .error (.wrongKind id .valueNode)
  else return e.register ⟨id, .value, callback⟩

/-- Calls back at the end of every pass in which a trigger fired. -/
def onProvoked (e : Engine σ) (id : NodeId) (callback : Callback σ) :
    Except GraphError (ObserverId × Engine σ) := do
  if (← e.node id).kind.isTrigger then return e.register ⟨id, .provoke, callback⟩
  else .error (.wrongKind id .trigger)

/-- Removes an observer.  The answer is false if it is not registered. -/
def removeObserver (e : Engine σ) (id : ObserverId) : Bool × Engine σ :=
  if (e.observers.find? id).isSome then
    (true, { e with
      observers := e.observers.unregister id
      tasks := e.tasks.filter fun task => !task.isCallOf id })
  else (false, e)

end Dataflow.Engine
