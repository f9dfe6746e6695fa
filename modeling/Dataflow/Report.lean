import Dataflow.NodeId

/-!
# Reports

What a pass did: event by event, and in sum.
-/

namespace Dataflow

inductive Phase where
  | update
  | eval
  | finalize
  deriving DecidableEq

def Phase.name : Phase → String
  | update => "update"
  | eval => "eval"
  | finalize => "finalize"

/-- A node that a pass came to. -/
structure PassEvent where
  phase : Phase
  depth : Nat
  node : NodeId
  description : String
  deriving DecidableEq

namespace PassEvent

def nodesIn (events : List PassEvent) (phase : Phase) : List NodeId :=
  (events.filter (·.phase = phase)).map PassEvent.node

def countFor (events : List PassEvent) (node : NodeId) (phase : Phase) : Nat :=
  events.countP fun e => e.node = node && e.phase = phase

end PassEvent

/-- What a pass did in sum. -/
structure PassReport where
  /-- The number of the pass; 0 if nothing was evaluated. -/
  pass : Nat
  /-- How often the depth of a node was changed. -/
  depthUpdates : Nat
  evaluated : Nat
  /-- The value nodes that changed, in the order of evaluation. -/
  changed : List NodeId
  /-- The triggers that fired, in the order of evaluation. -/
  fired : List NodeId
  /-- How many observers were called. -/
  notifications : Nat
  /-- How many edits were queued after the last of them. -/
  queuedEdits : Nat
  /-- How many of these could not be made. -/
  rejectedEdits : Nat
  deriving DecidableEq

namespace PassReport

/-- The report of a pass that did nothing. -/
def none : PassReport := ⟨0, 0, 0, [], [], 0, 0, 0⟩

/-- The pass did nothing at all. -/
def isEmpty (r : PassReport) : Bool :=
  r.depthUpdates = 0 && r.evaluated = 0 && r.changed.isEmpty && r.fired.isEmpty &&
    r.notifications = 0 && r.queuedEdits = 0

end PassReport

end Dataflow
