import Dataflow.Engine.Write

/-!
# Passes

A pass has three stages: it settles depths, evaluates what is pending, and then resets the triggers
that fired and calls observers.  Any number of writes between two passes are taken up by one pass,
and so are all writes in a group of edits.  Every stage also gives the events that a listener would
hear of.
-/

namespace Dataflow.Engine

variable {σ : Type}

/-! ### Settling depths -/

/-- The events of a depth update: each node that was taken out, with the depth computed for it. -/
def settlingEvents (g : Graph) (done : List Settling) : List PassEvent :=
  done.filterMap fun s => s.depth?.map fun depth =>
    ⟨.update, depth, s.entry.node, g.describe s.entry.node⟩

/-- Settles depths and puts the nodes pending for evaluation under their new depths.  The number is
how often a depth was changed. -/
def drainUpdate (e : Engine σ) : Nat × List PassEvent × Engine σ :=
  if e.graph.update.isEmpty then (0, [], e)
  else
    let (done, graph) := e.graph.settleDepths
    let changes := done.countP Settling.changed
    -- Nodes wait for evaluation under stored depths, which have just moved.
    let eval :=
      if changes = 0 then e.eval else e.eval.rekey fun id => (graph.node? id).map Node.depth
    let report := { e.report with depthUpdates := e.report.depthUpdates + changes }
    (changes, settlingEvents graph done, { e with graph := graph, eval := eval, report := report })

/-! ### Evaluation -/

def changedNodes (visits : List Visit) : List NodeId :=
  visits.filterMap fun v =>
    match v.outcome with
    | .value _ => some v.entry.node
    | _ => none

def firedNodes (visits : List Visit) : List NodeId :=
  visits.filterMap fun v => if v.outcome = .fire then some v.entry.node else none

/-- The events of an evaluation: each node that was evaluated, with the depth it was pending
under. -/
def visitEvents (visits : List Visit) : List PassEvent :=
  (visits.filter Visit.isEvaluation).map fun v =>
    ⟨.eval, v.entry.depth, v.entry.node, v.description⟩

def addVisits (r : PassReport) (pass : Nat) (visits : List Visit) : PassReport :=
  { r with
    pass := pass
    evaluated := r.evaluated + visits.countP Visit.isEvaluation
    changed := r.changed ++ changedNodes visits
    fired := r.fired ++ firedNodes visits }

/-- Settles depths, then evaluates all pending nodes and all nodes affected by them.  There is a new
pass number if there is anything pending.  The work for the end of the pass is queued, and the
triggers that fired are listed. -/
def drainEval (e : Engine σ) : List NodeId × List PassEvent × Engine σ :=
  let (_, events, e) := e.drainUpdate
  if e.eval.isEmpty then ([], events, e)
  else
    let pass := e.pass + 1
    let (visits, graph, eval) := e.graph.propagate pass e.eval
    let next := { e with
      graph := graph
      eval := eval
      pass := pass
      tasks := e.tasks ++ visits.flatMap e.observers.tasksAfter
      report := addVisits e.report pass visits }
    (firedNodes visits, events ++ visitEvents visits, next)

/-! ### The end of a pass -/

/-- The state while the queued work is done. -/
structure Finalization (σ : Type) where
  graph : Graph
  host : σ
  edits : List Edit
  calls : Nat
  events : List PassEvent

/-- Resets a trigger, or calls an observer if it is still registered. -/
def Finalization.perform (observers : ObserverTable σ) (f : Finalization σ) : Task → Finalization σ
  | .reset id =>
    match f.graph.node? id with
    | none => f
    | some n =>
      let graph := f.graph.modify id fun n => { n with provoked := false }
      { f with graph := graph, events := f.events ++ [⟨.finalize, n.depth, id, graph.describe id⟩] }
  | .notify id notification =>
    match observers.find? id with
    | none => f
    | some o =>
      let (edits, host) := o.callback notification f.edits f.host
      { f with host := host, edits := edits, calls := f.calls + 1 }

/-- Does the queued work, gives the report out, and makes the edits that observers asked for. -/
def finalize (e : Engine σ) : PassReport × List PassEvent × Engine σ :=
  let f := e.tasks.foldl (Finalization.perform e.observers) ⟨e.graph, e.host, [], 0, []⟩
  let settled := { e with graph := f.graph, host := f.host, tasks := [], report := .none }
  let (rejected, next) := settled.applyEdits f.edits
  let report := { e.report with
    notifications := e.report.notifications + f.calls
    queuedEdits := f.edits.length
    rejectedEdits := e.report.rejectedEdits + rejected }
  (report, f.events, next)

/-! ### Passes and groups -/

/-- Runs a pass.  Inside a group nothing is done: the pass is left to the end of the group. -/
def runPass (e : Engine σ) : PassReport × List PassEvent × Engine σ :=
  if e.groupLevel > 0 then (.none, [], e)
  else
    let (_, evalEvents, evaluated) := e.drainEval
    let (report, finalEvents, next) := evaluated.finalize
    (report, evalEvents ++ finalEvents, next)

/-- Makes edits inside a group of their own. -/
def grouped {α : Type} (e : Engine σ) (edits : Engine σ → α × Engine σ) : α × Engine σ :=
  let (out, next) := edits { e with groupLevel := e.groupLevel + 1 }
  (out, { next with groupLevel := next.groupLevel - 1 })

/-- Makes edits, then runs one pass.  Groups may be nested, and only the outermost one runs the
pass. -/
def group {α : Type} (e : Engine σ) (edits : Engine σ → α × Engine σ) : α × PassReport × Engine σ :=
  let (out, next) := e.grouped edits
  let (report, _, last) := next.runPass
  (out, report, last)

end Dataflow.Engine
