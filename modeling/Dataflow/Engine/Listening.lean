import Dataflow.Engine.Pass

/-!
# Passes with a listener

A pass one node after the other.  Everything that becomes of a node becomes of it at once, in the graph, in the report
and in the queued work, and then it is told to a listener, if there is one.
-/

namespace Dataflow

/-- Someone who is told of the nodes that a pass comes to, and what they know by now. -/
structure Listener (α : Type) where
  state : α
  hear : PassEvent → α → α

namespace Listener

variable {α : Type}

/-- A listener who keeps all that they are told. -/
def recording : Listener (List PassEvent) := ⟨[], fun event events => events ++ [event]⟩

/-- Tells the listener of an event, if there is a listener. -/
def tell (listener? : Option (Listener α)) (event : PassEvent) : Option (Listener α) :=
  listener?.map fun l => { l with state := l.hear event l.state }

end Listener

/-- An engine in the middle of an evaluation. -/
structure Evaluating (σ α : Type) where
  engine : Engine σ
  fired : List NodeId
  listener? : Option (Listener α)

/-- The state in the middle of the end of a pass. -/
structure Finalizing (σ α : Type) where
  graph : Graph
  host : σ
  edits : List Edit
  calls : Nat
  listener? : Option (Listener α)

namespace Engine.Listening

variable {σ α : Type}

def drainUpdate (e : Engine σ) (listener? : Option (Listener α)) : Nat × Engine σ × Option (Listener α) :=
  if e.graph.update.isEmpty then (0, e, listener?)
  else
    let (done, graph) := e.graph.settleDepths
    let touched := done.filterMap fun s => s.depth?.map fun depth => (s.entry.node, depth)
    let told := touched.foldl (fun l? (id, depth) => Listener.tell l? ⟨.update, depth, id, graph.describe id⟩) listener?
    let changes := done.countP Settling.changed
    let eval := if changes = 0 then e.eval else e.eval.rekey fun id => (graph.node? id).map Node.depth
    let report := { e.report with depthUpdates := e.report.depthUpdates + changes }
    (changes, { e with graph := graph, eval := eval, report := report }, told)

/-- What the outcome for a node leaves in the report. -/
def note (r : PassReport) (id : NodeId) : Outcome → PassReport
  | .value _ => { r with changed := r.changed ++ [id], evaluated := r.evaluated + 1 }
  | .fire => { r with fired := r.fired ++ [id], evaluated := r.evaluated + 1 }
  | .unchanged => { r with evaluated := r.evaluated + 1 }
  | .skip => r

/-- Evaluates a node that has been taken out. -/
def evaluate (pass : Nat) (s : Evaluating σ α) (entry : Pending) (rest : PendingSet) : Evaluating σ α :=
  let e := s.engine
  match e.graph.visit? pass rest entry with
  | none => { s with engine := { e with eval := rest } }
  | some (v, graph, eval) =>
    let next := { e with
      graph := graph
      eval := eval
      tasks := e.tasks ++ e.observers.tasksAfter v
      report := note e.report entry.node v.outcome }
    match v.outcome with
    | .skip => { s with engine := next }
    | outcome =>
      { engine := next
        fired := if outcome = .fire then s.fired ++ [entry.node] else s.fired
        listener? := Listener.tell s.listener? ⟨.eval, entry.depth, entry.node, graph.describe entry.node⟩ }

/-- Evaluates what is pending, up to so many nodes. -/
def evaluateWithin (pass : Nat) : Nat → Evaluating σ α → Evaluating σ α
  | 0, s => s
  | fuel + 1, s =>
    match s.engine.eval.pop? with
    | none => s
    | some (entry, rest) => evaluateWithin pass fuel (evaluate pass s entry rest)

def drainEval (e : Engine σ) (listener? : Option (Listener α)) : List NodeId × Engine σ × Option (Listener α) :=
  let (_, e, told) := drainUpdate e listener?
  if e.eval.isEmpty then ([], e, told)
  else
    let pass := e.pass + 1
    let start := { e with pass := pass, report := { e.report with pass := pass } }
    let s := evaluateWithin pass (e.eval.size + e.graph.size + 1) ⟨start, [], told⟩
    (s.fired, s.engine, s.listener?)

/-- Does one piece of the queued work.  The listener is told of a trigger after it has been reset. -/
def perform (observers : ObserverTable σ) (f : Finalizing σ α) : Task → Finalizing σ α
  | .reset id =>
    match f.graph.node? id with
    | none => f
    | some n =>
      let graph := f.graph.modify id fun n => { n with provoked := false }
      { f with
        graph := graph
        listener? := Listener.tell f.listener? ⟨.finalize, n.depth, id, graph.describe id⟩ }
  | .notify id notification =>
    match observers.find? id with
    | none => f
    | some o =>
      let (edits, host) := o.callback notification f.edits f.host
      { f with host := host, edits := edits, calls := f.calls + 1 }

def finalize (e : Engine σ) (listener? : Option (Listener α)) : PassReport × Engine σ × Option (Listener α) :=
  let f := e.tasks.foldl (perform e.observers) ⟨e.graph, e.host, [], 0, listener?⟩
  let settled := { e with graph := f.graph, host := f.host, tasks := [], report := .none }
  let (rejected, next) := settled.applyEdits f.edits
  let report := { e.report with
    notifications := e.report.notifications + f.calls
    queuedEdits := f.edits.length
    rejectedEdits := e.report.rejectedEdits + rejected }
  (report, next, f.listener?)

/-- Runs a pass.  Inside a group nothing is done, and nothing is told. -/
def runPass (e : Engine σ) (listener? : Option (Listener α)) : PassReport × Engine σ × Option (Listener α) :=
  if e.groupLevel > 0 then (.none, e, listener?)
  else
    let (_, evaluated, told) := drainEval e listener?
    finalize evaluated told

end Engine.Listening

end Dataflow
