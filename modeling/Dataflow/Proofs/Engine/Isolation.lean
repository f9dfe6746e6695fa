import Dataflow.Proofs.Engine.Finalization

/-!
# Isolation from observers

Observers do not see the graph, and what they ask for is done when a pass is over.  So a pass does the same with and
without them (`unobserved`), except for what their edits leave staged for the next one (`restaged_runPass`), and two
engines that differ only in their observers differ after a pass in nothing else.
-/

namespace Dataflow

open Dataflow.Graph

variable {σ τ : Type} {e : Engine σ}

/-- The work resets a trigger. -/
def Task.isReset : Task → Bool
  | reset _ => true
  | notify _ _ => false

/-- The report without the numbers of calls and of edits. -/
def PassReport.uncounted (r : PassReport) : PassReport :=
  { r with notifications := 0, queuedEdits := 0, rejectedEdits := 0 }

/-- Apart from the calls, the work that the evaluation of a node leaves is the same for all observers. -/
theorem ObserverTable.resets_tasksAfter (t : ObserverTable σ) (v : Visit) :
    (t.tasksAfter v).filter Task.isReset = (ObserverTable.empty : ObserverTable Unit).tasksAfter v := by
  have hcalls : ∀ (ids : List ObserverId) (news : Notification),
      (ids.map fun id => Task.notify id news).filter Task.isReset = [] := by
    intro ids news
    rw [List.filter_eq_nil_iff]
    intro task htask
    obtain ⟨id, -, rfl⟩ := List.mem_map.1 htask
    exact Bool.false_ne_true
  unfold tasksAfter
  cases v.outcome with
  | value w => exact hcalls _ _
  | fire => exact congrArg (Task.reset v.entry.node :: ·) (hcalls _ _)
  | unchanged => rfl
  | skip => rfl

namespace Engine

/-- The engine without its observers and the queued calls of them. -/
def unobserved (e : Engine σ) : Engine Unit where
  graph := e.graph
  eval := e.eval
  casts := e.casts
  constants := e.constants
  observers := .empty
  tasks := e.tasks.filter Task.isReset
  config := e.config
  root := e.root
  pass := e.pass
  groupLevel := e.groupLevel
  report := e.report
  host := ()

/-! ### Evaluation -/

private theorem drainUpdate_unobserved (e : Engine σ) :
    e.unobserved.drainUpdate = (e.drainUpdate.1, e.drainUpdate.2.1, e.drainUpdate.2.2.unobserved) := by
  unfold drainUpdate
  have hgraph : e.unobserved.graph = e.graph := rfl
  rw [hgraph]
  split <;> rfl

/-- An evaluation is the same without observers, but for the calls that it queues. -/
theorem drainEval_unobserved (e : Engine σ) :
    e.unobserved.drainEval = (e.drainEval.1, e.drainEval.2.1, e.drainEval.2.2.unobserved) := by
  unfold drainEval
  rw [drainUpdate_unobserved]
  generalize e.drainUpdate = d
  obtain ⟨changed, events, e₁⟩ := d
  have heval : e₁.unobserved.eval = e₁.eval := rfl
  simp only [heval]
  split
  · rfl
  · unfold unobserved
    simp only [List.filter_append, List.filter_flatMap, ObserverTable.resets_tasksAfter]

/-! ### The end of a pass -/

/-- The queued work does the same to the graph without the calls, and gives the same events. -/
theorem worked_unobserved (e : Engine σ) (tasks : List Task) :
    (e.unobserved.worked (tasks.filter Task.isReset)).graph = (e.worked tasks).graph ∧
      (e.unobserved.worked (tasks.filter Task.isReset)).events = (e.worked tasks).events := by
  induction tasks using List.reverseRecOn with
  | nil => exact ⟨rfl, rfl⟩
  | append_singleton tasks task ih =>
    obtain ⟨hgraph, hevents⟩ := ih
    rw [List.filter_append, worked_concat]
    cases task with
    | reset id =>
      have hreset : [Task.reset id].filter Task.isReset = [.reset id] := rfl
      rw [hreset, worked_concat]
      unfold Finalization.perform
      simp only [hgraph]
      cases (e.worked tasks).graph.node? id with
      | none => exact ⟨hgraph, hevents⟩
      | some n => exact ⟨rfl, congrArg (· ++ [_]) hevents⟩
    | notify id notification =>
      have hcall : [Task.notify id notification].filter Task.isReset = [] := rfl
      rw [hcall, List.append_nil]
      unfold Finalization.perform
      simp only
      split <;> exact ⟨hgraph, hevents⟩

private theorem asked_unobserved (e : Engine σ) : e.unobserved.asked = [] := by
  have hcalls : e.unobserved.tasks.filterMap e.unobserved.observers.call? = [] := by
    rw [List.filterMap_eq_nil_iff]
    intro task _
    cases task <;> rfl
  have hanswers := congrArg Prod.fst (answers_worked e.unobserved e.unobserved.tasks).1
  rw [hcalls] at hanswers
  exact hanswers

private theorem atRest_unobserved (e : Engine σ) : e.unobserved.atRest = e.atRest.unobserved := by
  have hgraph : (e.unobserved.worked e.unobserved.tasks).graph = (e.worked e.tasks).graph :=
    (worked_unobserved e e.tasks).1
  unfold atRest
  rw [hgraph]
  rfl

namespace Restaged

variable {f : Engine σ}

theorem unobserved (h : e.Restaged f) : e.unobserved.Restaged f.unobserved := by
  refine ⟨?_, h.update, h.slots, h.others⟩
  rw [h.rest]
  rfl

theorem symm (h : e.Restaged f) : f.Restaged e := by
  refine ⟨?_, h.update.symm, h.slots.symm, fun x hx => ?_⟩
  · rw [h.rest]
  · obtain ⟨hnode, heval⟩ := h.others x fun n hn => by
      obtain ⟨m, hm, he⟩ := h.same.exists_of_some hn
      have hkind : m.unstaged.kind = n.unstaged.kind := congrArg Node.kind he
      have hother : m.unstaged.kind.isInput = false := hx m hm
      rwa [hkind] at hother
    exact ⟨hnode.symm, heval.symm⟩

end Restaged

/-- The end of a pass does with observers what it does without, but for what is staged by their edits. -/
theorem restaged_finalize (e : Engine σ) : e.unobserved.finalize.2.2.Restaged e.finalize.2.2.unobserved := by
  rw [(finalize_eq e.unobserved).2, (finalize_eq e).2, asked_unobserved, atRest_unobserved]
  exact (Restaged.run e.atRest e.asked).unobserved

/-- A pass does with observers what it does without, but for what is staged by their edits. -/
theorem restaged_runPass (h : e.groupLevel = 0) : e.unobserved.runPass.2.2.Restaged e.runPass.2.2.unobserved := by
  have hlevel : e.unobserved.groupLevel = 0 := h
  rw [(runPass_eq h).1, (runPass_eq hlevel).1, drainEval_unobserved]
  exact restaged_finalize _

/-- With and without observers, a pass gives the same events, and reports the same but for calls and edits. -/
theorem account_runPass (e : Engine σ) :
    e.unobserved.runPass.1.uncounted = e.runPass.1.uncounted ∧ e.unobserved.runPass.2.1 = e.runPass.2.1 := by
  unfold runPass
  have hlevel : e.unobserved.groupLevel = e.groupLevel := rfl
  rw [hlevel, drainEval_unobserved]
  split
  · exact ⟨rfl, rfl⟩
  · generalize e.drainEval = d
    obtain ⟨fired, events, e₁⟩ := d
    exact ⟨rfl, congrArg (events ++ ·) (worked_unobserved e₁ e₁.tasks).2⟩

/-- A pass leaves the observers in place, and no work for later. -/
theorem kept_runPass (h : e.groupLevel = 0) : e.runPass.2.2.observers = e.observers ∧ e.runPass.2.2.tasks = [] := by
  have hstaged := (Restaged.run e.drainEval.2.2.atRest e.drainEval.2.2.asked).rest
  rw [(runPass_eq h).1, (finalize_eq _).2, hstaged]
  refine ⟨?_, rfl⟩
  show e.drainEval.2.2.observers = e.observers
  have hupdate : e.drainUpdate.2.2.observers = e.observers := by
    unfold drainUpdate
    split <;> rfl
  rw [← hupdate]
  unfold drainEval
  simp only
  split <;> rfl

end Engine

open Engine

/-- Passes of two engines differ in the work of their observers only. -/
structure PassesAlike (e : Engine σ) (f : Engine τ) : Prop where
  /-- But for the observers, the engines agree afterwards, except for what is staged for inputs and trigger inputs and
  for whether these wait for evaluation. -/
  engines : e.runPass.2.2.unobserved.Restaged f.runPass.2.2.unobserved
  /-- The observers are those from before, and no work is left. -/
  observers : e.runPass.2.2.observers = e.observers ∧ f.runPass.2.2.observers = f.observers
  tasks : e.runPass.2.2.tasks = [] ∧ f.runPass.2.2.tasks = []
  reports : e.runPass.1.uncounted = f.runPass.1.uncounted
  events : e.runPass.2.1 = f.runPass.2.1

/-- What observers do has no influence on the pass that calls them: outside of groups, engines that differ only in
their observers, and in the queued calls of these, pass in the same way. -/
theorem passesAlike {f : Engine τ} (h : e.unobserved = f.unobserved) (hlevel : e.groupLevel = 0) : PassesAlike e f := by
  have hlevel' : f.groupLevel = 0 := (congrArg groupLevel h).symm.trans hlevel
  refine ⟨?_, ⟨(kept_runPass hlevel).1, (kept_runPass hlevel').1⟩,
    ⟨(kept_runPass hlevel).2, (kept_runPass hlevel').2⟩, ?_, ?_⟩
  · have hpass := restaged_runPass hlevel
    rw [h] at hpass
    exact hpass.symm.trans (restaged_runPass hlevel')
  · rw [← (account_runPass e).1, h, (account_runPass f).1]
  · rw [← (account_runPass e).2, h, (account_runPass f).2]

/-- An engine with an input that an observer copies into another input, and a formula that reads it. -/
def copyingInputs : Engine Unit :=
  (Engine.new .default ()).run [.createNode (.inputWith (.bool true)) [], .createNode (.inputWith (.bool true)) [],
    .createNode (.formula .bool ⟨"copy", fun args _ => args.head?.bind Arg.value?⟩) [⟨1, 0⟩],
    .onValue ⟨1, 0⟩ fun news queue host =>
      (match news with
        | .valueChanged _ v => queue ++ [.setValue ⟨2, 0⟩ v]
        | .provoked _ => queue, host),
    .setInput ⟨1, 0⟩ (.bool false)]

/-- The same with an observer of the formula that only counts how often it is called. -/
def countingInputs : Engine Nat :=
  (Engine.new .default 0).run [.createNode (.inputWith (.bool true)) [], .createNode (.inputWith (.bool true)) [],
    .createNode (.formula .bool ⟨"copy", fun args _ => args.head?.bind Arg.value?⟩) [⟨1, 0⟩],
    .onValue ⟨3, 0⟩ fun _ queue count => (queue, count + 1), .setInput ⟨1, 0⟩ (.bool false)]

/-- The edit is staged in one of the engines only, and otherwise they pass alike. -/
theorem copyingInputs_passesAlike :
    (copyingInputs.runPass.2.2.graph.node? ⟨2, 0⟩).bind Node.staged? = some (.value (.bool false)) ∧
    (countingInputs.runPass.2.2.graph.node? ⟨2, 0⟩).bind Node.staged? = none ∧
    PassesAlike copyingInputs countingInputs :=
  ⟨rfl, rfl, passesAlike rfl rfl⟩

end Dataflow
