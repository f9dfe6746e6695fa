import Dataflow.Engine.Listening

/-!
# Passes are the same with a listener

A pass one node after the other comes to what a pass does at once, whoever listens (`Listening.runPass_eq`): the
listener hears the events of the pass, one after the other and each once, and nothing else depends on it.
-/

namespace Dataflow

variable {σ α : Type}

/-- A listener who keeps all that they are told has kept the events. -/
theorem Listener.state_recording (events : List PassEvent) :
    (events.foldl tell (some recording)).map Listener.state = some events := by
  -- With any events heard before.
  have hkept : ∀ heard : List PassEvent, (events.foldl tell (some { recording with state := heard })).map
      Listener.state = some (heard ++ events) := by
    induction events with
    | nil =>
      intro heard
      rw [List.append_nil]
      rfl
    | cons event events ih =>
      intro heard
      rw [← List.singleton_append, ← List.append_assoc]
      exact ih (heard ++ [event])
  exact hkept []

/-- A visit is of the node that was taken out, and describes it as it is then. -/
theorem Graph.entry_of_visit? {g next : Graph} {pass : Nat} {pending woken : PendingSet} {entry : Pending} {v : Visit}
    (h : g.visit? pass pending entry = some (v, next, woken)) :
    v.entry = entry ∧ v.description = next.describe entry.node := by
  unfold visit? at h
  simp only [Option.bind_eq_bind, Option.bind_eq_some_iff] at h
  obtain ⟨n, -, args, -, h⟩ := h
  cases h
  exact ⟨rfl, rfl⟩

/-- What the given visits add to the middle of an evaluation. -/
def Evaluating.after (s : Evaluating σ α) (visits : List Visit) (graph : Graph) (eval : PendingSet) :
    Evaluating σ α where
  engine := { s.engine with
    graph := graph
    eval := eval
    tasks := s.engine.tasks ++ visits.flatMap s.engine.observers.tasksAfter
    report := Engine.addVisits s.engine.report s.engine.report.pass visits }
  fired := s.fired ++ Engine.firedNodes visits
  listener? := (Engine.visitEvents visits).foldl Listener.tell s.listener?

/-- The middle of the end of a pass, with a listener who has been told of the events so far. -/
def Engine.Finalization.told (f : Engine.Finalization σ) (listener? : Option (Listener α)) : Finalizing σ α :=
  ⟨f.graph, f.host, f.edits, f.calls, f.events.foldl Listener.tell listener?⟩

namespace Evaluating

variable {graph graph' : Graph} {eval eval' : PendingSet}

private theorem after_nil (s : Evaluating σ α) (eval : PendingSet) :
    s.after [] s.engine.graph eval = { s with engine := { s.engine with eval := eval } } := by
  simp [after, Engine.addVisits, Engine.changedNodes, Engine.firedNodes, Engine.visitEvents]

private theorem after_after (s : Evaluating σ α) (visits more : List Visit) :
    (s.after visits graph eval).after more graph' eval' = s.after (visits ++ more) graph' eval' := by
  simp [after, Engine.addVisits, Engine.changedNodes, Engine.firedNodes, Engine.visitEvents, Nat.add_assoc]

end Evaluating

namespace Engine.Listening

/-! ### Settling depths -/

/-- A depth update tells its events in order, and is otherwise the same with a listener. -/
theorem drainUpdate_eq (e : Engine σ) (listener? : Option (Listener α)) :
    drainUpdate e listener? =
      (e.drainUpdate.1, e.drainUpdate.2.2, e.drainUpdate.2.1.foldl Listener.tell listener?) := by
  unfold drainUpdate Engine.drainUpdate settlingEvents
  split
  · rfl
  · generalize e.graph.settleDepths = d
    obtain ⟨done, graph⟩ := d
    have hevents : (done.filterMap fun s => s.depth?.map fun depth =>
          (⟨.update, depth, s.entry.node, graph.describe s.entry.node⟩ : PassEvent)) =
        (done.filterMap fun s => s.depth?.map fun depth => (s.entry.node, depth)).map fun p =>
          ⟨.update, p.2, p.1, graph.describe p.1⟩ := by
      simp only [List.map_filterMap, Option.map_map, Function.comp_def]
    simp only [hevents, List.foldl_map]

/-! ### Evaluation -/

/-- Evaluating a node notes the visit of it, and tells of it unless the node was only looked at. -/
theorem evaluate_eq {pass : Nat} {s : Evaluating σ α} {entry : Pending} {rest eval : PendingSet} {v : Visit}
    {graph : Graph} (h : s.engine.graph.visit? pass rest entry = some (v, graph, eval)) :
    evaluate pass s entry rest = s.after [v] graph eval := by
  obtain ⟨rfl, hdescription⟩ := Graph.entry_of_visit? h
  unfold evaluate Evaluating.after
  simp only [h]
  cases ho : v.outcome <;>
    simp [note, addVisits, changedNodes, firedNodes, visitEvents, Visit.isEvaluation, ho, hdescription]

/-- Evaluating one node after the other does what propagation does, and notes and tells all the visits. -/
theorem evaluateWithin_eq (pass fuel : Nat) (s : Evaluating σ α) :
    evaluateWithin pass fuel s =
      s.after (s.engine.graph.propagateWithin pass fuel s.engine.eval).1
        (s.engine.graph.propagateWithin pass fuel s.engine.eval).2.1
        (s.engine.graph.propagateWithin pass fuel s.engine.eval).2.2 := by
  induction fuel generalizing s with
  | zero => exact (s.after_nil s.engine.eval).symm
  | succ fuel ih =>
    unfold evaluateWithin Graph.propagateWithin
    cases hpop : s.engine.eval.pop? with
    | none => exact (s.after_nil s.engine.eval).symm
    | some p =>
      obtain ⟨entry, rest⟩ := p
      simp only
      cases hv : s.engine.graph.visit? pass rest entry with
      | none =>
        have hpassed : evaluate pass s entry rest = { s with engine := { s.engine with eval := rest } } := by
          unfold evaluate
          simp only [hv]
        rw [ih, hpassed, ← s.after_nil rest, Evaluating.after_after]
        rfl
      | some visit =>
        obtain ⟨v, next, woken⟩ := visit
        rw [ih, evaluate_eq hv, Evaluating.after_after]
        rfl

/-- An evaluation tells its events in order, and is otherwise the same with a listener. -/
theorem drainEval_eq (e : Engine σ) (listener? : Option (Listener α)) :
    drainEval e listener? = (e.drainEval.1, e.drainEval.2.2, e.drainEval.2.1.foldl Listener.tell listener?) := by
  unfold drainEval Engine.drainEval
  rw [drainUpdate_eq]
  generalize e.drainUpdate = d
  obtain ⟨changes, events, e₁⟩ := d
  simp only
  split
  · rfl
  · rw [evaluateWithin_eq]
    simp only [Evaluating.after, List.nil_append, List.foldl_append]
    rfl

/-! ### The end of a pass -/

private theorem perform_eq (observers : ObserverTable σ) (f : Finalization σ) (listener? : Option (Listener α))
    (task : Task) :
    perform observers (f.told listener?) task = (f.perform observers task).told listener? := by
  cases task with
  | reset id =>
    unfold perform Finalization.perform
    simp only [Finalization.told]
    cases f.graph.node? id with
    | none => rfl
    | some n => simp only [List.foldl_append, List.foldl_cons, List.foldl_nil]
  | notify id notification =>
    unfold perform Finalization.perform
    simp only
    cases observers.find? id <;> rfl

/-- The end of a pass tells its events in order, and is otherwise the same with a listener. -/
theorem finalize_eq (e : Engine σ) (listener? : Option (Listener α)) :
    finalize e listener? = (e.finalize.1, e.finalize.2.2, e.finalize.2.1.foldl Listener.tell listener?) := by
  have hwork : ∀ f : Finalization σ, e.tasks.foldl (perform e.observers) (f.told listener?) =
      (e.tasks.foldl (Finalization.perform e.observers) f).told listener? := fun f =>
    List.foldl_hom (fun f : Finalization σ => f.told listener?) fun f task => perform_eq e.observers f listener? task
  have hstart : (⟨e.graph, e.host, [], 0, listener?⟩ : Finalizing σ α) =
      Finalization.told ⟨e.graph, e.host, [], 0, []⟩ listener? := rfl
  unfold finalize
  rw [hstart, hwork]
  rfl

/-- A pass with a listener does what it does without, and tells of its events one after the other. -/
theorem runPass_eq (e : Engine σ) (listener? : Option (Listener α)) :
    runPass e listener? = (e.runPass.1, e.runPass.2.2, e.runPass.2.1.foldl Listener.tell listener?) := by
  unfold runPass Engine.runPass
  split
  · rfl
  · simp only [drainEval_eq, finalize_eq, List.foldl_append]

end Engine.Listening

end Dataflow
