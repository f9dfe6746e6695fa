import Dataflow.Proofs.Engine.Coalescing

/-!
# The end of a pass

The queued work is done one piece after the other.  What becomes of the graph depends on the queued resets only, and
what becomes of the host, and which edits are left in the queue, on the queued calls only (`Engine.atRest`,
`Engine.asked`).  The edits are then made as if they had been made from outside (`finalize_eq`).
-/

namespace Dataflow

open Dataflow.Graph

/-- What an observer waits for that is told this. -/
def Notification.watch : Notification → Watch
  | valueChanged _ _ => .value
  | provoked _ => .provoke

/-- A call of a registered observer. -/
structure Call (σ : Type) where
  observer : ObserverId
  callback : Callback σ
  notification : Notification

variable {σ : Type} {e : Engine σ}

/-- What a call makes of the edits asked for so far and of the state of the host. -/
def Call.answer (c : Call σ) (s : List Edit × σ) : List Edit × σ := c.callback c.notification s.1 s.2

/-- The edits that observers leave in the queue who are called one after the other, and what they make of the host. -/
def answers (calls : List (Call σ)) (host : σ) : List Edit × σ := calls.foldl (fun s c => c.answer s) ([], host)

/-- The call that a piece of queued work is, if it is one of a registered observer. -/
def ObserverTable.call? (t : ObserverTable σ) : Task → Option (Call σ)
  | .reset _ => none
  | .notify id notification => (t.find? id).map fun o => ⟨id, o.callback, notification⟩

/-- Edits are made of nodes of this kind. -/
def NodeKind.isInput : NodeKind → Bool
  | input _ | triggerInput => true
  | _ => false

/-- The node with nothing staged for it. -/
def Node.unstaged (n : Node) : Node := { n with staged? := none }

/-- The node when it has been reset. -/
def Node.unprovoked (n : Node) : Node := { n with provoked := false }

@[simp] theorem Node.unprovoked_unprovoked (n : Node) : n.unprovoked.unprovoked = n.unprovoked := rfl

/-- The graph with all triggers reset. -/
def Graph.unprovoked (g : Graph) : Graph := { g with store := g.store.map Node.unprovoked }

@[simp] theorem Graph.node?_unprovoked (g : Graph) (x : NodeId) :
    g.unprovoked.node? x = (g.node? x).map Node.unprovoked :=
  Store.get?_map _ _ _

namespace Engine

/-! ### The queued work -/

/-- The calls of registered observers among the queued work, in order. -/
def calls (e : Engine σ) : List (Call σ) := e.tasks.filterMap e.observers.call?

/-- The state after so much of the queued work. -/
def worked (e : Engine σ) (tasks : List Task) : Finalization σ :=
  tasks.foldl (Finalization.perform e.observers) ⟨e.graph, e.host, [], 0, []⟩

theorem worked_concat (e : Engine σ) (tasks : List Task) (task : Task) :
    e.worked (tasks ++ [task]) = (e.worked tasks).perform e.observers task := by
  rw [worked, List.foldl_append]
  rfl

/-- What one piece of work does to the graph. -/
theorem node?_perform (observers : ObserverTable σ) (f : Finalization σ) (task : Task) (x : NodeId) :
    (f.perform observers task).graph.node? x =
      if task = .reset x then (f.graph.node? x).map Node.unprovoked else f.graph.node? x := by
  cases task with
  | reset id =>
    unfold Finalization.perform
    simp only [Task.reset.injEq]
    split
    · next hnone =>
      split
      · next hx => rw [← hx, hnone, Option.map_none]
      · rfl
    · show (f.graph.modify id Node.unprovoked).node? x = _
      rw [node?_modify]
      by_cases hx : x = id
      · simp [hx]
      · simp [hx, Ne.symm hx]
  | notify id notification =>
    unfold Finalization.perform
    simp only [reduceCtorEq, if_false]
    split <;> rfl

/-- A node is reset by the first piece of work that says so, and otherwise left alone. -/
theorem node?_worked (e : Engine σ) (tasks : List Task) (x : NodeId) :
    (e.worked tasks).graph.node? x =
      if .reset x ∈ tasks then (e.graph.node? x).map Node.unprovoked else e.graph.node? x := by
  induction tasks using List.reverseRecOn with
  | nil => rfl
  | append_singleton tasks task ih =>
    rw [worked_concat, node?_perform, ih]
    by_cases hmem : .reset x ∈ tasks
    · have hlast : Task.reset x ∈ tasks ++ [task] := List.mem_append_left _ hmem
      rw [if_pos hmem, if_pos hlast]
      cases e.graph.node? x <;> simp
    · rw [if_neg hmem]
      by_cases htask : task = .reset x
      · have hlast : Task.reset x ∈ tasks ++ [task] := by simp [htask]
        rw [if_pos htask, if_pos hlast]
      · have hlast : Task.reset x ∉ tasks ++ [task] := by simp [hmem, Ne.symm htask]
        rw [if_neg htask, if_neg hlast]

/-- The queued work changes nothing of the graph but whether triggers are provoked. -/
theorem slots_worked (e : Engine σ) (tasks : List Task) :
    (e.worked tasks).graph.update = e.graph.update ∧
      (e.worked tasks).graph.store.map Node.unprovoked = e.graph.store.map Node.unprovoked := by
  have hstep : ∀ (f : Finalization σ) (task : Task), (f.perform e.observers task).graph.update = f.graph.update ∧
      (f.perform e.observers task).graph.store.map Node.unprovoked = f.graph.store.map Node.unprovoked := by
    intro f task
    cases task with
    | reset id =>
      unfold Finalization.perform
      simp only
      split
      · exact ⟨rfl, rfl⟩
      · refine ⟨rfl, Store.map_modify (fun n => ?_) f.graph.store id⟩
        rfl
    | notify id notification =>
      unfold Finalization.perform
      simp only
      split <;> exact ⟨rfl, rfl⟩
  induction tasks using List.reverseRecOn with
  | nil => exact ⟨rfl, rfl⟩
  | append_singleton tasks task ih =>
    obtain ⟨hu, hs⟩ := hstep (e.worked tasks) task
    rw [worked_concat]
    exact ⟨hu.trans ih.1, hs.trans ih.2⟩

/-- Where no trigger stays provoked, the queued work resets the whole graph. -/
theorem graph_worked (h : ∀ x n, e.graph.node? x = some n → n.provoked = true → .reset x ∈ e.tasks) :
    (e.worked e.tasks).graph = e.graph.unprovoked := by
  obtain ⟨hupdate, hslots⟩ := slots_worked e e.tasks
  have hstore : (e.worked e.tasks).graph.store = e.graph.unprovoked.store := by
    refine Store.ext_of_map (f := Node.unprovoked) (hslots.trans ?_) fun x => ?_
    · unfold Graph.unprovoked
      simp [Store.map, Function.comp_def, Option.map_map]
    · show (e.worked e.tasks).graph.node? x = e.graph.unprovoked.node? x
      rw [node?_worked, node?_unprovoked]
      split
      · rfl
      · next hmem =>
        cases hn : e.graph.node? x with
        | none => rfl
        | some n =>
          have hquiet : n.provoked = false := by
            cases hp : n.provoked with
            | false => rfl
            | true => exact absurd (h x n hn hp) hmem
          have hsame : n.unprovoked = n := by
            unfold Node.unprovoked
            rw [← hquiet]
          rw [Option.map_some, hsame]
  cases hg : (e.worked e.tasks).graph
  rw [hg] at hstore hupdate
  exact congrArg₂ Graph.mk hstore hupdate

/-- The queue of edits, the state of the host and the number of calls come from the calls alone. -/
theorem answers_worked (e : Engine σ) (tasks : List Task) :
    ((e.worked tasks).edits, (e.worked tasks).host) = answers (tasks.filterMap e.observers.call?) e.host ∧
      (e.worked tasks).calls = (tasks.filterMap e.observers.call?).length := by
  induction tasks using List.reverseRecOn with
  | nil => exact ⟨rfl, rfl⟩
  | append_singleton tasks task ih =>
    obtain ⟨hanswers, hcalls⟩ := ih
    rw [worked_concat, List.filterMap_append]
    cases task with
    | reset id =>
      have hnone : [Task.reset id].filterMap e.observers.call? = [] := rfl
      rw [hnone, List.append_nil, ← hanswers, ← hcalls]
      unfold Finalization.perform
      simp only
      split <;> exact ⟨rfl, rfl⟩
    | notify id notification =>
      unfold Finalization.perform
      cases ho : e.observers.find? id with
      | none =>
        have hnone : [Task.notify id notification].filterMap e.observers.call? = [] := by
          simp [ObserverTable.call?, ho]
        rw [hnone, List.append_nil, ← hanswers, ← hcalls]
        simp only [ho]
        trivial
      | some o =>
        have hsome : [Task.notify id notification].filterMap e.observers.call? = [⟨id, o.callback, notification⟩] := by
          simp [ObserverTable.call?, ho]
        rw [hsome, List.length_append, ← hcalls]
        simp only [ho]
        refine ⟨?_, rfl⟩
        unfold answers at hanswers ⊢
        rw [List.foldl_append, ← hanswers]
        rfl

/-! ### Edits made at the end -/

/-- How many of the operations are refused when all are made one after the other. -/
def refusals (e : Engine σ) : List (Operation σ) → Nat
  | [] => 0
  | op :: ops => (if (op.refusal? e).isSome then 1 else 0) + (op.apply e).refusals ops

/-- The edits of observers are made like edits from outside. -/
theorem applyEdits_eq (e : Engine σ) (edits : List Edit) :
    e.applyEdits edits = (e.refusals (edits.map Edit.toOperation), e.run (edits.map Edit.toOperation)) := by
  -- With any number of refusals before.
  rw [← Nat.zero_add (e.refusals _)]
  unfold applyEdits
  generalize 0 = k
  induction edits generalizing k e with
  | nil => rfl
  | cons edit edits ih =>
    have hrefusal : (edit.toOperation : Operation σ).refusal? e = Operation.refusal?.reason (e.applyEdit edit) := by
      cases edit <;> rfl
    rw [List.foldl_cons, List.map_cons, refusals, run, edit.apply_toOperation, hrefusal]
    simp only
    cases e.applyEdit edit with
    | ok p =>
      simp only [ih]
      simp [Operation.refusal?.reason, accept, Except.map]
    | error err =>
      simp only [ih]
      simp [Operation.refusal?.reason, accept, Except.map, Nat.add_assoc]

/-- The engines differ only in what is staged for inputs and trigger inputs, and in whether these wait for
evaluation. -/
structure Restaged (e f : Engine σ) : Prop where
  rest : f = { e with graph := f.graph, eval := f.eval }
  update : f.graph.update = e.graph.update
  slots : f.graph.store.map Node.unstaged = e.graph.store.map Node.unstaged
  others : ∀ x, (∀ n, e.graph.node? x = some n → n.kind.isInput = false) →
    f.graph.node? x = e.graph.node? x ∧ f.eval.depth? x = e.eval.depth? x

namespace Restaged

variable {f g : Engine σ}

theorem refl (e : Engine σ) : e.Restaged e := ⟨rfl, rfl, rfl, fun _ _ => ⟨rfl, rfl⟩⟩

theorem trans (h : e.Restaged f) (h' : f.Restaged g) : e.Restaged g := by
  refine ⟨?_, h'.update.trans h.update, h'.slots.trans h.slots, fun x hx => ?_⟩
  · rw [h'.rest, h.rest]
  · obtain ⟨hnode, heval⟩ := h.others x hx
    obtain ⟨hnode', heval'⟩ := h'.others x fun n hn => hx n (hnode ▸ hn)
    exact ⟨hnode'.trans hnode, heval'.trans heval⟩

theorem same (h : e.Restaged f) : SameUpTo Node.unstaged e.graph f.graph := by
  intro x
  have hget : (f.graph.store.map Node.unstaged).get? x = (e.graph.store.map Node.unstaged).get? x := by rw [h.slots]
  rwa [Store.get?_map, Store.get?_map] at hget

/-- Staging something for one input, or withdrawing what was staged for it. -/
private theorem modify {id : NodeId} {n : Node} (s? : Option Staged) (eval : PendingSet)
    (hn : e.graph.node? id = some n) (hk : n.kind.isInput = true)
    (heval : ∀ x, x ≠ id → eval.depth? x = e.eval.depth? x) :
    e.Restaged { e with graph := e.graph.modify id fun n => { n with staged? := s? }, eval := eval } := by
  refine ⟨rfl, rfl, Store.map_modify (fun n => ?_) _ _, fun x hx => ?_⟩
  · rfl
  · have hne : x ≠ id := by
      rintro rfl
      rw [hx n hn] at hk
      cases hk
    refine ⟨?_, heval x hne⟩
    rw [node?_modify, if_neg hne]

/-- Edits from outside. -/
theorem run (e : Engine σ) (edits : List Edit) : e.Restaged (e.run (edits.map Edit.toOperation)) := by
  have hstage : ∀ {e : Engine σ} {id : NodeId} {n : Node} (s : Staged), e.graph.node? id = some n →
      n.kind.isInput = true → e.Restaged (e.staging id n s) := fun s hn hk =>
    modify (some s) _ hn hk fun x hx => by rw [PendingSet.depth?_insert, if_neg hx]
  induction edits generalizing e with
  | nil => exact .refl e
  | cons edit edits ih =>
    refine trans ?_ (ih _)
    cases edit with
    | setValue id v =>
      show e.Restaged (e.accept ((e.setInput id v).map Prod.snd))
      cases hr : e.setInput id v with
      | error err => exact .refl e
      | ok r =>
        obtain ⟨changed, next⟩ := r
        obtain ⟨n, hn, hk, ⟨rfl, -⟩ | ⟨-, rfl⟩ | ⟨-, rfl⟩⟩ := setInput_eq_ok hr
        · exact .refl _
        · refine modify none _ hn (by rw [hk]; rfl) fun x hx => ?_
          rw [PendingSet.depth?_remove, if_neg hx]
        · exact hstage _ hn (by rw [hk]; rfl)
    | provoke id =>
      show e.Restaged (e.accept ((e.provoke id).map Prod.snd))
      cases hr : e.provoke id with
      | error err => exact .refl e
      | ok r =>
        obtain ⟨changed, next⟩ := r
        obtain ⟨n, hn, hk, ⟨rfl, -⟩ | ⟨-, rfl⟩⟩ := provoke_eq_ok hr
        · exact .refl _
        · exact hstage _ hn (by rw [hk]; rfl)

end Restaged

/-! ### The end of a pass -/

/-- The edits that observers leave in the queue at the end of the pass. -/
def asked (e : Engine σ) : List Edit := (e.worked e.tasks).edits

/-- The engine at the end of the pass, before the edits that observers asked for are made. -/
def atRest (e : Engine σ) : Engine σ :=
  { e with
    graph := (e.worked e.tasks).graph
    host := (e.worked e.tasks).host
    tasks := []
    report := .none }

/-- The end of a pass counts the calls, does the queued work and then makes the edits that were asked for. -/
theorem finalize_eq (e : Engine σ) :
    e.finalize.1 = { e.report with
      notifications := e.report.notifications + e.calls.length
      queuedEdits := e.asked.length
      rejectedEdits := e.report.rejectedEdits + e.atRest.refusals (e.asked.map Edit.toOperation) } ∧
    e.finalize.2.2 = e.atRest.run (e.asked.map Edit.toOperation) := by
  have hreport : e.finalize.1 = { e.report with
      notifications := e.report.notifications + (e.worked e.tasks).calls
      queuedEdits := e.asked.length
      rejectedEdits := e.report.rejectedEdits + (e.atRest.applyEdits e.asked).1 } := rfl
  have hnext : e.finalize.2.2 = (e.atRest.applyEdits e.asked).2 := rfl
  rw [hreport, hnext, applyEdits_eq, (answers_worked e e.tasks).2]
  exact ⟨rfl, rfl⟩

/-- Before the edits are made, the queued work has been taken up, and triggers have been reset. -/
theorem atRest_moves {allowed : Act → Prop} (e : Engine σ) (hw : allowed .work) (ha : allowed .adjust) :
    Moves allowed e 0 e.atRest := by
  let e₀ : Engine σ := { e with tasks := [], report := .none }
  have hstart : Moves allowed e 0 e₀ := (Move.takeTasks e hw).moves
  exact hstart.trans (foldl_perform_moves e₀ hw ha e.tasks ⟨e.graph, e.host, [], 0, []⟩)

/-- A pass outside of groups is an evaluation and the end of the pass. -/
theorem runPass_eq (h : e.groupLevel = 0) :
    e.runPass.2.2 = e.drainEval.2.2.finalize.2.2 ∧ e.runPass.1 = e.drainEval.2.2.finalize.1 := by
  unfold runPass
  rw [if_neg (by omega)]
  exact ⟨rfl, rfl⟩

end Engine

end Dataflow
