import Dataflow.Proofs.Engine.Reachable

/-!
# Evaluation in an engine

In every engine that a host can bring about evaluation is free of glitches, comes to the nodes that it has to and to
no others, and leaves every formula with a pure rule up to date.
-/

namespace Dataflow

open Dataflow.Graph

variable {σ : Type} {created : Nat} {e : Engine σ}

namespace Engine

theorem schedule_drainUpdate_pass (e : Engine σ) : e.drainUpdate.2.2.pass = e.pass := by
  unfold drainUpdate
  split <;> rfl

/-- Settling depths leaves the graph and the pending nodes ready for evaluation. -/
theorem ready_drainUpdate (h : e.schedule.Sound created) :
    e.drainUpdate.2.2.graph.Ready ∧ e.drainUpdate.2.2.graph.Keyed e.drainUpdate.2.2.eval := by
  have hs := h.steps (drainUpdate_steps e)
  exact ⟨hs.graph.ready (update_drainUpdate h), hs.keyed⟩

/-- No node is marked with the next pass. -/
theorem changedIn_drainUpdate_lt (h : e.schedule.Sound created) {x : NodeId} {n : Node}
    (hn : e.drainUpdate.2.2.graph.node? x = some n) : n.changedIn < e.pass + 1 := by
  have hle := (h.steps (drainUpdate_steps e)).marked x n hn
  rw [show e.drainUpdate.2.2.schedule.pass = e.pass from schedule_drainUpdate_pass e] at hle
  omega

/-- Evaluation does what propagation does after settling depths. -/
theorem drainEval_eq (h : e.schedule.Sound created) :
    ∃ visits last,
      e.drainUpdate.2.2.graph.propagate (e.pass + 1) e.drainUpdate.2.2.eval = (visits, last, .empty) ∧
      Propagates (e.pass + 1) e.drainUpdate.2.2.graph e.drainUpdate.2.2.eval visits last ∧
      e.drainEval.2.2.graph = last ∧ e.drainEval.2.2.eval = .empty ∧ e.drainEval.1 = firedNodes visits := by
  obtain ⟨hready, hkeyed⟩ := ready_drainUpdate h
  obtain ⟨visits, last, heq, hrun⟩ := hready.propagates hkeyed (e.pass + 1)
  refine ⟨visits, last, heq, hrun, ?_⟩
  have hpass := schedule_drainUpdate_pass e
  unfold drainEval
  generalize e.drainUpdate = d at heq hrun hpass
  obtain ⟨changes, events, e₁⟩ := d
  simp only at heq hrun hpass ⊢
  split
  · next hempty =>
    rw [PendingSet.isEmpty_iff.1 hempty] at hrun ⊢
    obtain ⟨rfl, rfl⟩ := hrun.eq_of_empty
    exact ⟨rfl, rfl, rfl⟩
  · rw [hpass, heq]
    exact ⟨rfl, rfl, rfl⟩

end Engine

/-- What an evaluation in a pass made of an engine with settled depths, by the given visits. -/
structure Evaluated (start : Engine σ) (pass : Nat) (visits : List Visit) (e' : Engine σ) : Prop where
  /-- Evaluation ends by itself, and every entry that it takes out is a visit: allowed to take out more entries than
  there are visits, it does the same. -/
  ends : ∀ k, visits.length ≤ k → propagateWithin pass k start.graph start.eval = (visits, e'.graph, .empty)
  drained : e'.eval = .empty
  /-- Nodes are visited in the order of depth and id, and none is visited twice. -/
  sorted : visits.Pairwise fun v w => v.entry < w.entry
  /-- What the rule of a node saw of its parents is what they are in the end. -/
  args : ∀ v ∈ visits, ∃ n, e'.graph.node? v.entry.node = some n ∧ e'.graph.args? pass n.parents = some v.args
  /-- What became of a node is what its rule makes of these arguments. -/
  outcome : ∀ v ∈ visits, ∃ n, start.graph.node? v.entry.node = some n ∧ v.outcome = n.outcome v.args ∧
    e'.graph.node? v.entry.node = some (n.settled pass v.outcome)
  /-- The visited nodes are those pending at first and, with every node that changed or fired, its children. -/
  visited : ∀ x, (∃ v ∈ visits, v.entry.node = x) ↔ Affected e'.graph pass start.eval x
  marked : ∀ v ∈ visits, ∀ n, e'.graph.node? v.entry.node = some n → n.firedIn pass = v.outcome.isChange
  /-- A node that is not visited stays as it is. -/
  others : ∀ x, (∀ v ∈ visits, v.entry.node ≠ x) → e'.graph.node? x = start.graph.node? x

/-- Evaluation, by itself or in a pass, is free of glitches and exact. -/
theorem Reachable.evaluated (h : Reachable created e) :
    Evaluated e.drainUpdate.2.2 (e.pass + 1)
      (e.drainUpdate.2.2.graph.propagate (e.pass + 1) e.drainUpdate.2.2.eval).1 e.drainEval.2.2 ∧
    (e.groupLevel = 0 → e.runPass.2.2 = e.drainEval.2.2.finalize.2.2) := by
  have hs := h.sound
  obtain ⟨hready, hkeyed⟩ := Engine.ready_drainUpdate hs
  obtain ⟨visits, last, heq, hrun, hlast, heval, -⟩ := Engine.drainEval_eq hs
  have hmarked : ∀ x n, e.drainUpdate.2.2.graph.node? x = some n → n.changedIn < e.pass + 1 :=
    fun _ _ hn => Engine.changedIn_drainUpdate_lt hs hn
  rw [heq]
  refine ⟨⟨?_, heval, hrun.pairwise hready hkeyed, ?_, ?_, ?_, ?_, ?_⟩, fun hlevel => ?_⟩
  · intro k hk
    have hwithin := hrun.propagateWithin_eq (k - visits.length)
    rw [Nat.add_sub_cancel' hk] at hwithin
    rw [hwithin, hlast]
  · intro v hv
    obtain ⟨n, -, -, hn, hargs⟩ := hrun.visited hready hkeyed v hv
    rw [hlast]
    refine ⟨_, hn, ?_⟩
    rw [← hargs]
    cases v.outcome <;> rfl
  · intro v hv
    obtain ⟨n, hn, ho, hl, -⟩ := hrun.visited hready hkeyed v hv
    rw [hlast]
    exact ⟨n, hn, ho, hl⟩
  · intro x
    rw [hlast]
    exact hrun.mem_visited_iff hready hkeyed hmarked
  · rw [hlast]
    exact hrun.firedIn_visited hready hkeyed hmarked
  · rw [hlast]
    exact fun x hx => hrun.node?_of_not_visited hready hkeyed hx
  · unfold Engine.runPass
    rw [if_neg (by omega)]

/-- A formula that copies an input, to which something else has been written since. -/
def rewrittenInput : Engine Unit :=
  (Engine.new .default ()).run [.createNode (.inputWith (.bool true)) [],
    .createNode (.formula .bool ⟨"copy", fun args _ => args.head?.bind Arg.value?⟩) [⟨1, 0⟩],
    .setInput ⟨1, 0⟩ (.bool false)]

/-- Evaluation comes to the formula, for the input that it copies has changed. -/
theorem rewrittenInput_visits_formula :
    ∃ v ∈ (rewrittenInput.drainUpdate.2.2.graph.propagate (rewrittenInput.pass + 1)
      rewrittenInput.drainUpdate.2.2.eval).1, v.entry.node = ⟨2, 0⟩ := by
  have h : Reachable _ rewrittenInput := (Reachable.new .default ()).run _
  have hinput : Affected rewrittenInput.drainEval.2.2.graph (rewrittenInput.pass + 1)
      rewrittenInput.drainUpdate.2.2.eval ⟨1, 0⟩ := .pending (by decide)
  exact (h.evaluated.1.visited ⟨2, 0⟩).2 (.child hinput rfl rfl (List.mem_singleton_self _))

/-- In every engine that a host can bring about the formulas with pure rules that do not wait for evaluation are up to
date, and after a pass all of them are. -/
theorem Reachable.formulas_upToDate (h : Reachable created e) :
    e.graph.UpToDate e.eval ∧ (e.groupLevel = 0 → ∀ x, e.runPass.2.2.graph.UpToDateAt x) := by
  have hs := h.sound
  refine ⟨hs.upToDate, fun hlevel => ?_⟩
  obtain ⟨visits, last, -, -, -, heval, -⟩ := Engine.drainEval_eq hs
  have hdrained : e.drainEval.2.2.graph.UpToDate .empty := by
    have hup := (hs.steps (Engine.drainEval_steps hs)).upToDate
    rwa [show e.drainEval.2.2.schedule.eval = .empty from heval] at hup
  have hpass : e.runPass.2.2 = e.drainEval.2.2.finalize.2.2 := by
    unfold Engine.runPass
    rw [if_neg (by omega)]
  -- The end of a pass changes nothing that a rule can see.
  have hsame := Engine.same_finalize e.drainEval.2.2
  have hfinal : e.runPass.2.2.graph.UpToDate .empty := by
    rw [hpass]
    exact hdrained.congr (hsame.weaken fun _ _ => Node.content_of_evaluated) fun x hx => absurd hx List.not_mem_nil
  exact fun x => hfinal x List.not_mem_nil

/-- After a pass the formula holds what has been written to the input. -/
theorem rewrittenInput_upToDate :
    ∃ n, rewrittenInput.runPass.2.2.graph.node? ⟨2, 0⟩ = some n ∧ n.value? = some (.bool false) := by
  have h : Reachable _ rewrittenInput := (Reachable.new .default ()).run _
  refine ⟨_, rfl, h.formulas_upToDate.2 rfl ⟨2, 0⟩ _ _ _ 0 _ _ rfl rfl (fun args args' _ _ hargs => ?_) rfl rfl rfl⟩
  have hhead := congrArg (fun l => l.head?.bind Arg.value?) hargs
  simpa [List.head?_map, Option.bind_map, Function.comp_def, Arg.unfired] using hhead

end Dataflow
