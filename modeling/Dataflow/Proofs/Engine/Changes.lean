import Dataflow.Proofs.Engine.Moves

/-!
# Changes

What a move changes besides the links, names and depths of nodes: what nodes hold (`Node.held`), the shared constants,
the observers and the queued work.  Most moves are calm and change none of these (`Engine.Calm`); the others are
removals, writes, sharing, registering, and evaluation (`Move.change`).
-/

namespace Dataflow

open Dataflow.Graph

/-- What a node holds: its kind, its value and what is staged for it. -/
def Node.held (n : Node) : Node :=
  { n.anonymous with parents := [], children := [], depth := 0, provoked := false, changedIn := 0 }

namespace Node

variable {n m : Node}

private theorem held_of_anonymous (h : n.anonymous = m.anonymous) : n.held = m.held := by
  unfold held
  rw [h]

private theorem held_of_flat (h : n.flat = m.flat) :
    n.held = m.held := (congrArg held h : n.flat.held = m.flat.held)

@[simp] theorem held_addChild (n : Node) (c : NodeId) : (n.addChild c).held = n.held := by
  unfold addChild
  split <;> rfl

@[simp] theorem held_removeChild (n : Node) (c : NodeId) : (n.removeChild c).held = n.held := rfl

theorem value?_of_held (h : n.held = m.held) : n.value? = m.value? :=
  (congrArg Node.value? h : n.held.value? = m.held.value?)

theorem staged?_of_held (h : n.held = m.held) : n.staged? = m.staged? :=
  (congrArg Node.staged? h : n.held.staged? = m.held.staged?)

theorem emptied_of_held (h : n.held = m.held) : n.kind.emptied = m.kind.emptied :=
  (congrArg Node.kind h : n.held.kind = m.held.kind)

end Node

namespace Graph

/-- All nodes stay and keep what they hold, and nothing is staged for new ones. -/
structure Holds (g g' : Graph) : Prop where
  of_some : ∀ {x n}, g.node? x = some n → ∃ n', g'.node? x = some n' ∧ n'.held = n.held
  some_cases : ∀ {x n'}, g'.node? x = some n' → (∃ n, g.node? x = some n ∧ n'.held = n.held) ∨ n'.staged? = none

variable {g g' : Graph} {id : NodeId} {n m : Node}

theorem SameUpTo.holds (h : SameUpTo Node.held g g') : g.Holds g' :=
  ⟨fun hn => h.exists_of_some hn, fun hn' => .inl <| by
    obtain ⟨n, hn, he⟩ := h.symm.exists_of_some hn'
    exact ⟨n, hn, he.symm⟩⟩

/-- A new node comes with nothing staged, and the others hold what they held. -/
theorem Added.holds (h : g.Added n id g') (hs : n.staged? = none) : g.Holds g' := by
  refine ⟨fun {x m} hm => ⟨_, h.of_some hm, ?_⟩, fun {x m} hm => ?_⟩
  · split <;> simp
  · rcases h.some_cases hm with ⟨-, rfl⟩ | ⟨m₀, hm₀, rfl⟩
    · exact .inr hs
    · refine .inl ⟨m₀, hm₀, ?_⟩
      split <;> simp

theorem Relinked.holds {parents : List NodeId} (h : g.Relinked id n parents g') : g.Holds g' := by
  refine ⟨fun hm => ?_, fun hm => ?_⟩
  · obtain ⟨cs, hcs, -⟩ := h.of_some hm
    exact ⟨_, hcs, rfl⟩
  · obtain ⟨m₀, cs, hm₀, rfl, -⟩ := h.some_cases hm
    exact .inl ⟨m₀, hm₀, rfl⟩

/-- All nodes but the removed one are still there, and hold what they held. -/
theorem Removed.held_of_some {x : NodeId} (h : g.Removed id n g') (hm : g.node? x = some m) (hx : x ≠ id) :
    ∃ m', g'.node? x = some m' ∧ m'.held = m.held := by
  obtain ⟨m', hm', he⟩ := h.of_some hm hx
  refine ⟨m', hm', (Node.held_of_anonymous he).trans ?_⟩
  split <;> simp

/-- What is there without the removed node was there with it, and held the same. -/
theorem Removed.held_some_cases {x : NodeId} (h : g.Removed id n g') (hm : g'.node? x = some m) :
    x ≠ id ∧ ∃ m₀, g.node? x = some m₀ ∧ m.held = m₀.held := by
  obtain ⟨hx, m₀, hm₀, he⟩ := h.some_cases hm
  refine ⟨hx, m₀, hm₀, (Node.held_of_anonymous he).trans ?_⟩
  split <;> simp

end Graph

variable {σ : Type} {created : Nat} {e e' : Engine σ}

namespace Engine

/-- The first computation of a node changes no other node, and stages nothing. -/
theorem computeFirst_cases (g : Graph) (id : NodeId) :
    computeFirst g id = g ∨ ∃ v, computeFirst g id = g.modify id (·.settled 0 (.value v)) := by
  unfold computeFirst
  split
  · exact .inl rfl
  · split
    · next v _ _ => exact .inr ⟨v, rfl⟩
    · exact .inl rfl

/-- Nothing is written, evaluated or removed. -/
structure Calm (e e' : Engine σ) : Prop where
  nodes : e.graph.Holds e'.graph
  eval : ∀ x ∈ e.eval.nodes, x ∈ e'.eval.nodes
  constants : e'.constants = e.constants
  observers : e'.observers = e.observers
  tasks : ∀ task ∈ e'.tasks, task ∈ e.tasks
  root : e'.root = e.root

/-- What a move of an allowed kind changes. -/
inductive Change (allowed : Act → Prop) : Engine σ → Engine σ → Prop
  | calm {e e' : Engine σ} : Calm e e' → Change allowed e e'
  | remove {e : Engine σ} {id : NodeId} {n removed : Node} {g : Graph} : allowed .remove → id ≠ e.root →
      e.graph.Removed id n g → removed.held = n.held → Change allowed e (e.dropping id removed g)
  | write {e e' : Engine σ} {a : Act} : allowed a → Write a e e' → Change allowed e e'
  | share {e : Engine σ} {id : NodeId} {n : Node} {v : Value} : allowed (.share n) → e.graph.node? id = some n →
      n.kind = .constant → n.value? = some v → Change allowed e { e with constants := e.constants.insert v id }
  | register {e : Engine σ} {o : Observer σ} {n : Node} : e.graph.node? o.node = some n →
      Change allowed e (e.register o).2
  | unregister (e : Engine σ) (id : ObserverId) : Change allowed e (e.removeObserver id).2
  | evaluate {e : Engine σ} : allowed .evaluate → e.graph.update = .empty → Change allowed e e.evaluating

/-- A change of the graph that leaves what nodes hold. -/
private theorem calm_graph {g : Graph} (e : Engine σ) (h : e.graph.Holds g) : Calm e { e with graph := g } :=
  ⟨h, fun _ hx => hx, rfl, rfl, fun _ ht => ht, rfl⟩

private theorem calm_pendEval {g : Graph} (e : Engine σ) (h : e.graph.Holds g) (id : NodeId) :
    Calm e ({ e with graph := g }.pendEval id) :=
  ⟨h, fun _ hx => PendingSet.mem_nodes_insertAll.2 (.inl hx), rfl, rfl, fun _ ht => ht, rfl⟩

/-- What is left alone when a node is created. -/
private theorem holds_create {kind : NodeKind} {parents : List NodeId} {value? : Option Value} {id : NodeId}
    {g : Graph} (h : e.schedule.Sound created) (ha : e.graph.addNode (.fresh kind parents value?) = .ok (id, g)) :
    e.graph.Holds (computeFirst g id) := by
  obtain ⟨d, -, hadd, -⟩ := addNode_eq_ok h.graph.store ha
  have hadded : e.graph.Holds g := hadd.holds rfl
  rcases computeFirst_cases g id with heq | ⟨v, heq⟩
  · rwa [heq]
  rw [heq]
  refine ⟨fun {x n} hn => ?_, fun {x n'} hn' => ?_⟩
  · obtain ⟨n', hn', he⟩ := hadded.of_some hn
    exact ⟨n', by rw [node?_modify, if_neg (hadd.ne hn), hn'], he⟩
  · rw [node?_modify] at hn'
    split at hn'
    · obtain ⟨m, -, rfl⟩ := Option.map_eq_some_iff.1 hn'
      exact .inr rfl
    · exact hadded.some_cases hn'

/-- Settling depths changes nothing else. -/
theorem calm_drainUpdate (h : e.schedule.Sound created) : Calm e e.drainUpdate.2.2 := by
  have heval : ∀ x ∈ e.eval.nodes, x ∈ e.schedule.settle.eval.nodes := fun x hx => h.mem_eval_settle.2 hx
  have hsame : SameUpTo Node.held e.graph e.graph.settleDepths.2 :=
    h.graph.same_settleDepths.weaken fun _ _ => Node.held_of_flat
  unfold drainUpdate
  split
  · exact calm_graph e (SameUpTo.refl _ _).holds
  · exact ⟨hsame.holds, heval, rfl, rfl, fun _ ht => ht, rfl⟩

/-- Every move is calm, or a removal, a write, or one that shares, registers or evaluates. -/
theorem Move.change {allowed : Act → Prop} {i : Nat} (hm : Move allowed e i e') (h : e.schedule.Sound created) :
    Change allowed e e' := by
  have hlinked := h.graph.linked
  cases hm with
  | create _ ha => exact .calm (calm_graph e (holds_create h ha))
  | addScope => exact .calm (calm_graph e ((addScope_added h.graph.store).holds rfl))
  | rename _ hr =>
    have hsame := (setScope_eq_ok hr).same.weaken fun _ _ => Node.held_of_anonymous
    exact .calm (calm_graph e hsame.holds)
  | remove ha hroot hr =>
    obtain ⟨n, hremoved, -, hsame⟩ := Graph.removeNode_eq_ok h.graph.store hr
    exact .remove ha hroot hremoved (Node.held_of_anonymous hsame)
  | addChild _ ha =>
    rcases addChild_eq_ok hlinked ha with ⟨hf, -⟩ | ⟨-, n, hr, -⟩
    · cases hf
    · exact .calm (calm_pendEval e hr.holds _)
  | removeChild _ ha =>
    rcases removeChild_eq_ok hlinked ha with ⟨hf, -⟩ | ⟨-, n, hr, -⟩
    · cases hf
    · exact .calm (calm_pendEval e hr.holds _)
  | setParents _ ha =>
    obtain ⟨n, hr, -⟩ := setParents_eq_ok hlinked ha
    exact .calm (calm_pendEval e hr.holds _)
  | write ha hw => exact .write ha hw
  | share ha hn hk hv => exact .share ha hn hk hv
  | register _ hn => exact .register hn
  | unregister id => exact .unregister e id
  | settle => exact .calm (calm_drainUpdate h)
  | evaluate ha hu => exact .evaluate ha hu
  | takeTasks =>
    exact .calm ⟨(SameUpTo.refl _ _).holds, fun _ hx => hx, rfl, rfl, fun _ ht => absurd ht List.not_mem_nil, rfl⟩
  | reset id => exact .calm (calm_graph e (SameUpTo.modify (fun _ => by rfl) e.graph id).holds)
  | recast | adjust => exact .calm ⟨(SameUpTo.refl _ _).holds, fun _ hx => hx, rfl, rfl, fun _ ht => ht, rfl⟩

/-- Evaluation visits everything that is pending, and queues the work that the visits leave. -/
theorem evaluating_eq (h : e.schedule.Sound created) (hu : e.graph.update = .empty) :
    ∃ visits last, e.graph.Ready ∧ Propagates (e.pass + 1) e.graph e.eval visits last ∧
      e.evaluating = { e with
        graph := last
        eval := .empty
        pass := e.pass + 1
        tasks := e.tasks ++ visits.flatMap e.observers.tasksAfter
        report := addVisits e.report (e.pass + 1) visits } := by
  obtain ⟨visits, last, heq, hrun⟩ := (h.graph.ready hu).propagates h.keyed (e.pass + 1)
  refine ⟨visits, last, h.graph.ready hu, hrun, ?_⟩
  unfold evaluating
  rw [show e.graph.propagate (e.pass + 1) e.eval = _ from heq]

end Engine

end Dataflow
