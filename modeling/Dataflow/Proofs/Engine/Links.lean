import Dataflow.Proofs.Engine.Reachable

/-!
# Links in an engine

In every engine that a host can bring about the links of the graph are sound, and an edit of links is refused for a
cycle exactly if it would close one.
-/

namespace Dataflow

open Dataflow.Graph Relation

variable {σ : Type} {created : Nat} {e : Engine σ}

namespace Engine

theorem addChild_eq_error_iff {parent child : NodeId} {err : GraphError} :
    e.addChild parent child = .error err ↔ e.graph.addChild parent child = .error err := by
  unfold addChild
  rw [bind_eq_error]
  simp [pure, Except.pure]

theorem setParents_eq_error_iff {id : NodeId} {parents : List NodeId} {err : GraphError} :
    e.setParents id parents = .error err ↔ e.graph.setParents id parents = .error err := by
  unfold setParents
  rw [bind_eq_error]
  simp [pure, Except.pure]

/-- A node can be removed exactly if it is not the root and the graph can be without it. -/
theorem exists_removeNode_iff {id : NodeId} :
    (∃ next, e.removeNode id = .ok next) ↔ id ≠ e.root ∧ ∃ r, e.graph.removeNode id = .ok r := by
  unfold removeNode
  by_cases hid : id = e.root
  · simp [hid]
  · simp only [if_neg hid, bind_eq_ok, pure_eq_ok]
    constructor
    · rintro ⟨next, r, hr, -⟩
      exact ⟨hid, r, hr⟩
    · rintro ⟨-, r, hr⟩
      exact ⟨_, r, hr, rfl⟩

end Engine

/-- In every engine that a host can bring about the links are sound, links that would close a cycle and only these
are refused for it, and a node can be removed exactly if it is not the root and nothing depends on it. -/
theorem Reachable.links (h : Reachable created e) :
    e.graph.WellLinked ∧
    (∀ p c m n, e.graph.node? p = some m → m.kind.isData = true →
      e.graph.node? c = some n → n.kind.isDerived = true →
      ((∃ a b, e.addChild p c = .error (.graphCycle a b)) ↔
        ¬ e.graph.Feeds p c ∧ ReflTransGen e.graph.Feeds c p)) ∧
    (∀ id n parents, e.graph.node? id = some n → (parents ≠ [] → n.kind.isDerived = true) →
      (∀ p ∈ parents, ∃ m, e.graph.node? p = some m ∧ m.kind.isData = true) →
      ((∃ a b, e.setParents id parents = .error (.graphCycle a b)) ↔
        ∃ p ∈ parents, ReflTransGen e.graph.Feeds id p)) ∧
    (∀ id, (∃ next, e.removeNode id = .ok next) ↔
      id ≠ e.root ∧ ∃ n, e.graph.node? id = some n ∧ n.children = [] ∧ memberCount n = 0) := by
  have hw := h.sound.graph.linked
  refine ⟨hw, ?_, ?_, ?_⟩
  · intro p c m n hm hd hn hk
    simp only [Engine.addChild_eq_error_iff]
    exact hw.addChild_cycle_iff hm hd hn hk
  · intro id n parents hn hk hp
    simp only [Engine.setParents_eq_error_iff]
    exact hw.setParents_cycle_iff hn hk hp
  · intro id
    rw [Engine.exists_removeNode_iff, Graph.exists_removeNode_iff]

/-- Two formulas, of which the second reads the first. -/
def formulaChain : Engine Unit :=
  let spec : HostSpec := .formula .int ⟨"none", fun _ _ => none⟩
  (Engine.new .default ()).run [.createNode spec [], .createNode spec [⟨1, 0⟩]]

/-- The first formula of a chain cannot read the second. -/
theorem formulaChain_refuses_cycle :
    ∃ a b, formulaChain.addChild ⟨2, 0⟩ ⟨1, 0⟩ = .error (.graphCycle a b) := by
  have h : Reachable _ formulaChain := (Reachable.new .default ()).run _
  refine (h.links.2.1 _ _ _ _ rfl rfl rfl rfl).2 ⟨?_, .single ⟨_, rfl, List.mem_singleton_self _⟩⟩
  rintro ⟨n, hn, hp⟩
  rw [show formulaChain.graph.node? ⟨1, 0⟩ = some _ from rfl, Option.some.injEq] at hn
  rw [← hn] at hp
  cases hp

end Dataflow
