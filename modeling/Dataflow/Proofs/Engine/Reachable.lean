import Dataflow.Proofs.Engine.Moves

/-!
# Reachable engines

Every operation takes an engine through moves, and the moves take its schedule through steps that keep it sound.  So
every engine that a host can bring about has a sound schedule (`Reachable.sound`), and any other property of a new
engine that the moves keep (`Reachable.of_moves`).
-/

namespace Dataflow

open Dataflow.Graph

variable {σ : Type} {created : Nat} {e e' : Engine σ}

/-- The schedule of a new engine is sound. -/
theorem sound_new (config : EngineConfig) (host : σ) : Schedule.Sound 0 (Engine.new config host).schedule := by
  have hnone : ∀ x, Graph.empty.node? x = none := fun x => by simp [Graph.empty, node?, Store.empty, Store.get?]
  have hempty : Schedule.Sound 0 ⟨.empty, .empty, 0⟩ := by
    refine ⟨sound_empty, .empty _, fun x n hn => ?_, fun x _ n _ _ _ _ _ hn => ?_, Nat.zero_le _, fun x n hn => ?_⟩
    all_goals
      rw [hnone] at hn
      cases hn
  have hroot := hempty.addScope
  refine ⟨hroot.graph, hroot.keyed, hroot.marked, hroot.upToDate, Nat.le_refl 1, fun x n hn => ?_⟩
  have hadd : Graph.empty.Added _ _ Graph.empty.addScope.2 := addScope_added Store.sound_empty
  rcases hadd.some_cases hn with ⟨-, rfl⟩ | ⟨m, hm, -⟩
  · exact Nat.le_refl 0
  · rw [hnone] at hm
    cases hm

/-- Every engine that a host can bring about has a sound schedule. -/
theorem Reachable.sound (h : Reachable created e) : e.schedule.Sound created := by
  induction h with
  | new config host => exact sound_new config host
  | step op _ ih => exact ih.steps (op.moves ih).steps

/-- What holds of a new engine and is kept by every move of an engine with a sound schedule holds of every engine that
a host can bring about. -/
theorem Reachable.of_moves {I : Engine σ → Prop} (hnew : ∀ config host, I (.new config host))
    (hmove : ∀ {allowed : Engine.Act → Prop} {created i : Nat} {e e' : Engine σ}, e.schedule.Sound created → I e →
      Engine.Move allowed e i e' → I e') (h : Reachable created e) : I e := by
  induction h with
  | new config host => exact hnew config host
  | step op hr ih =>
    exact ((op.moves hr.sound).induction (I := fun created e => e.schedule.Sound created ∧ I e) ⟨hr.sound, ih⟩
      fun hI hm => ⟨hI.1.steps hm.steps, hmove hI.1 hI.2 hm⟩).2

/-! ### What is done by several operations -/

/-- Function groups are stored one after the other. -/
theorem Reachable.defineAll (h : Reachable created e) (scope : NodeId) (groups : List FunctionGroup) :
    ∃ k ≤ groups.length, Reachable (created + k) (e.defineAll scope groups).2 := by
  induction groups generalizing created e with
  | nil => exact ⟨0, Nat.le_refl 0, h⟩
  | cons group rest ih =>
    have hstep : Reachable (created + Operation.created.count (e.defineFunction scope group))
        (e.accept ((e.defineFunction scope group).map Prod.snd)) := h.step (.defineFunction scope group)
    rw [Engine.defineAll]
    cases hd : e.defineFunction scope group with
    | error err => exact ⟨0, Nat.zero_le _, h⟩
    | ok p =>
      rw [hd] at hstep
      obtain ⟨k, hk, hrest⟩ := ih hstep
      exact ⟨1 + k, by rw [List.length_cons]; omega, by rwa [← Nat.add_assoc]⟩

/-- The standard library can be installed. -/
theorem Reachable.installLibrary (h : Reachable created e) :
    ∃ k ≤ (StandardLibrary.groups e.config.maxVariadicArgs).length, Reachable (created + k) e.installLibrary.2 :=
  h.defineAll _ _

/-- What a host can do can be done in a group. -/
theorem Reachable.group {α : Type} {edits : Engine σ → α × Engine σ} {k : Nat} (h : Reachable created e)
    (hedits : ∀ {j : Nat} {f : Engine σ}, Reachable j f → Reachable (j + k) (edits f).2) :
    Reachable (created + k) (e.group edits).2.2 := by
  have hopen : Reachable created { e with groupLevel := e.groupLevel + 1 } := h.step .openGroup
  have hclose := (hedits hopen).step .closeGroup
  simp only [Operation.created, Operation.apply, Nat.add_zero] at hclose
  exact hclose

end Dataflow
