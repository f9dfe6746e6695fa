import Dataflow.Proofs.Engine.Reachable

/-!
# Settling depths in an engine

In every engine that a host can bring about the depth update ends with every depth being the length of the longest
chain of links, however many edits have piled up before it, and changes nothing else.
-/

namespace Dataflow

open Dataflow.Graph

variable {σ : Type} {created : Nat} {e : Engine σ}

/-- What a depth update that listed `done` made of an engine. -/
structure DepthsSettled (e : Engine σ) (done : List Settling) (e' : Engine σ) : Prop where
  /-- The update ends by itself: allowed to take out more entries than it did, it does the same. -/
  ends : ∀ k, done.length ≤ k → e.graph.settleWithin k = (done, e'.graph)
  drained : e'.graph.update = .empty
  /-- Every depth is the length of the longest chain of the links as they were. -/
  depth : ∀ id n, e'.graph.node? id = some n → IsGreatest { k | e.graph.Chain k id } n.depth
  /-- Entries are taken out one by one, each under the depth stored for its node at the time. -/
  taken : ∀ i (hi : i < done.length), ∃ rest n,
    (e.graph.settleWithin i).2.update.pop? = some (done[i].entry, rest) ∧
    (e.graph.settleWithin i).2.node? done[i].entry.node = some n ∧ n.depth = done[i].entry.depth
  sorted : done.Pairwise fun s t => s.entry.depth ≤ t.entry.depth
  /-- No depth that occurs on the way needs more than 32 bits. -/
  small : ∀ i id n, (e.graph.settleWithin i).2.node? id = some n → n.depth < 2 ^ 32
  /-- The store holds the same nodes in the same slots, but for their depths. -/
  nodes : e'.graph.store.map Node.flat = e.graph.store.map Node.flat
  /-- The same nodes wait for evaluation, under their new depths. -/
  eval : ∀ x, x ∈ e'.eval.nodes ↔ x ∈ e.eval.nodes
  keyed : e'.graph.Keyed e'.eval
  /-- Nothing else changes but the count in the report. -/
  rest : e' = { e with
    graph := e'.graph
    eval := e'.eval
    report := { e.report with depthUpdates := e.report.depthUpdates + done.countP Settling.changed } }

/-- With nothing pending the depth update does nothing. -/
theorem Graph.settleDepths_of_drained {g : Graph} (h : g.update = .empty) : g.settleDepths = ([], g) := by
  have heq := (Settles.drained h).settleWithin_eq g.settleBound
  rwa [List.length_nil, Nat.zero_add] at heq

/-- A depth update settles depths and puts the pending nodes under their new depths. -/
theorem Engine.drainUpdate_eq (e : Engine σ) :
    e.drainUpdate.2.2 = { e with
      graph := e.graph.settleDepths.2
      eval := e.drainUpdate.2.2.eval
      report := { e.report with
        depthUpdates := e.report.depthUpdates + e.graph.settleDepths.1.countP Settling.changed } } := by
  unfold drainUpdate
  split
  · next hu =>
    rw [settleDepths_of_drained (PendingSet.isEmpty_iff.1 hu)]
    rfl
  · rfl

/-- A depth update leaves the same nodes pending for evaluation. -/
theorem Engine.mem_eval_drainUpdate (h : e.schedule.Sound created) {x : NodeId} :
    x ∈ e.drainUpdate.2.2.eval.nodes ↔ x ∈ e.eval.nodes := by
  unfold drainUpdate
  split
  · rfl
  · exact h.mem_eval_settle

/-- Settling depths ends, and makes every depth the length of the longest chain of links. -/
theorem Reachable.depthsSettled (h : Reachable created e) (hfew : created < 2 ^ 30) :
    DepthsSettled e e.graph.settleDepths.1 e.drainUpdate.2.2 := by
  have hs := h.sound
  have hg : e.graph.Sound := hs.graph
  have hrun := hg.settles
  have hgraph : e.drainUpdate.2.2.graph = e.graph.settleDepths.2 := by rw [Engine.drainUpdate_eq]
  have hsound' := hs.steps (Engine.drainUpdate_steps e)
  refine ⟨?_, ?_, ?_, ?_, hrun.pairwise hg, ?_, ?_, fun x => Engine.mem_eval_drainUpdate hs, hsound'.keyed, ?_⟩
  · intro k hk
    have heq := hrun.settleWithin_eq (k - e.graph.settleDepths.1.length)
    rw [Nat.add_sub_cancel' hk] at heq
    rw [heq, hgraph]
  · rw [hgraph]
    exact hrun.update_eq
  · intro id n hn
    exact hg.isGreatest_settleDepths (hgraph ▸ hn)
  · intro i hi
    obtain ⟨rest, hpop⟩ := hrun.pop?_settleWithin i hi
    have hmem : e.graph.settleDepths.1[i].entry ∈ (e.graph.settleWithin i).2.update.entries := by
      rw [PendingSet.entries_of_pop hpop]
      exact List.mem_cons_self ..
    obtain ⟨n, hn, hd⟩ := (hg.settleWithin i).keyed.entry hmem
    exact ⟨rest, n, hpop, hn, hd⟩
  · intro i id n hn
    have hle := hg.depth_settleWithin_le hs.depth_le i hn
    have hsize : e.graph.size ≤ created + 1 := hs.size_le
    omega
  · rw [hgraph]
    exact hg.store_settleWithin _
  · rw [hgraph]
    exact Engine.drainUpdate_eq e

/-- A formula that reads another one, which has been given an input to read since. -/
def staleChain : Engine Unit :=
  let spec : HostSpec := .formula .int ⟨"none", fun _ _ => none⟩
  (Engine.new .default ()).run [.createNode (.input .int) [], .createNode spec [], .createNode spec [⟨2, 0⟩],
    .addChild ⟨1, 0⟩ ⟨2, 0⟩]

/-- The depth of the last formula in the chain becomes 2, which is the length of the chain. -/
theorem staleChain_depth :
    staleChain.graph.depthOf ⟨3, 0⟩ = 1 ∧ staleChain.drainUpdate.2.2.graph.depthOf ⟨3, 0⟩ = 2 ∧
      IsGreatest { k | staleChain.graph.Chain k ⟨3, 0⟩ } 2 := by
  have h : Reachable _ staleChain := (Reachable.new .default ()).run _
  have hsettled := h.depthsSettled (by decide)
  exact ⟨rfl, rfl, hsettled.depth ⟨3, 0⟩ _ rfl⟩

end Dataflow
