import Dataflow.Proofs.Engine.Depths

/-!
# How many depths change

The depth update reports how often it has rewritten a depth.  It takes nodes out in the order of the depths stored for
them, which may be stale, so it can come to a node before it comes to one of the node's parents, and rewrite its depth
again later.  Each time is counted, and the count may exceed the number of nodes that have moved to another depth
(`raisedFormulas_overcounted`).

* `Settles.length_moved_le`: there are never more nodes that have moved than the update reports;
* `Settles.length_rewritten_eq_iff`: there are as many exactly if no depth was rewritten twice;
* `Settles.nodup_nodes`: this is so where links lead to greater stored depths, at least below what is pending
  (`Graph.Descends`), for the update then takes out no node twice.
-/

namespace Dataflow

open Dataflow.Graph Relation

namespace Graph

/-- The nodes that another graph has at other depths. -/
def moved (g g' : Graph) : List NodeId := g.store.ids.filter fun x => g'.depthOf x ≠ g.depthOf x

/-- The nodes whose depths an update has rewritten, each as often as it did so. -/
def rewritten (done : List Settling) : List NodeId := (done.filter Settling.changed).map (·.entry.node)

/-- The node is pending, or it lies below one that is. -/
def Unsettled (g : Graph) (x : NodeId) : Prop := ∃ y ∈ g.update.nodes, ReflTransGen g.Feeds y x

/-- Below what is pending, every link leads to a greater stored depth. -/
def Descends (g : Graph) : Prop := ∀ p c, g.Unsettled p → g.Feeds p c → g.depthOf p < g.depthOf c

private theorem length_rewritten (done : List Settling) :
    (rewritten done).length = done.countP Settling.changed := by
  rw [rewritten, List.length_map, List.countP_eq_length_filter]

private theorem mem_rewritten {done : List Settling} {x : NodeId} :
    x ∈ rewritten done ↔ ∃ s ∈ done, s.entry.node = x ∧ s.changed = true := by
  simp only [rewritten, List.mem_map, List.mem_filter]
  constructor
  · rintro ⟨s, ⟨hs, hc⟩, hx⟩
    exact ⟨s, hs, hx, hc⟩
  · rintro ⟨s, hs, hx, hc⟩
    exact ⟨s, ⟨hs, hc⟩, hx⟩

private theorem nodup_moved (g g' : Graph) : (g.moved g').Nodup := (Store.nodup_ids _).filter _

private theorem mem_moved {g g' : Graph} {x : NodeId} :
    x ∈ g.moved g' ↔ (∃ n, g.node? x = some n) ∧ g'.depthOf x ≠ g.depthOf x := by
  rw [moved, List.mem_filter, Store.mem_ids_iff, decide_eq_true_iff]
  rfl

namespace Settles

variable {g last : Graph} {done : List Settling}

section

variable (h : Settles g done last) (hg : g.Sound)
include h hg

/-- Only existing nodes are rewritten. -/
theorem exists_of_mem_rewritten {x : NodeId} (hx : x ∈ rewritten done) : ∃ n, g.node? x = some n := by
  induction h with
  | drained => cases hx
  | settle hp _ ih =>
    obtain ⟨n, d, hs, he⟩ := hg.settle_eq hp
    obtain ⟨s, hmem, rfl, hc⟩ := mem_rewritten.1 hx
    rcases List.mem_cons.1 hmem with rfl | hmem
    · rw [hs]
      exact ⟨n, he.node⟩
    · obtain ⟨m, hm⟩ := ih (he.sound_of hp hg) (mem_rewritten.2 ⟨s, hmem, rfl, hc⟩)
      obtain ⟨m', hm', -⟩ := he.same.symm.exists_of_some hm
      exact ⟨m', hm'⟩

/-- What has moved was rewritten. -/
theorem moved_subset : g.moved last ⊆ rewritten done := by
  intro x hx
  by_contra hnot
  refine (mem_moved.1 hx).2 ?_
  rw [depthOf, depthOf, h.node?_of_unchanged hg fun s hs hsx => ?_]
  by_contra hc
  exact hnot (mem_rewritten.2 ⟨s, hs, hsx, by simpa using hc⟩)

/-- A node that was rewritten once has moved: it is not taken back to the depth that it had. -/
theorem depthOf_ne (hnodup : (rewritten done).Nodup) {x : NodeId} (hx : x ∈ rewritten done) :
    last.depthOf x ≠ g.depthOf x := by
  induction h with
  | drained => cases hx
  | @settle g last e rest done hp hrun ih =>
    obtain ⟨n, d, hs, he⟩ := hg.settle_eq hp
    have hg' := he.sound_of hp hg
    have hother : ∀ y, y ≠ e.node → ({ g with update := rest }.settle e).2.depthOf y = g.depthOf y := by
      intro y hy
      rw [depthOf, depthOf, he.node?, if_neg hy]
    rw [hs] at hnodup hx
    by_cases hd : d = n.depth
    · have hcons : rewritten (⟨e, some d, decide (d ≠ n.depth)⟩ :: done) = rewritten done := by
        simp [rewritten, hd]
      have hsame : ({ g with update := rest }.settle e).2.depthOf x = g.depthOf x := by
        by_cases hxe : x = e.node
        · rw [hxe, depthOf, he.node?, if_pos rfl, depthOf_eq he.node, ← hd]
          rfl
        · exact hother x hxe
      rw [← hsame]
      exact ih hg' (hcons ▸ hnodup) (hcons ▸ hx)
    · have hcons : rewritten (⟨e, some d, decide (d ≠ n.depth)⟩ :: done) = e.node :: rewritten done := by
        simp [rewritten, hd]
      rw [hcons, List.nodup_cons] at hnodup
      rw [hcons, List.mem_cons] at hx
      by_cases hxe : x = e.node
      -- Nothing rewrites the node again.
      · subst hxe
        have hlast := hrun.node?_of_unchanged hg' fun s hmem hse => by
          by_contra hc
          exact hnodup.1 (mem_rewritten.2 ⟨s, hmem, hse, by simpa using hc⟩)
        rw [depthOf, hlast, he.node?, if_pos rfl, depthOf_eq he.node]
        exact hd
      · rw [← hother x hxe]
        exact ih hg' hnodup.2 (hx.resolve_left hxe)

/-- No more nodes have moved than depths were rewritten. -/
theorem length_moved_le : (g.moved last).length ≤ (rewritten done).length :=
  (List.subperm_of_subset (nodup_moved g last) (h.moved_subset hg)).length_le

/-- As many nodes have moved as depths were rewritten exactly if none was rewritten twice. -/
theorem length_rewritten_eq_iff : (rewritten done).length = (g.moved last).length ↔ (rewritten done).Nodup := by
  have hsub := List.subperm_of_subset (nodup_moved g last) (h.moved_subset hg)
  constructor
  · intro hlen
    have hperm := hsub.perm_of_length_le (Nat.le_of_eq hlen)
    exact hperm.nodup_iff.1 (nodup_moved g last)
  · intro hnodup
    refine Nat.le_antisymm (List.subperm_of_subset hnodup fun x hx => ?_).length_le hsub.length_le
    exact mem_moved.2 ⟨h.exists_of_mem_rewritten hg hx, h.depthOf_ne hg hnodup hx⟩

end

/-- Where links descend from what is pending, the nodes at or after the first pending one keep the depths that they
had at first until they are taken out, and they are taken out in the order of these. -/
private theorem nodup_nodes_of {g₀ : Graph} (hd : g₀.Descends) (h : Settles g done last) (hg : g.Sound)
    (hsame : SameUpTo Node.flat g₀ g) (hun : ∀ x ∈ g.update.nodes, g₀.Unsettled x)
    (hkept : ∀ x, (∃ f ∈ g.update.entries, f < ⟨g₀.depthOf x, x⟩ ∨ f.node = x) → g.depthOf x = g₀.depthOf x) :
    (done.map (·.entry.node)).Nodup ∧ ∀ b, (∀ f ∈ g.update.entries, b < f) →
      ∀ s ∈ done, b < ⟨g₀.depthOf s.entry.node, s.entry.node⟩ := by
  induction h with
  | drained => exact ⟨List.nodup_nil, fun _ _ s hs => by cases hs⟩
  | @settle g last e rest done hp hrun ih =>
    obtain ⟨n, d, -, he⟩ := hg.settle_eq hp
    generalize ({ g with update := rest }.settle e).2 = g' at he hrun ih
    have hentries := PendingSet.entries_of_pop hp
    have hfirst : e ∈ g.update.entries := hentries ▸ List.mem_cons_self ..
    have hplace : ∀ f ∈ g.update.entries, f = ⟨g₀.depthOf f.node, f.node⟩ := by
      intro f hf
      obtain ⟨m, hm, hmd⟩ := hg.keyed.entry hf
      rw [← hkept f.node ⟨f, hf, .inr rfl⟩, depthOf_eq hm, hmd]
    -- What is pending after this entry comes after it, under the depth that it had at first.
    have hafter : ∀ f ∈ g'.update.entries, e < f ∧ f = ⟨g₀.depthOf f.node, f.node⟩ ∧ g₀.Unsettled f.node := by
      intro f hf
      have hrest : ∀ f ∈ rest.entries, e < f ∧ f = ⟨g₀.depthOf f.node, f.node⟩ ∧ g₀.Unsettled f.node := by
        intro f hf
        have hmem : f ∈ g.update.entries := hentries ▸ List.mem_cons_of_mem _ hf
        exact ⟨PendingSet.lt_of_mem_pop hp hf, hplace f hmem, hun _ (List.mem_map_of_mem hmem)⟩
      rw [he.update] at hf
      split at hf
      · exact hrest f hf
      · rcases PendingSet.mem_of_mem_insertAll hf with hf | hf
        · exact hrest f hf
        · obtain ⟨hc, m, hm, hmd⟩ := mem_withDepths.1 hf
          have hfeeds := (hg.linked.mem_children_iff he.node).1 hc
          have hfeeds₀ := (feeds_congr (hsame.weaken fun _ _ => Node.frame_of_flat)).1 hfeeds
          obtain ⟨y, hy, hpath⟩ := hun _ (List.mem_map_of_mem hfirst)
          have hlt : e < ⟨g₀.depthOf f.node, f.node⟩ := by
            rw [hplace e hfirst]
            exact .inl (hd _ _ ⟨y, hy, hpath⟩ hfeeds₀)
          rw [he.node?, if_neg (hg.linked.ne_of_feeds hfeeds).symm] at hm
          have hf' : f = ⟨g₀.depthOf f.node, f.node⟩ := by
            rw [← hkept f.node ⟨e, hfirst, .inl hlt⟩, depthOf_eq hm, hmd]
          exact ⟨hf' ▸ hlt, hf', y, hy, hpath.tail hfeeds₀⟩
    obtain ⟨hnodup, hlater⟩ := ih (he.sound_of hp hg) (hsame.trans he.same)
      (fun x hx => by
        obtain ⟨f, hf, rfl⟩ := List.mem_map.1 hx
        exact (hafter f hf).2.2)
      (fun x ⟨f, hf, hfx⟩ => by
        obtain ⟨hef, hfp, -⟩ := hafter f hf
        have hlt : e < ⟨g₀.depthOf x, x⟩ := by
          rcases hfx with hfx | rfl
          · exact Pending.lt_trans hef hfx
          · exact hfp ▸ hef
        have hxe : x ≠ e.node := by
          rintro rfl
          rw [← hplace e hfirst] at hlt
          exact Pending.lt_irrefl e hlt
        rw [← hkept x ⟨e, hfirst, .inl hlt⟩, depthOf, depthOf, he.node?, if_neg hxe])
    have hdone := hlater e fun f hf => (hafter f hf).1
    simp only [List.map_cons, List.nodup_cons, List.forall_mem_cons, entry_settle]
    refine ⟨⟨fun hmem => ?_, hnodup⟩, fun b hb => ?_⟩
    · obtain ⟨s, hs, hse⟩ := List.mem_map.1 hmem
      have hlt := hdone s hs
      rw [hse, ← hplace e hfirst] at hlt
      exact Pending.lt_irrefl e hlt
    · have hbe := hb e hfirst
      exact ⟨hplace e hfirst ▸ hbe, fun s hs => Pending.lt_trans hbe (hdone s hs)⟩

/-- Where links descend from what is pending, no node is taken out twice. -/
theorem nodup_nodes (h : Settles g done last) (hg : g.Sound) (hd : g.Descends) :
    (done.map (·.entry.node)).Nodup :=
  (nodup_nodes_of hd h hg (.refl _ g) (fun x hx => ⟨x, hx, .refl⟩) fun _ _ => rfl).1

end Settles

end Graph

variable {σ : Type} {created : Nat} {e : Engine σ}

namespace Engine

/-- What the depth update of an engine reports of the depths that have changed. -/
structure CountsDepths (e : Engine σ) : Prop where
  /-- The number is how often a depth was rewritten, and it is added to the report of the pass. -/
  rewritten : e.drainUpdate.1 = (Graph.rewritten e.graph.settleDepths.1).length ∧
    e.drainUpdate.2.2.report = { e.report with depthUpdates := e.report.depthUpdates + e.drainUpdate.1 }
  /-- No more nodes than that have moved to another depth. -/
  atMost : (e.graph.moved e.drainUpdate.2.2.graph).length ≤ e.drainUpdate.1
  /-- As many have exactly if no depth was rewritten twice. -/
  exact_iff : e.drainUpdate.1 = (e.graph.moved e.drainUpdate.2.2.graph).length ↔
    (Graph.rewritten e.graph.settleDepths.1).Nodup
  /-- This is so whenever every link below what is pending leads to a greater stored depth. -/
  exact_of_descends : e.graph.Descends → e.drainUpdate.1 = (e.graph.moved e.drainUpdate.2.2.graph).length

private theorem drainUpdate_fst (e : Engine σ) :
    e.drainUpdate.1 = (Graph.rewritten e.graph.settleDepths.1).length := by
  rw [length_rewritten]
  unfold drainUpdate
  split
  · next hu =>
    rw [settleDepths_of_drained (PendingSet.isEmpty_iff.1 hu)]
    rfl
  · rfl

end Engine

/-- In every engine that a host can bring about the depth update counts the depths that it rewrites, which is the
number of nodes that have moved exactly if it rewrites none of them twice. -/
theorem Reachable.countsDepths (h : Reachable created e) : e.CountsDepths := by
  have hg : e.graph.Sound := h.sound.graph
  have hrun := hg.settles
  have hcount := e.drainUpdate_fst
  have hgraph : e.drainUpdate.2.2.graph = e.graph.settleDepths.2 := by rw [Engine.drainUpdate_eq]
  have hexact := hrun.length_rewritten_eq_iff hg
  refine ⟨⟨hcount, ?_⟩, ?_, ?_, fun hd => ?_⟩
  · rw [Engine.drainUpdate_eq, hcount, length_rewritten]
  · rw [hgraph, hcount]
    exact hrun.length_moved_le hg
  · rw [hgraph, hcount]
    exact hexact
  · rw [hgraph, hcount, hexact]
    exact (hrun.nodup_nodes hg hd).sublist (List.filter_sublist.map _)

/-- The two formulas of the chain have moved, and so many changes are reported. -/
theorem staleChain_countsDepths : staleChain.drainUpdate.1 = 2 ∧
    (staleChain.graph.moved staleChain.drainUpdate.2.2.graph).length = staleChain.drainUpdate.1 := by
  have h : Reachable _ staleChain := (Reachable.new .default ()).run _
  have hnodup : (Graph.rewritten staleChain.graph.settleDepths.1).Nodup := by decide +kernel
  exact ⟨by decide +kernel, (h.countsDepths.exact_iff.2 hnodup).symm⟩

/-- Two formulas and an input, of which the second formula has been given the input to read since, and the first the
second. -/
def raisedFormulas : Engine Unit :=
  let spec : HostSpec := .formula .int ⟨"none", fun _ _ => none⟩
  (Engine.new .default ()).run [.createNode spec [], .createNode spec [], .createNode (.input .int) [],
    .addChild ⟨2, 0⟩ ⟨1, 0⟩, .addChild ⟨3, 0⟩ ⟨2, 0⟩]

/-- Two nodes move, but the first formula is moved twice, before and after the second, so that three changes are
reported. -/
theorem raisedFormulas_overcounted :
    raisedFormulas.graph.moved raisedFormulas.drainUpdate.2.2.graph = [⟨1, 0⟩, ⟨2, 0⟩] ∧
    raisedFormulas.drainUpdate.1 = 3 ∧ raisedFormulas.runPass.1.depthUpdates = 3 :=
  ⟨by decide +kernel, by decide +kernel, by decide +kernel⟩

end Dataflow
