import Dataflow.Proofs.Engine.Finalization

/-!
# Provoked triggers and their resets

A trigger that fires is provoked until the end of the pass.  In every engine that a host can bring about a node is
provoked exactly if its reset is queued (`Engine.ResetsQueued`): evaluation fires a trigger and queues the reset in one
move, removing a node drops both, and no other move touches either.  So nothing is provoked when the queued work has
been done (`ResetsQueued.finalize`).
-/

namespace Dataflow

open Dataflow.Graph

namespace Graph

/-- The node has fired and has not been reset since. -/
def Provoked (g : Graph) (x : NodeId) : Prop := ∃ n, g.node? x = some n ∧ n.provoked = true

variable {g g' : Graph} {id x : NodeId} {n : Node}

theorem provoked_congr (h : SameUpTo Node.provoked g g') : g'.Provoked x ↔ g.Provoked x := by
  constructor
  · rintro ⟨m', hm', hp⟩
    obtain ⟨m, hm, he⟩ := h.symm.exists_of_some hm'
    exact ⟨m, hm, he ▸ hp⟩
  · rintro ⟨m, hm, hp⟩
    obtain ⟨m', hm', he⟩ := h.exists_of_some hm
    exact ⟨m', hm', he ▸ hp⟩

private theorem provoked_of_anonymous {n m : Node} (h : n.anonymous = m.anonymous) :
    n.provoked = m.provoked := by
  have hp : n.anonymous.provoked = m.anonymous.provoked := by rw [h]
  exact hp

@[simp] theorem provoked_addChild (n : Node) (c : NodeId) : (n.addChild c).provoked = n.provoked := by
  unfold Node.addChild
  split <;> rfl

@[simp] theorem provoked_removeChild (n : Node) (c : NodeId) : (n.removeChild c).provoked = n.provoked := rfl

/-- A new node is not provoked. -/
theorem Added.provoked_iff (h : g.Added n id g') (hn : n.provoked = false) : g'.Provoked x ↔ g.Provoked x := by
  constructor
  · rintro ⟨m', hm', hp⟩
    rcases h.some_cases hm' with ⟨-, rfl⟩ | ⟨m, hm, rfl⟩
    · rw [hn] at hp
      cases hp
    · refine ⟨m, hm, ?_⟩
      split at hp <;> simpa using hp
  · rintro ⟨m, hm, hp⟩
    refine ⟨_, h.of_some hm, ?_⟩
    split <;> simpa using hp

/-- Removing a node leaves provoked what is provoked of the others. -/
theorem Removed.provoked_iff (h : g.Removed id n g') : g'.Provoked x ↔ x ≠ id ∧ g.Provoked x := by
  have hkeep : ∀ m : Node, (if x ∈ n.parents then m.removeChild id else m).provoked = m.provoked := by
    intro m
    split <;> simp
  constructor
  · rintro ⟨m', hm', hp⟩
    obtain ⟨hx, m, hm, he⟩ := h.some_cases hm'
    refine ⟨hx, m, hm, ?_⟩
    rw [← hkeep m, ← provoked_of_anonymous he, hp]
  · rintro ⟨hx, m, hm, hp⟩
    obtain ⟨m', hm', he⟩ := h.of_some hm hx
    refine ⟨m', hm', ?_⟩
    rw [provoked_of_anonymous he, hkeep m, hp]

theorem Relinked.provoked_iff {parents : List NodeId} (h : g.Relinked id n parents g') :
    g'.Provoked x ↔ g.Provoked x := by
  constructor
  · rintro ⟨m', hm', hp⟩
    obtain ⟨m, cs, hm, rfl, -⟩ := h.some_cases hm'
    exact ⟨m, hm, hp⟩
  · rintro ⟨m, hm, hp⟩
    obtain ⟨cs, hcs, -⟩ := h.of_some hm
    exact ⟨_, hcs, hp⟩

private theorem provoked_settled (n : Node) (pass : Nat) (o : Outcome) :
    (n.settled pass o).provoked = true ↔ n.provoked = true ∨ o = .fire := by
  cases o <;> simp [Node.settled]

private theorem not_provoked_unprovoked (g : Graph) (x : NodeId) : ¬ g.unprovoked.Provoked x := by
  rintro ⟨n, hn, hp⟩
  rw [node?_unprovoked] at hn
  obtain ⟨m, -, rfl⟩ := Option.map_eq_some_iff.1 hn
  cases hp

/-- A visit that fired, found in the list of them. -/
theorem mem_firedNodes {visits : List Visit} :
    x ∈ Engine.firedNodes visits ↔ ∃ v ∈ visits, v.entry.node = x ∧ v.outcome = .fire := by
  unfold Engine.firedNodes
  rw [List.mem_filterMap]
  constructor
  · rintro ⟨v, hv, hx⟩
    split at hx
    · next ho => exact ⟨v, hv, Option.some.inj hx, ho⟩
    · cases hx
  · rintro ⟨v, hv, rfl, ho⟩
    exact ⟨v, hv, by rw [if_pos ho]⟩

/-- Evaluation provokes the triggers that it fires, and resets none. -/
theorem Propagates.provoked_iff {pass : Nat} {last : Graph} {pending : PendingSet} {visits : List Visit}
    (h : Propagates pass g pending visits last) (hg : g.Ready) (hk : g.Keyed pending) :
    last.Provoked x ↔ g.Provoked x ∨ x ∈ Engine.firedNodes visits := by
  rw [mem_firedNodes]
  by_cases hx : ∃ v ∈ visits, v.entry.node = x
  · obtain ⟨v, hv, rfl⟩ := hx
    obtain ⟨n, hn, -, hl, -⟩ := h.visited hg hk v hv
    have hlast : last.Provoked v.entry.node ↔ n.provoked = true ∨ v.outcome = .fire := by
      rw [← provoked_settled n pass]
      simp [Provoked, hl]
    have hfirst : g.Provoked v.entry.node ↔ n.provoked = true := by simp [Provoked, hn]
    -- The node is visited only once, so that it fired if this visit of it did.
    have hvisit : (∃ w ∈ visits, w.entry.node = v.entry.node ∧ w.outcome = .fire) ↔ v.outcome = .fire := by
      constructor
      · rintro ⟨w, hw, hnode, ho⟩
        rwa [← List.inj_on_of_nodup_map (h.nodup_nodes hg hk) hw hv hnode]
      · intro ho
        exact ⟨v, hv, rfl, ho⟩
    rw [hlast, hfirst, hvisit]
  · have hsame : last.node? x = g.node? x := h.node?_of_not_visited hg hk fun v hv he => hx ⟨v, hv, he⟩
    unfold Provoked
    rw [hsame]
    constructor
    · intro hp
      exact .inl hp
    · rintro (hp | ⟨v, hv, he, -⟩)
      · exact hp
      · exact absurd ⟨v, hv, he⟩ hx

end Graph

/-- The resets among the work that an evaluation leaves are those of the triggers that fired. -/
theorem ObserverTable.reset_mem_tasksAfter {σ : Type} (t : ObserverTable σ) {visits : List Visit} {x : NodeId} :
    .reset x ∈ visits.flatMap t.tasksAfter ↔ x ∈ Engine.firedNodes visits := by
  have hvisit : ∀ v : Visit, .reset x ∈ t.tasksAfter v ↔ v.entry.node = x ∧ v.outcome = .fire := by
    intro v
    unfold tasksAfter
    simp only
    split
    · next ho => simp [ho]
    · next ho => simp [ho, eq_comm]
    · next ho => simp [ho]
    · next ho => simp [ho]
  simp only [List.mem_flatMap, mem_firedNodes, hvisit]

variable {σ : Type} {created : Nat} {e e' : Engine σ}

namespace Engine

/-- A node is provoked exactly if its reset is queued. -/
def ResetsQueued (e : Engine σ) : Prop := ∀ x, e.graph.Provoked x ↔ .reset x ∈ e.tasks

namespace ResetsQueued

/-- Where neither changes. -/
private theorem congr (h : e.ResetsQueued) (hg : ∀ x, e'.graph.Provoked x ↔ e.graph.Provoked x)
    (ht : ∀ x, .reset x ∈ e'.tasks ↔ .reset x ∈ e.tasks) : e'.ResetsQueued := by
  intro x
  rw [hg, ht, h x]

private theorem graph {g : Graph} (h : e.ResetsQueued) (hg : ∀ x, g.Provoked x ↔ e.graph.Provoked x) :
    { e with graph := g }.ResetsQueued :=
  h.congr hg fun _ => Iff.rfl

/-- Evaluation queues a reset for every trigger that it lets fire. -/
theorem evaluate (h : e.ResetsQueued) (hs : e.schedule.Sound created) (hu : e.graph.update = .empty) :
    e.evaluating.ResetsQueued := by
  obtain ⟨visits, last, hready, hrun, heq⟩ := evaluating_eq hs hu
  rw [heq]
  intro x
  show last.Provoked x ↔ .reset x ∈ e.tasks ++ visits.flatMap e.observers.tasksAfter
  rw [List.mem_append, e.observers.reset_mem_tasksAfter, hrun.provoked_iff hready hs.keyed, h x]

/-- No move but doing the queued work touches one without the other. -/
theorem move {i : Nat} (h : e.ResetsQueued) (hs : e.schedule.Sound created) (hm : Move (· ≠ .work) e i e') :
    e'.ResetsQueued := by
  have hlinked := hs.graph.linked
  cases hm with
  | create _ ha =>
    obtain ⟨d, -, hadd, -⟩ := addNode_eq_ok hs.graph.store ha
    refine h.graph fun x => ?_
    rcases computeFirst_cases _ _ with heq | ⟨v, heq⟩
    · rw [heq]
      exact hadd.provoked_iff rfl
    · rw [heq, provoked_congr (SameUpTo.modify (fun n => by rfl) _ _)]
      exact hadd.provoked_iff rfl
  | addScope => exact h.graph fun x => (addScope_added hs.graph.store).provoked_iff rfl
  | rename _ hr =>
    exact h.graph fun x => provoked_congr ((setScope_eq_ok hr).same.weaken fun _ _ => provoked_of_anonymous)
  | @remove id removed g _ _ hr =>
    obtain ⟨n, hremoved, -, -⟩ := Graph.removeNode_eq_ok hs.graph.store hr
    intro x
    have hkept : g.Provoked x ↔ x ≠ id ∧ e.graph.Provoked x := hremoved.provoked_iff
    show g.Provoked x ↔ .reset x ∈ e.tasks.filter _
    rw [hkept, h x, List.mem_filter, decide_eq_true_iff]
    exact and_comm
  | addChild _ ha =>
    rcases addChild_eq_ok hlinked ha with ⟨hf, -⟩ | ⟨-, n, hr, -⟩
    · cases hf
    · exact h.graph fun x => hr.provoked_iff
  | removeChild _ ha =>
    rcases removeChild_eq_ok hlinked ha with ⟨hf, -⟩ | ⟨-, n, hr, -⟩
    · cases hf
    · exact h.graph fun x => hr.provoked_iff
  | setParents _ ha =>
    obtain ⟨n, hr, -⟩ := setParents_eq_ok hlinked ha
    exact h.graph fun x => hr.provoked_iff
  | write _ hw => cases hw <;> exact h.graph fun x => provoked_congr (SameUpTo.modify (fun n => by rfl) _ _)
  | unregister id =>
    unfold removeObserver
    split
    · refine h.congr (fun x => Iff.rfl) fun x => ?_
      show .reset x ∈ e.tasks.filter _ ↔ _
      simp [List.mem_filter, Task.isCallOf]
    · exact h
  | settle =>
    have hsame : SameUpTo Node.provoked e.graph e.graph.settleDepths.2 :=
      hs.graph.same_settleDepths.weaken fun n m he => show n.flat.provoked = m.flat.provoked by rw [he]
    unfold drainUpdate
    split
    · exact h
    · exact h.graph fun x => provoked_congr hsame
  | evaluate _ hu => exact h.evaluate hs hu
  | takeTasks hwork => exact absurd rfl hwork
  | reset _ hwork => exact absurd rfl hwork
  | share | register | recast | adjust => exact h

/-- Resets stay queued in all moves but those that do the queued work. -/
theorem moves {i : Nat} (h : e.ResetsQueued) (hs : e.schedule.Sound created) (hm : Moves (· ≠ .work) e i e') :
    e'.ResetsQueued :=
  (hm.induction (I := fun created e => e.schedule.Sound created ∧ e.ResetsQueued) ⟨hs, h⟩
    fun hI hm => ⟨hI.1.steps hm.steps, hI.2.move hI.1 hm⟩).2

/-- After an evaluation, a reset is queued for every provoked trigger. -/
theorem drainEval (h : e.ResetsQueued) (hs : e.schedule.Sound created) : e.drainEval.2.2.ResetsQueued :=
  h.moves hs (drainEval_moves hs (by simp) (by simp))

/-- The queued work resets all triggers. -/
theorem graph_atRest (h : e.ResetsQueued) : e.atRest.graph = e.graph.unprovoked :=
  graph_worked fun x n hn hp => (h x).1 ⟨n, hn, hp⟩

/-- When the queued work has been done, none is left and no node is provoked. -/
theorem finalize (h : e.ResetsQueued) : e.finalize.2.2.tasks = [] ∧ ∀ x, ¬ e.finalize.2.2.graph.Provoked x := by
  have hrun := Restaged.run e.atRest e.asked
  rw [(finalize_eq e).2]
  constructor
  · rw [hrun.rest]
    rfl
  · intro x
    have hsame : SameUpTo Node.provoked e.atRest.graph (e.atRest.run (e.asked.map Edit.toOperation)).graph :=
      hrun.same.weaken fun n m he => show n.unstaged.provoked = m.unstaged.provoked by rw [he]
    rw [provoked_congr hsame, h.graph_atRest]
    exact not_provoked_unprovoked e.graph x

private theorem of_finalize (h : e.ResetsQueued) : e.finalize.2.2.ResetsQueued := by
  obtain ⟨htasks, hquiet⟩ := h.finalize
  intro x
  rw [htasks]
  simp [hquiet x]

/-- After a pass, too, a reset is queued for every provoked trigger. -/
theorem runPass (h : e.ResetsQueued) (hs : e.schedule.Sound created) : e.runPass.2.2.ResetsQueued := by
  by_cases hlevel : e.groupLevel = 0
  · rw [(runPass_eq hlevel).1]
    exact (h.drainEval hs).of_finalize
  · unfold Engine.runPass
    rw [if_pos (by omega)]
    exact h

/-- Every operation keeps provoked triggers and queued resets in step. -/
theorem step (h : e.ResetsQueued) (hs : e.schedule.Sound created) (op : Operation σ) : (op.apply e).ResetsQueued := by
  have hmoves : (¬ op.Does e .work) → (op.apply e).ResetsQueued := by
    intro hwork
    refine h.moves hs ((op.moves hs).mono fun a ha he => ?_)
    rw [he] at ha
    exact hwork ha
  cases op with
  | finalize => exact h.of_finalize
  | runPass => exact h.runPass hs
  | closeGroup => exact runPass (e := { e with groupLevel := e.groupLevel - 1 }) h hs
  | _ => exact hmoves (by simp [Operation.Does])

end ResetsQueued

end Engine

/-- In every engine that a host can bring about a node is provoked exactly if its reset is queued. -/
theorem Reachable.resetsQueued (h : Reachable created e) : e.ResetsQueued := by
  induction h with
  | new config host =>
    intro x
    have hadd : Graph.empty.Added _ _ Graph.empty.addScope.2 := addScope_added Store.sound_empty
    show Graph.empty.addScope.2.Provoked x ↔ _
    rw [hadd.provoked_iff rfl]
    simp [Provoked, Graph.empty, node?, Store.empty, Store.get?, Engine.new]
  | step op hr ih => exact ih.step hr.sound op

end Dataflow
