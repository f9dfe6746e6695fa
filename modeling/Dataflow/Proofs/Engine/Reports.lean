import Dataflow.Proofs.Engine.Delivery
import Dataflow.Proofs.Engine.Listening
import Dataflow.Proofs.Engine.Stages

/-!
# Reports

The report of a pass is exact (`Engine.Accounts`).  No node changes and changes back, for a node is visited once, and a
visit with a new value differs from the value before (`Propagates.mem_changedNodes_iff`).  What is reported comes in
the order of evaluation, which is that of the settled depths (`Propagates.pairwise_place`).  Nothing is pending after
the pass but the inputs that observers have written to, and if there are none, another pass finds nothing to do
(`Engine.runPass_of_idle`).
-/

namespace Dataflow

open Dataflow.Graph

variable {σ : Type} {created : Nat} {e : Engine σ} {x : NodeId}

private theorem Node.toArg_of_evaluated {n m : Node} (h : n.evaluated = m.evaluated) (pass : Nat) :
    n.toArg pass = m.toArg pass := by
  have hvalue : n.value? = m.value? := (congrArg Node.value? h : n.evaluated.value? = m.evaluated.value?)
  have htrigger : n.kind.isTrigger = m.kind.isTrigger := by
    have hkind : n.kind.emptied = m.kind.emptied := (congrArg Node.kind h : n.evaluated.kind = m.evaluated.kind)
    rw [← NodeKind.isTrigger_emptied, hkind, NodeKind.isTrigger_emptied]
  unfold toArg firedIn
  rw [hvalue, htrigger, Node.changedIn_of_evaluated h]

namespace Graph

/-- The place of a node in the order of evaluation. -/
def place (g : Graph) (x : NodeId) : Pending := ⟨g.depthOf x, x⟩

variable {g g' : Graph}

private theorem place_congr (h : SameUpTo Node.depth g g') : g'.place = g.place := by
  funext x
  unfold place depthOf
  rw [h x]

private theorem args?_of_same {pass : Nat} (h : SameUpTo (Node.toArg · pass) g g') (parents : List NodeId) :
    g'.args? pass parents = g.args? pass parents := by
  unfold args?
  exact congrArg (parents.mapM ·) (funext h)

/-- A visit that changed a value, found in the list of them. -/
theorem mem_changedNodes {visits : List Visit} :
    x ∈ Engine.changedNodes visits ↔ ∃ v ∈ visits, v.entry.node = x ∧ ∃ w, v.outcome = .value w := by
  unfold Engine.changedNodes
  rw [List.mem_filterMap]
  refine exists_congr fun v => and_congr_right fun _ => ?_
  cases v.outcome <;> simp

namespace Propagates

variable {last : Graph} {pass : Nat} {pending : PendingSet} {visits : List Visit}

section

variable (h : Propagates pass g pending visits last) (hg : g.Ready) (hk : g.Keyed pending)
include h hg hk

/-- The visits that changed a value are those of the nodes that hold another value in the end. -/
theorem mem_changedNodes_iff :
    x ∈ Engine.changedNodes visits ↔ (last.node? x).map Node.value? ≠ (g.node? x).map Node.value? := by
  by_cases hx : ∃ v ∈ visits, v.entry.node = x
  · obtain ⟨v, hv, rfl⟩ := hx
    obtain ⟨n, hn, ho, hl, -⟩ := h.visited hg hk v hv
    -- The node is visited only once, so that its value changed if this visit changed it.
    have hvisit : v.entry.node ∈ Engine.changedNodes visits ↔ ∃ w, v.outcome = .value w := by
      rw [mem_changedNodes]
      constructor
      · rintro ⟨v', hv', hnode, hw⟩
        rwa [← List.inj_on_of_nodup_map (h.nodup_nodes hg hk) hv' hv hnode]
      · exact fun hw => ⟨v, hv, rfl, hw⟩
    rw [hvisit, hl, hn, Option.map_some, Option.map_some, Ne, Option.some.injEq]
    cases hout : v.outcome with
    | value w =>
      have hne : n.value? ≠ some w := (Node.outcome_eq_value (ho ▸ hout)).1
      simp [Node.settled, Ne.symm hne]
    | fire | unchanged | skip => simp [Node.settled]
  · rw [h.node?_of_not_visited hg hk fun v hv he => hx ⟨v, hv, he⟩, mem_changedNodes]
    constructor
    · rintro ⟨v, hv, he, -⟩
      exact absurd ⟨v, hv, he⟩ hx
    · exact fun hne => absurd rfl hne

/-- Only nodes that hold values change. -/
theorem kind_of_mem_changedNodes (hx : x ∈ Engine.changedNodes visits) :
    ∃ n, g.node? x = some n ∧ n.kind.isData = true ∧ n.kind.isTrigger = false := by
  obtain ⟨v, hv, rfl, w, hw⟩ := mem_changedNodes.1 hx
  obtain ⟨n, hn, ho, -, -⟩ := h.visited hg hk v hv
  refine ⟨n, hn, ?_⟩
  rcases (Node.outcome_eq_value (ho ▸ hw)).2 with ⟨t, rule, hkind, -⟩ | ⟨⟨t, hkind⟩ | hkind, -⟩ <;> rw [hkind] <;>
    exact ⟨rfl, rfl⟩

/-- Nodes that are picked from the visits come in the order of their places. -/
theorem pairwise_place {pick : Visit → Option NodeId} (hpick : ∀ v y, pick v = some y → y = v.entry.node) :
    (visits.filterMap pick).Pairwise fun x y => last.place x < last.place y := by
  have hplace : ∀ v ∈ visits, last.place v.entry.node = v.entry := by
    intro v hv
    obtain ⟨n, hn, hd⟩ := h.entry_eq hg hk v hv
    rw [place_congr ((h.same hg hk).weaken fun _ _ => Node.depth_of_shape), place, depthOf_eq hn, hd]
  rw [List.pairwise_filterMap]
  refine (h.pairwise hg hk).imp_of_mem fun {v w} hv hw hlt x hx y hy => ?_
  rw [hpick v x hx, hpick w y hy, hplace v hv, hplace w hw]
  exact hlt

end

end Propagates

end Graph

namespace Engine

/-! ### What is reported -/

/-- An evaluation propagates by its visits. -/
theorem propagates_visits (hs : e.schedule.Sound created) :
    Propagates (e.pass + 1) e.drainUpdate.2.2.graph e.drainUpdate.2.2.eval e.visits e.drainEval.2.2.graph ∧
      e.drainEval.1 = firedNodes e.visits := by
  obtain ⟨visits, last, heq, hrun, hlast, -, hfired⟩ := drainEval_eq hs
  have hvisits : e.visits = visits := congrArg Prod.fst heq
  rw [hvisits, hlast]
  exact ⟨hrun, hfired⟩

/-- What an evaluation tells a listener, and what it adds to the report. -/
theorem drainEval_account (hs : e.schedule.Sound created) :
    e.drainEval.2.1 = e.drainUpdate.2.1 ++ visitEvents e.visits ∧
    e.drainEval.2.2.report = addVisits e.drainUpdate.2.2.report e.drainEval.2.2.report.pass e.visits := by
  obtain ⟨visits, last, heq, hrun, -, -, -⟩ := drainEval_eq hs
  have hvisits : e.visits = visits := congrArg Prod.fst heq
  have hpass := schedule_drainUpdate_pass e
  rw [hvisits]
  unfold drainEval
  generalize e.drainUpdate = d at heq hrun hpass
  obtain ⟨changes, events, e₁⟩ := d
  simp only at heq hrun hpass ⊢
  split
  · next hempty =>
    rw [PendingSet.isEmpty_iff.1 hempty] at hrun
    obtain ⟨rfl, -⟩ := hrun.eq_of_empty
    simp [visitEvents, addVisits, changedNodes, firedNodes]
  · rw [hpass, heq]
    exact ⟨rfl, rfl⟩

/-- A pass reports what its visits add to the report so far. -/
theorem report_runPass (hs : e.schedule.Sound created) (hlevel : e.groupLevel = 0) :
    e.runPass.1.changed = e.report.changed ++ changedNodes e.visits ∧
    e.runPass.1.fired = e.report.fired ++ firedNodes e.visits ∧
    e.runPass.1.evaluated = e.report.evaluated + e.visits.countP Visit.isEvaluation := by
  have hupdate : e.drainUpdate.2.2.report =
      { e.report with depthUpdates := e.drainUpdate.2.2.report.depthUpdates } := by
    unfold drainUpdate
    split <;> rfl
  rw [(runPass_eq hlevel).2, (Engine.finalize_eq _).1]
  simp only
  rw [(drainEval_account hs).2, hupdate]
  exact ⟨rfl, rfl, rfl⟩

/-- The end of a pass evaluates nothing. -/
theorem phase_of_mem_worked {tasks : List Task} {event : PassEvent} (h : event ∈ (e.worked tasks).events) :
    event.phase = .finalize := by
  induction tasks using List.reverseRecOn with
  | nil => cases h
  | append_singleton tasks task ih =>
    rw [worked_concat] at h
    cases task with
    | reset id =>
      unfold Finalization.perform at h
      simp only at h
      split at h
      · exact ih h
      · rcases List.mem_append.1 h with h | h
        · exact ih h
        · rw [List.mem_singleton.1 h]
    | notify id notification =>
      unfold Finalization.perform at h
      simp only at h
      split at h <;> exact ih h

/-- A listener is told of every evaluation once. -/
theorem nodesIn_events (hs : e.schedule.Sound created) (hlevel : e.groupLevel = 0) :
    PassEvent.nodesIn e.runPass.2.1 .eval = (e.visits.filter Visit.isEvaluation).map (·.entry.node) := by
  have hevents : e.runPass.2.1 = e.drainEval.2.1 ++ (e.drainEval.2.2.worked e.drainEval.2.2.tasks).events := by
    unfold runPass
    rw [if_neg (by omega)]
    rfl
  have hupdate : e.drainUpdate.2.1.filter (·.phase = .eval) = [] := by
    rw [List.filter_eq_nil_iff]
    intro event hevent
    unfold drainUpdate at hevent
    split at hevent
    · cases hevent
    · obtain ⟨s, -, hs⟩ := List.mem_filterMap.1 hevent
      obtain ⟨depth, -, rfl⟩ := Option.map_eq_some_iff.1 hs
      simp
  have hfinal : (e.drainEval.2.2.worked e.drainEval.2.2.tasks).events.filter (·.phase = .eval) = [] := by
    rw [List.filter_eq_nil_iff]
    intro event hevent
    simp [phase_of_mem_worked hevent]
  unfold PassEvent.nodesIn
  rw [hevents, (drainEval_account hs).1, List.filter_append, List.filter_append, hupdate, hfinal, List.nil_append,
    List.append_nil, visitEvents, List.filter_map]
  simp [Function.comp_def]

/-! ### The engine after a pass -/

/-- The value that is asked for differs exactly if the node, or the value that it holds, does. -/
theorem value_ne_iff {f : Engine σ} :
    f.value x ≠ e.value x ↔ (f.graph.node? x).map Node.value? ≠ (e.graph.node? x).map Node.value? := by
  unfold Engine.value Engine.node Graph.node
  cases f.graph.node? x <;> cases e.graph.node? x <;> simp [bind, pure, Except.bind, Except.pure]

/-- With no work and nothing pending, a pass does nothing. -/
theorem runPass_of_idle (hlevel : e.groupLevel = 0) (hupdate : e.graph.update = .empty) (heval : e.eval = .empty)
    (htasks : e.tasks = []) (hreport : e.report = .none) : e.runPass = (.none, [], e) := by
  have hsettled : e.drainUpdate = (0, [], e) := by
    unfold drainUpdate
    rw [hupdate]
    rfl
  have hevaluated : e.drainEval = ([], [], e) := by
    unfold drainEval
    rw [hsettled]
    simp only [heval]
    rfl
  have hfinal : e.finalize = (.none, [], { e with tasks := [], report := .none }) := by
    unfold finalize
    rw [htasks, hreport]
    rfl
  have hrest : { e with tasks := [], report := .none } = e := by rw [← htasks, ← hreport]
  unfold runPass
  rw [if_neg (by omega)]
  simp only [hevaluated, hfinal, hrest, List.append_nil]

/-- The edits of observers that are accepted at the end of the next pass. -/
def acceptedEdits (e : Engine σ) : List Edit := e.passed.accepted (answers e.deliveries e.host).1

/-- Nothing is pending when the edits of observers are made. -/
theorem written_runPass (h : Reachable created e) (hlevel : e.groupLevel = 0) (htasks : e.tasks = []) :
    Written e.passed e.acceptedEdits e.runPass.2.2 := by
  have hs := h.sound
  have hcalls := calls_drainEval hs h.tidy hlevel htasks
  have hatRest := atRest_drainEval h hcalls
  have hasked : e.drainEval.2.2.asked = (answers e.deliveries e.host).1 :=
    congrArg Prod.fst (answers_drainEval hs hcalls)
  have hfinal : e.runPass.2.2 = e.passed.run ((answers e.deliveries e.host).1.map Edit.toOperation) := by
    rw [(runPass_eq hlevel).1, (Engine.finalize_eq _).2, hatRest, hasked]
  have htidy : e.passed.Tidy := by
    have hmoves : Moves (fun _ => True) e 0 e.drainEval.2.2.atRest :=
      (drainEval_moves hs trivial trivial).trans (atRest_moves _ trivial trivial)
    exact hatRest ▸ h.tidy.moves hs hmoves
  have heval : e.passed.eval = .empty := by
    obtain ⟨-, -, -, -, -, heval, -⟩ := drainEval_eq hs
    exact heval
  rw [hfinal]
  exact (Written.nil htidy heval).run _

/-- How the report of the next pass accounts for the pass, and what the pass leaves. -/
structure Accounts (e : Engine σ) : Prop where
  /-- The nodes reported as changed are those that hold another settled value after the pass. -/
  changed : ∀ x, x ∈ e.runPass.1.changed ↔ e.runPass.2.2.value x ≠ e.value x
  values : ∀ x ∈ e.runPass.1.changed, ∃ n, e.graph.node? x = some n ∧ n.kind.isData = true ∧ n.kind.isTrigger = false
  /-- The nodes reported as fired are the triggers that are marked with the pass. -/
  fired : ∀ x, x ∈ e.runPass.1.fired ↔
    ∃ n, e.runPass.2.2.graph.node? x = some n ∧ n.kind.isTrigger = true ∧ n.firedIn (e.pass + 1) = true
  /-- They are the nodes that were evaluated and fire for what their parents are after the pass. -/
  fires : ∀ x, x ∈ e.runPass.1.fired ↔ x ∈ PassEvent.nodesIn e.runPass.2.1 .eval ∧
    ∃ n args, e.graph.node? x = some n ∧ e.runPass.2.2.graph.args? (e.pass + 1) n.parents = some args ∧
      n.outcome args = .fire
  /-- Nodes are reported in the order of depth and id, each once. -/
  ordered : (e.runPass.1.changed.Pairwise fun x y => e.runPass.2.2.graph.place x < e.runPass.2.2.graph.place y) ∧
    e.runPass.1.fired.Pairwise fun x y => e.runPass.2.2.graph.place x < e.runPass.2.2.graph.place y
  /-- A listener changes nothing. -/
  listened : ∀ (α : Type) (listener? : Option (Listener α)), (Listening.runPass e listener?).1 = e.runPass.1 ∧
    (Listening.runPass e listener?).2.1 = e.runPass.2.2
  /-- As many nodes are reported as evaluated as a listener hears of. -/
  counted : (Listening.runPass e (some .recording)).2.2.map (fun l => (PassEvent.nodesIn l.state .eval).length) =
    some e.runPass.1.evaluated
  settled : e.runPass.2.2.graph.update = .empty
  /-- What is pending after the pass are the inputs and trigger inputs for which something is staged. -/
  pending : ∀ x, x ∈ e.runPass.2.2.eval.nodes ↔
    ∃ n s, e.runPass.2.2.graph.node? x = some n ∧ n.kind.isInput = true ∧ n.staged? = some s
  /-- What is staged then comes from accepted edits of observers. -/
  staged : ∀ x n, e.runPass.2.2.graph.node? x = some n → n.staged? = n.stagedBy e.acceptedEdits x
  /-- If observers asked for no edit, another pass does nothing. -/
  again : e.runPass.1.queuedEdits = 0 → e.runPass.2.2.runPass.1.isEmpty = true ∧
    e.runPass.2.2.runPass.2.1 = [] ∧ e.runPass.2.2.runPass.2.2 = e.runPass.2.2

end Engine

open Engine

/-! ### Exactness -/

section

variable (h : Reachable created e) (hlevel : e.groupLevel = 0)
include h hlevel

/-- The values that change are those of the visits. -/
theorem Reachable.mem_changedNodes_visits_iff : x ∈ changedNodes e.visits ↔ e.runPass.2.2.value x ≠ e.value x := by
  have hs := h.sound
  obtain ⟨hrun, -⟩ := propagates_visits hs
  obtain ⟨hready, hkeyed⟩ := ready_drainUpdate hs
  -- Neither settling depths nor the end of the pass touches a value.
  have hbefore : SameUpTo Node.value? e.graph e.drainUpdate.2.2.graph :=
    (same_drainUpdate hs).weaken fun _ _ he => (Node.of_flat_eq he).2.2.1
  have hafter : SameUpTo Node.value? e.drainEval.2.2.graph e.runPass.2.2.graph :=
    (same_runPass hlevel).weaken fun n m he => show n.evaluated.value? = m.evaluated.value? by rw [he]
  rw [value_ne_iff, hafter x, ← hbefore x]
  exact hrun.mem_changedNodes_iff hready hkeyed

/-- The triggers that fire are marked with the pass. -/
theorem Reachable.mem_drainEval_iff : x ∈ e.drainEval.1 ↔
    ∃ n, e.runPass.2.2.graph.node? x = some n ∧ n.kind.isTrigger = true ∧ n.firedIn (e.pass + 1) = true := by
  have hs := h.sound
  obtain ⟨hrun, -⟩ := propagates_visits hs
  obtain ⟨hready, hkeyed⟩ := ready_drainUpdate hs
  have hafter : SameUpTo (Node.toArg · (e.pass + 1)) e.drainEval.2.2.graph e.runPass.2.2.graph :=
    (same_runPass hlevel).weaken fun _ _ he => Node.toArg_of_evaluated he _
  -- What rules see of a trigger is whether it has fired.
  have hseen : ∀ {n : Node}, e.graph.node? x = some n → n.kind.isTrigger = true → ∃ m,
      e.runPass.2.2.graph.node? x = some m ∧ m.toArg (e.pass + 1) = ⟨none, decide (x ∈ e.drainEval.1), true⟩ := by
    intro n hn ht
    obtain ⟨m, hm, harg⟩ := h.toArg_trigger hn ht
    obtain ⟨m', hm', he⟩ := hafter.exists_of_some hm
    exact ⟨m', hm', he.trans harg⟩
  constructor
  · intro hx
    obtain ⟨n, hn, ht⟩ := (firing hs h.tidy).triggers x hx
    obtain ⟨m, hm, harg⟩ := hseen hn ht
    exact ⟨m, hm, congrArg Arg.isTrigger harg, (congrArg Arg.fired harg).trans (decide_eq_true hx)⟩
  · rintro ⟨m, hm, ht, hf⟩
    obtain ⟨q, hq, hqe⟩ := hafter.symm.exists_of_some hm
    obtain ⟨p, hp, hpe⟩ := (hrun.same hready hkeyed).symm.exists_of_some hq
    obtain ⟨n, hn, hne⟩ := (same_drainUpdate hs).symm.exists_of_some hp
    have htrigger : n.kind.isTrigger = true := by
      have hkind : p.kind.emptied = q.kind.emptied := (of_frame_eq (Node.frame_of_shape hpe)).2.2
      have hqt : q.kind.isTrigger = true := (congrArg Arg.isTrigger hqe).trans ht
      rw [(Node.of_flat_eq hne).1, ← NodeKind.isTrigger_emptied, hkind, NodeKind.isTrigger_emptied, hqt]
    obtain ⟨m', hm', harg⟩ := hseen hn htrigger
    cases hm.symm.trans hm'
    exact of_decide_eq_true ((congrArg Arg.fired harg).symm.trans hf)

/-- The triggers that fire are evaluated, and fire for what their parents are after the pass. -/
theorem Reachable.mem_drainEval_iff_outcome : x ∈ e.drainEval.1 ↔ x ∈ PassEvent.nodesIn e.runPass.2.1 .eval ∧
    ∃ n args, e.graph.node? x = some n ∧ e.runPass.2.2.graph.args? (e.pass + 1) n.parents = some args ∧
      n.outcome args = .fire := by
  have hs := h.sound
  obtain ⟨hrun, hfired⟩ := propagates_visits hs
  obtain ⟨hready, hkeyed⟩ := ready_drainUpdate hs
  have hargs : ∀ parents, e.runPass.2.2.graph.args? (e.pass + 1) parents =
      e.drainEval.2.2.graph.args? (e.pass + 1) parents :=
    args?_of_same ((same_runPass hlevel).weaken fun _ _ he => Node.toArg_of_evaluated he _)
  -- Settling depths leaves what an outcome depends on.
  have houtcome : ∀ {n m : Node}, m.flat = n.flat → m.parents = n.parents ∧ ∀ args, m.outcome args = n.outcome args :=
    fun {n m} he => ⟨(Node.of_flat_eq he).2.1, fun args => show m.flat.outcome args = n.flat.outcome args by rw [he]⟩
  rw [nodesIn_events hs hlevel, hfired]
  simp only [List.mem_map, List.mem_filter, hargs]
  constructor
  · intro hx
    obtain ⟨v, hv, rfl, ho⟩ := mem_firedNodes.1 hx
    obtain ⟨m, hm, hout, -, ha⟩ := hrun.visited hready hkeyed v hv
    obtain ⟨n, hn, he⟩ := (same_drainUpdate hs).symm.exists_of_some hm
    obtain ⟨hparents, hsame⟩ := houtcome he
    refine ⟨⟨v, ⟨hv, by simp [Visit.isEvaluation, ho]⟩, rfl⟩, n, v.args, hn, hparents ▸ ha, ?_⟩
    rw [hsame, ← hout, ho]
  · rintro ⟨⟨v, ⟨hv, -⟩, hx⟩, n, args, hn, ha, ho⟩
    obtain ⟨m, hm, he⟩ := (same_drainUpdate hs).exists_of_some hn
    obtain ⟨hparents, hsame⟩ := houtcome he
    exact (hrun.mem_firedNodes_iff hready hkeyed hm (hparents ▸ ha)).2 ⟨⟨v, hv, hx⟩, (hsame args).trans ho⟩

/-- What is reported comes in the order of the depths after the pass. -/
theorem Reachable.pairwise_place {pick : Visit → Option NodeId} (hpick : ∀ v y, pick v = some y → y = v.entry.node) :
    (e.visits.filterMap pick).Pairwise fun x y => e.runPass.2.2.graph.place x < e.runPass.2.2.graph.place y := by
  have hs := h.sound
  obtain ⟨hrun, -⟩ := propagates_visits hs
  obtain ⟨hready, hkeyed⟩ := ready_drainUpdate hs
  have hdepth : SameUpTo Node.depth e.drainEval.2.2.graph e.runPass.2.2.graph :=
    (same_runPass hlevel).weaken fun _ _ he => Node.depth_of_shape (Node.shape_of_evaluated he)
  rw [place_congr hdepth]
  exact hrun.pairwise_place hready hkeyed hpick

/-- What is pending after a pass. -/
theorem Reachable.mem_eval_runPass_iff (htasks : e.tasks = []) : x ∈ e.runPass.2.2.eval.nodes ↔
    ∃ n s, e.runPass.2.2.graph.node? x = some n ∧ n.kind.isInput = true ∧ n.staged? = some s := by
  have hwritten := written_runPass h hlevel htasks
  have hinput : ∀ {n : Node} {s : Staged}, n.stagedBy e.acceptedEdits x = some s → n.kind.isInput = true := by
    intro n s hs
    unfold Node.stagedBy at hs
    split at hs
    · next hk => exact hk ▸ rfl
    · next hk => exact hk ▸ rfl
    · cases hs
  rw [PendingSet.mem_nodes_iff, hwritten.eval, hwritten.node?]
  constructor
  · rintro ⟨d, hd⟩
    obtain ⟨n, hn, hd⟩ := Option.bind_eq_some_iff.1 hd
    obtain ⟨s, hs, -⟩ := Option.map_eq_some_iff.1 hd
    exact ⟨{ n with staged? := n.stagedBy e.acceptedEdits x }, s, by rw [hn]; rfl, hinput hs, hs⟩
  · rintro ⟨m, s, hm, -, hs⟩
    obtain ⟨n, hn, rfl⟩ := Option.map_eq_some_iff.1 hm
    refine ⟨n.depth, ?_⟩
    rw [hn, Option.bind_some, show n.stagedBy e.acceptedEdits x = some s from hs, Option.map_some]

/-- No depth is left to be settled. -/
theorem Reachable.update_runPass (htasks : e.tasks = []) : e.runPass.2.2.graph.update = .empty := by
  have hs := h.sound
  obtain ⟨hrun, -⟩ := propagates_visits hs
  obtain ⟨hready, hkeyed⟩ := ready_drainUpdate hs
  rw [(written_runPass h hlevel htasks).update]
  show e.drainEval.2.2.graph.update = .empty
  rw [hrun.update_eq hready hkeyed, update_drainUpdate hs]

/-- After a pass in which observers asked for no edit, nothing is left to do. -/
theorem Reachable.runPass_runPass (htasks : e.tasks = []) (hqueued : e.runPass.1.queuedEdits = 0) :
    e.runPass.2.2.runPass = (.none, [], e.runPass.2.2) := by
  have hs := h.sound
  have hcalls := calls_drainEval hs h.tidy hlevel htasks
  have hasked : e.drainEval.2.2.asked = [] := by
    rw [(runPass_eq hlevel).2, (Engine.finalize_eq _).1] at hqueued
    exact List.length_eq_zero_iff.1 hqueued
  have hfinal : e.runPass.2.2 = e.passed := by
    rw [(runPass_eq hlevel).1, (Engine.finalize_eq _).2, hasked, atRest_drainEval h hcalls]
    rfl
  have hupdate := h.update_runPass hlevel htasks
  obtain ⟨-, -, -, -, -, heval, -⟩ := drainEval_eq hs
  rw [hfinal] at hupdate ⊢
  refine runPass_of_idle ?_ hupdate heval rfl rfl
  show e.drainEval.2.2.groupLevel = 0
  rw [(drainEval_rest hs).1, hlevel]

end

/-- Outside of groups, with no work queued and nothing to report yet, a pass accounts for what it does, and leaves
pending what observers have written. -/
theorem Reachable.accounts (h : Reachable created e) (hlevel : e.groupLevel = 0) (htasks : e.tasks = [])
    (hreport : e.report.isEmpty = true) : e.Accounts := by
  have hs := h.sound
  have hempty : e.report.evaluated = 0 ∧ e.report.changed = [] ∧ e.report.fired = [] := by
    simp only [PassReport.isEmpty, Bool.and_eq_true, decide_eq_true_eq, List.isEmpty_iff] at hreport
    exact ⟨hreport.1.1.1.1.2, hreport.1.1.1.2, hreport.1.1.2⟩
  obtain ⟨hevaluated, hchanged, hfired⟩ := hempty
  obtain ⟨hc, hf, hn⟩ := report_runPass hs hlevel
  rw [hchanged, List.nil_append] at hc
  rw [hfired, List.nil_append] at hf
  rw [hevaluated, Nat.zero_add] at hn
  obtain ⟨hrun, hfiredNodes⟩ := propagates_visits hs
  obtain ⟨hready, hkeyed⟩ := ready_drainUpdate hs
  have hfires : e.runPass.1.fired = e.drainEval.1 := hf.trans hfiredNodes.symm
  refine ⟨fun x => ?_, fun x hx => ?_, fun x => ?_, fun x => ?_, ?_, fun α listener? => ?_, ?_,
    h.update_runPass hlevel htasks, fun x => h.mem_eval_runPass_iff hlevel htasks, fun x n hn => ?_, fun hqueued => ?_⟩
  · rw [hc]
    exact h.mem_changedNodes_visits_iff hlevel
  · rw [hc] at hx
    obtain ⟨m, hm, hkind⟩ := hrun.kind_of_mem_changedNodes hready hkeyed hx
    obtain ⟨n, hn, he⟩ := (same_drainUpdate hs).symm.exists_of_some hm
    exact ⟨n, hn, (Node.of_flat_eq he).1 ▸ hkind⟩
  · rw [hfires]
    exact h.mem_drainEval_iff hlevel
  · rw [hfires]
    exact h.mem_drainEval_iff_outcome hlevel
  · rw [hc, hf]
    constructor <;> refine h.pairwise_place hlevel fun v y hy => ?_
    all_goals
      split at hy
      · exact (Option.some.inj hy).symm
      · cases hy
  · rw [Listening.runPass_eq]
    exact ⟨rfl, rfl⟩
  · have hheard := congrArg (Option.map fun events => (PassEvent.nodesIn events .eval).length)
      (Listener.state_recording e.runPass.2.1)
    rw [Listening.runPass_eq, hn]
    rw [Option.map_map, Option.map_some, nodesIn_events hs hlevel, List.length_map,
      ← List.countP_eq_length_filter] at hheard
    exact hheard
  · rw [(written_runPass h hlevel htasks).node?] at hn
    obtain ⟨m, -, rfl⟩ := Option.map_eq_some_iff.1 hn
    rfl
  · rw [h.runPass_runPass hlevel htasks hqueued]
    exact ⟨rfl, rfl, rfl⟩

/-- An input that an observer copies into another one, a trigger input that has been provoked, and a formula that reads
the first input, which has been written to. -/
def relayedInput : Engine Unit :=
  (Engine.new .default ()).run [.createNode (.inputWith (.bool true)) [], .createNode (.inputWith (.bool true)) [],
    .createNode .triggerInput [],
    .createNode (.formula .bool ⟨"copy", fun args _ => args.head?.bind Arg.value?⟩) [⟨1, 0⟩],
    .onValue ⟨1, 0⟩ fun news queue host =>
      (match news with
        | .valueChanged _ v => queue ++ [.setValue ⟨2, 0⟩ v]
        | .provoked _ => queue, host),
    .provoke ⟨3, 0⟩, .setInput ⟨1, 0⟩ (.bool false)]

/-- The first pass leaves the copy pending, the second takes it up, and for a third there is nothing to do. -/
theorem relayedInput_accounts :
    relayedInput.runPass.1.changed = [⟨1, 0⟩, ⟨4, 0⟩] ∧ relayedInput.runPass.1.fired = [⟨3, 0⟩] ∧
    relayedInput.runPass.2.2.value ⟨4, 0⟩ ≠ relayedInput.value ⟨4, 0⟩ ∧
    ⟨2, 0⟩ ∈ relayedInput.runPass.2.2.eval.nodes ∧
    relayedInput.runPass.2.2.runPass.2.2.runPass.1.isEmpty = true := by
  have h : Reachable _ relayedInput := (Reachable.new .default ()).run _
  have hnext : Reachable _ relayedInput.runPass.2.2 := h.step .runPass
  have haccounts := h.accounts rfl rfl rfl
  have hchanged : relayedInput.runPass.1.changed = [⟨1, 0⟩, ⟨4, 0⟩] := by decide +kernel
  refine ⟨hchanged, by decide +kernel, (haccounts.changed ⟨4, 0⟩).1 (by rw [hchanged]; simp),
    (haccounts.pending ⟨2, 0⟩).2 ⟨_, _, rfl, rfl, rfl⟩, ?_⟩
  exact ((hnext.accounts rfl rfl rfl).again (by decide +kernel)).1

end Dataflow
