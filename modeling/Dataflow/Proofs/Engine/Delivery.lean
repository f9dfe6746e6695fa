import Dataflow.Proofs.Engine.Firing

/-!
# Delivery to observers

Evaluation queues work for every node that changed or fired, in the order of evaluation: a reset if the node is a
trigger, then a call for each of its observers.  So at the end of a pass observers are called in this order, each once,
with what became of their nodes (`Engine.deliveries`), after the last evaluation and after the resets of their triggers.
What they ask for is done last, as if it had been asked for from outside.

* `calls_visits`: the queued calls are those that are due;
* `reset_before_call`: the reset of a trigger is queued before the calls of its observers.
-/

namespace Dataflow

open Dataflow.Graph

variable {σ : Type} {created : Nat} {e : Engine σ}

/-- What the observers of a node are told after a pass in which it changed or fired. -/
def Node.news? (n : Node) (x : NodeId) : Option Notification :=
  if n.kind.isTrigger then some (.provoked x) else n.value?.map (.valueChanged x)

/-- What the observers of the visited node are to hear. -/
def Visit.news? (v : Visit) : Option Notification :=
  match v.outcome with
  | .value w => some (.valueChanged v.entry.node w)
  | .fire => some (.provoked v.entry.node)
  | .unchanged | .skip => none

namespace ObserverTable

variable {t : ObserverTable σ}

/-- The calls of the observers of a node that wait for this, in the order of their registration. -/
def callsOf (t : ObserverTable σ) (x : NodeId) (news : Notification) : List (Call σ) :=
  (t.entries.filter fun a => a.2.node = x ∧ a.2.watch = news.watch).map fun a => ⟨a.1, a.2.callback, news⟩

/-- The calls that are due for a node that changed or fired, by what has become of it. -/
def due (t : ObserverTable σ) (g : Graph) (x : NodeId) : List (Call σ) :=
  (((g.node? x).bind (·.news? x)).map (t.callsOf x)).getD []

/-- The observers that the index lists are found, in the order of their registration. -/
theorem calls_watching (h : t.Sound) (x : NodeId) (news : Notification) :
    ((t.watching x news.watch).map fun id => Task.notify id news).filterMap t.call? = t.callsOf x news := by
  have hfind : ∀ a ∈ t.entries, t.find? a.1 = some a.2 := fun a ha => h.find?_eq_some_iff.2 ha
  unfold watching callsOf
  rw [h.listed_eq, ofNode, List.filter_map, List.filter_filter, List.map_map, List.filterMap_map]
  have hfilter : t.entries.filter
      (fun a => (((fun id => (t.find? id).any fun o => o.watch = news.watch) ∘ Prod.fst) a) && decide (a.2.node = x)) =
      t.entries.filter fun a => a.2.node = x ∧ a.2.watch = news.watch := by
    refine List.filter_congr fun a ha => ?_
    simp [hfind a ha, Bool.and_comm]
  rw [hfilter, ← List.filterMap_eq_map]
  refine List.filterMap_congr fun a ha => ?_
  simp [call?, hfind a (List.mem_filter.1 ha).1]

/-- The work that the evaluation of a node leaves calls the observers that are to hear of it. -/
theorem calls_tasksAfter (h : t.Sound) (v : Visit) :
    (t.tasksAfter v).filterMap t.call? = (v.news?.map (t.callsOf v.entry.node)).getD [] := by
  unfold tasksAfter Visit.news?
  cases v.outcome with
  | value w => exact calls_watching h v.entry.node (.valueChanged v.entry.node w)
  | fire => exact calls_watching h v.entry.node (.provoked v.entry.node)
  | unchanged => rfl
  | skip => rfl

/-- The work after some visits calls the observers of the nodes that changed or fired, as these have become. -/
theorem calls_visits (h : t.Sound) (g : Graph) (visits : List Visit)
    (hnews : ∀ v ∈ visits, v.outcome.isChange = true → (g.node? v.entry.node).bind (·.news? v.entry.node) = v.news?) :
    (visits.flatMap t.tasksAfter).filterMap t.call? =
      ((visits.filter (·.outcome.isChange)).map (·.entry.node)).flatMap (t.due g) := by
  induction visits with
  | nil => rfl
  | cons v visits ih =>
    rw [List.forall_mem_cons] at hnews
    rw [List.flatMap_cons, List.filterMap_append, calls_tasksAfter h, ih hnews.2, List.filter_cons]
    cases hc : v.outcome.isChange with
    | true =>
      simp only [if_true, List.map_cons, List.flatMap_cons]
      rw [due, hnews.1 hc]
    | false =>
      have hnone : v.news? = none := by
        unfold Visit.news?
        cases ho : v.outcome <;> simp [ho, Outcome.isChange] at hc ⊢
      simp [hnone]

/-- The calls for a node are of registered observers of it. -/
theorem observer_of_due {g : Graph} {x : NodeId} {id : ObserverId} (hid : id ∈ (t.due g x).map Call.observer) :
    ∃ o, (id, o) ∈ t.entries ∧ o.node = x := by
  obtain ⟨c, hc, rfl⟩ := List.mem_map.1 hid
  unfold due at hc
  cases hnews : (g.node? x).bind (·.news? x) with
  | none => simp [hnews] at hc
  | some news =>
    simp only [hnews, Option.map_some, Option.getD_some, callsOf, List.mem_map, List.mem_filter,
      decide_eq_true_eq] at hc
    obtain ⟨a, ⟨ha, hnode, -⟩, rfl⟩ := hc
    exact ⟨a.2, ha, hnode⟩

/-- No observer is called twice for nodes that are listed once. -/
theorem nodup_due (h : t.Sound) (g : Graph) {changes : List NodeId} (hc : changes.Nodup) :
    ((changes.flatMap (t.due g)).map Call.observer).Nodup := by
  rw [List.map_flatMap, List.nodup_flatMap]
  constructor
  · intro x _
    unfold due
    cases (g.node? x).bind (·.news? x) with
    | none => exact List.nodup_nil
    | some news =>
      simp only [Option.map_some, Option.getD_some, callsOf, List.map_map]
      exact (List.filter_sublist.map Prod.fst).nodup h.nodup
  · refine hc.imp fun {x y} hne id hx hy => ?_
    obtain ⟨o, ho, hox⟩ := observer_of_due hx
    obtain ⟨o', ho', hoy⟩ := observer_of_due hy
    rw [h.unique ho ho'] at hox
    exact hne (hox.symm.trans hoy)

/-- Where the work after some visits calls an observer of a trigger, it has reset the trigger before. -/
theorem reset_before_call {visits : List Visit} {done rest : List Task} {id : ObserverId} {x : NodeId}
    (h : visits.flatMap t.tasksAfter = done ++ .notify id (.provoked x) :: rest) : .reset x ∈ done := by
  induction visits generalizing done with
  | nil => simp at h
  | cons v visits ih =>
    rw [List.flatMap_cons, List.append_eq_append_iff] at h
    rcases h with ⟨more, rfl, hmore⟩ | ⟨more, hself, hmore⟩
    · exact List.mem_append_right _ (ih hmore)
    · cases more with
      | nil =>
        rw [List.nil_append] at hmore
        have hbefore : Task.reset x ∈ [] := ih hmore.symm
        cases hbefore
      | cons task more =>
        rw [List.cons_append, List.cons.injEq] at hmore
        obtain ⟨rfl, -⟩ := hmore
        unfold tasksAfter at hself
        simp only at hself
        split at hself
        · have hmem : Task.notify id (.provoked x) ∈ done ++ .notify id (.provoked x) :: more := by simp
          rw [← hself] at hmem
          simp at hmem
        · cases done with
          | nil => cases hself
          | cons first done =>
            have hmem : Task.notify id (.provoked x) ∈ done ++ .notify id (.provoked x) :: more := by simp
            rw [List.cons_append, List.cons.injEq] at hself
            obtain ⟨rfl, hself⟩ := hself
            rw [← hself] at hmem
            obtain ⟨id', -, he⟩ := List.mem_map.1 hmem
            cases he
            exact List.mem_cons_self ..
        · simp at hself
        · simp at hself

end ObserverTable

namespace Engine

/-- What the next evaluation does. -/
def visits (e : Engine σ) : List Visit := (e.drainUpdate.2.2.graph.propagate (e.pass + 1) e.drainUpdate.2.2.eval).1

/-- The nodes that change or fire in the next evaluation, in its order. -/
def changes (e : Engine σ) : List NodeId := (e.visits.filter (·.outcome.isChange)).map (·.entry.node)

/-- The calls that are due at the end of the next pass. -/
def deliveries (e : Engine σ) : List (Call σ) := e.changes.flatMap (e.observers.due e.runPass.2.2.graph)

/-- The engine that the next pass leaves before the edits that observers ask for are made. -/
def passed (e : Engine σ) : Engine σ :=
  { e.drainEval.2.2 with
    graph := e.drainEval.2.2.graph.unprovoked
    host := (answers e.deliveries e.host).2
    tasks := []
    report := .none }

/-- How the next pass calls observers. -/
structure Delivers (e : Engine σ) : Prop where
  /-- The nodes that change or fire are those marked with the pass, each listed once. -/
  changes : e.changes.Nodup ∧
    ∀ x, x ∈ e.changes ↔ ∃ n, e.runPass.2.2.graph.node? x = some n ∧ n.firedIn (e.pass + 1) = true
  /-- They are listed in the order of evaluation. -/
  ordered : e.changes.Sublist (e.visits.map (·.entry.node))
  /-- The queued calls are those that are due, and no observer is called twice. -/
  calls : e.drainEval.2.2.calls = e.deliveries ∧ (e.deliveries.map Call.observer).Nodup
  /-- When an observer is called, evaluation is over, and the trigger of which it is told has been reset. -/
  timing : ∀ done id news rest, e.drainEval.2.2.tasks = done ++ .notify id news :: rest →
    SameUpTo Node.evaluated (e.drainEval.2.2.worked done).graph e.runPass.2.2.graph ∧
      ∀ x, news = .provoked x → ¬ (e.drainEval.2.2.worked done).graph.Provoked x
  /-- The edits are made after all calls, in the order of the queue, like edits from outside. -/
  edits : e.runPass.2.2 = e.passed.run ((answers e.deliveries e.host).1.map Edit.toOperation)
  notifications : e.runPass.1.notifications = e.deliveries.length
  queuedEdits : e.runPass.1.queuedEdits = (answers e.deliveries e.host).1.length
  rejectedEdits : e.runPass.1.rejectedEdits =
    e.passed.refusals ((answers e.deliveries e.host).1.map Edit.toOperation)

/-- What an evaluation does to the engine besides the graph. -/
theorem drainEval_rest (h : e.schedule.Sound created) :
    e.drainEval.2.2 = { e with
      graph := e.drainEval.2.2.graph
      eval := .empty
      pass := e.drainEval.2.2.pass
      tasks := e.tasks ++ e.visits.flatMap e.observers.tasksAfter
      report := e.drainEval.2.2.report } ∧
    e.drainEval.2.2.report.notifications = e.report.notifications ∧
    e.drainEval.2.2.report.rejectedEdits = e.report.rejectedEdits := by
  obtain ⟨visits, last, heq, hrun, -, heval, -⟩ := drainEval_eq h
  have hvisits : e.visits = visits := congrArg Prod.fst heq
  have hupdate := drainUpdate_eq e
  have hpass := schedule_drainUpdate_pass e
  rw [hvisits]
  unfold drainEval at heval ⊢
  generalize e.drainUpdate = d at heq hrun hupdate hpass heval
  obtain ⟨changed, events, e₁⟩ := d
  simp only at heq hrun hupdate hpass heval ⊢
  split
  · next hempty =>
    rw [PendingSet.isEmpty_iff.1 hempty] at hrun
    obtain ⟨rfl, -⟩ := hrun.eq_of_empty
    rw [hupdate]
    simp [PendingSet.isEmpty_iff.1 hempty]
  · rw [hpass, heq, hupdate]
    exact ⟨rfl, rfl, rfl⟩

/-- What observers are told of a visited node is what has become of it in the end. -/
theorem news_visited (h : e.schedule.Sound created) {g : Graph}
    (hsame : SameUpTo Node.evaluated e.drainEval.2.2.graph g) {v : Visit} (hv : v ∈ e.visits)
    (hc : v.outcome.isChange = true) : (g.node? v.entry.node).bind (·.news? v.entry.node) = v.news? := by
  obtain ⟨visits, last, heq, hrun, hlast, -, -⟩ := drainEval_eq h
  obtain ⟨hready, hkeyed⟩ := ready_drainUpdate h
  have hvisits : e.visits = visits := congrArg Prod.fst heq
  obtain ⟨n, -, ho, hl, -⟩ := hrun.visited hready hkeyed v (hvisits ▸ hv)
  obtain ⟨m, hm, he⟩ := hsame.exists_of_some (hlast.symm ▸ hl)
  have hvalue : m.value? = (n.settled (e.pass + 1) v.outcome).value? :=
    (congrArg Node.value? he : m.evaluated.value? = (n.settled (e.pass + 1) v.outcome).evaluated.value?)
  have hkind : m.kind.isTrigger = n.kind.isTrigger := by
    have hk : m.kind.emptied = (n.settled (e.pass + 1) v.outcome).kind.emptied :=
      (congrArg Node.kind he : m.evaluated.kind = (n.settled (e.pass + 1) v.outcome).evaluated.kind)
    have hsettled : (n.settled (e.pass + 1) v.outcome).kind = n.kind := by cases v.outcome <;> rfl
    rw [← NodeKind.isTrigger_emptied, hk, hsettled, NodeKind.isTrigger_emptied]
  rw [hm, Option.bind_some]
  unfold Node.news? Visit.news?
  rw [hkind, hvalue]
  cases hout : v.outcome with
  | value w =>
    have htrigger : n.kind.isTrigger = false := by
      rcases (Node.outcome_eq_value (ho ▸ hout)).2 with ⟨t, rule, hk, -⟩ | ⟨⟨t, hk⟩ | hk, -⟩ <;> rw [hk] <;> rfl
    simp [htrigger, Node.settled]
  | fire =>
    have htrigger : n.kind.isTrigger = true := by
      rcases Node.outcome_eq_fire.1 (ho ▸ hout) with ⟨rule, hk, -⟩ | ⟨hk, -⟩ <;> rw [hk] <;> rfl
    simp [htrigger]
  | unchanged => simp [hout, Outcome.isChange] at hc
  | skip => simp [hout, Outcome.isChange] at hc

/-- The nodes that change or fire are those that are marked with the pass in the end. -/
theorem mem_changes_iff (h : e.schedule.Sound created) {g : Graph}
    (hsame : SameUpTo Node.evaluated e.drainEval.2.2.graph g) {x : NodeId} :
    x ∈ e.changes ↔ ∃ n, g.node? x = some n ∧ n.firedIn (e.pass + 1) = true := by
  obtain ⟨visits, last, heq, hrun, hlast, -, -⟩ := drainEval_eq h
  obtain ⟨hready, hkeyed⟩ := ready_drainUpdate h
  have hpass : ∀ x n, e.drainUpdate.2.2.graph.node? x = some n → n.changedIn < e.pass + 1 :=
    fun _ _ hn => changedIn_drainUpdate_lt h hn
  have hmarks := hrun.firedIn_visited hready hkeyed hpass
  have hfired : ∀ {n m : Node}, n.evaluated = m.evaluated → n.firedIn (e.pass + 1) = m.firedIn (e.pass + 1) := by
    intro n m he
    unfold Node.firedIn
    rw [Node.changedIn_of_evaluated he]
  rw [hlast] at hsame
  unfold Engine.changes Engine.visits
  rw [heq]
  simp only [List.mem_map, List.mem_filter]
  constructor
  · rintro ⟨v, ⟨hv, hc⟩, rfl⟩
    obtain ⟨n, -, -, hl, -⟩ := hrun.visited hready hkeyed v hv
    obtain ⟨m, hm, he⟩ := hsame.exists_of_some hl
    refine ⟨m, hm, ?_⟩
    rw [hfired he, hmarks v hv _ hl, hc]
  · rintro ⟨m, hm, hf⟩
    obtain ⟨n, hn, he⟩ := hsame.symm.exists_of_some hm
    rw [← hfired he] at hf
    by_cases hx : ∃ v ∈ visits, v.entry.node = x
    · obtain ⟨v, hv, rfl⟩ := hx
      exact ⟨v, ⟨hv, (hmarks v hv n hn).symm.trans hf⟩, rfl⟩
    · rw [hrun.node?_of_not_visited hready hkeyed fun v hv hvx => hx ⟨v, hv, hvx⟩] at hn
      have hlt := hpass x n hn
      have hne : n.changedIn ≠ e.pass + 1 := by omega
      simp [Node.firedIn, hne] at hf

/-- No node is listed twice, for evaluation visits each once. -/
theorem nodup_changes (hs : e.schedule.Sound created) : e.changes.Nodup := by
  obtain ⟨visits, last, heq, hrun, -, -, -⟩ := drainEval_eq hs
  obtain ⟨hready, hkeyed⟩ := ready_drainUpdate hs
  refine (List.filter_sublist.map _).nodup ?_
  unfold Engine.visits
  rw [heq]
  exact hrun.nodup_nodes hready hkeyed

/-- Outside of groups, nodes stay as they have been evaluated for the rest of the pass. -/
theorem same_runPass (hlevel : e.groupLevel = 0) :
    SameUpTo Node.evaluated e.drainEval.2.2.graph e.runPass.2.2.graph := by
  rw [(runPass_eq hlevel).1]
  exact same_finalize _

/-- With no work queued before, the queue holds what the visits leave, in their order. -/
theorem tasks_drainEval (hs : e.schedule.Sound created) (htasks : e.tasks = []) :
    e.drainEval.2.2.tasks = e.visits.flatMap e.observers.tasksAfter := by
  rw [(drainEval_rest hs).1, htasks]
  rfl

/-- The calls that evaluation leaves queued are those that are due. -/
theorem calls_drainEval (hs : e.schedule.Sound created) (ht : e.Tidy) (hlevel : e.groupLevel = 0)
    (htasks : e.tasks = []) : e.drainEval.2.2.calls = e.deliveries := by
  have hobservers : e.drainEval.2.2.observers = e.observers := by rw [(drainEval_rest hs).1]
  unfold Engine.calls
  rw [tasks_drainEval hs htasks, hobservers]
  exact ObserverTable.calls_visits ht.indexed _ _ fun v hv hc => news_visited hs (same_runPass hlevel) hv hc

/-- The edits that the calls that are due leave in the queue, and what they leave of the state of the host. -/
theorem answers_drainEval (hs : e.schedule.Sound created) (hcalls : e.drainEval.2.2.calls = e.deliveries) :
    (e.drainEval.2.2.asked, (e.drainEval.2.2.worked e.drainEval.2.2.tasks).host) = answers e.deliveries e.host := by
  have hhost : e.drainEval.2.2.host = e.host := by rw [(drainEval_rest hs).1]
  rw [← hcalls, ← hhost]
  exact (answers_worked _ _).1

/-- The queued work leaves the engine in which the edits are made. -/
theorem atRest_drainEval (h : Reachable created e) (hcalls : e.drainEval.2.2.calls = e.deliveries) :
    e.drainEval.2.2.atRest = e.passed := by
  have hgraph : (e.drainEval.2.2.worked e.drainEval.2.2.tasks).graph = e.drainEval.2.2.graph.unprovoked :=
    (h.resetsQueued.drainEval h.sound).graph_atRest
  unfold Engine.atRest passed
  rw [hgraph, ← answers_drainEval h.sound hcalls]

/-- No move but the one that gives the report out changes how many refused edits the report counts. -/
private theorem Move.rejectedEdits {allowed : Act → Prop} {i : Nat} {e' : Engine σ} (hm : Move allowed e i e') :
    e'.report.rejectedEdits = e.report.rejectedEdits ∨ e'.report = .none := by
  cases hm with
  | takeTasks => exact .inr rfl
  | settle =>
    unfold drainUpdate
    split <;> exact .inl rfl
  | unregister id =>
    unfold removeObserver
    split <;> exact .inl rfl
  | write _ hw => cases hw <;> exact .inl rfl
  | _ => exact .inl rfl

end Engine

open Engine

/-- Edits are made when the report has been given out, so that no report that is kept counts refused ones. -/
theorem Reachable.rejectedEdits_report (h : Reachable created e) : e.report.rejectedEdits = 0 := by
  refine h.of_moves (I := fun e => e.report.rejectedEdits = 0) (fun _ _ => rfl) fun _ hzero hm => ?_
  rcases hm.rejectedEdits with hsame | hnone
  · rw [hsame, hzero]
  · rw [hnone]
    rfl

/-- Outside of groups, with no work queued and nothing to report yet, a pass calls the observers of the nodes that
change or fire, in the order of evaluation and, for one node, of registration, each once with what has become of its
node, after everything has been evaluated; then it makes the edits that they left in the queue. -/
theorem Reachable.delivers (h : Reachable created e) (hlevel : e.groupLevel = 0) (htasks : e.tasks = [])
    (hreport : e.report.isEmpty = true) : e.Delivers := by
  have hs := h.sound
  have hempty : e.report.notifications = 0 := by
    simp only [PassReport.isEmpty, Bool.and_eq_true, decide_eq_true_eq] at hreport
    exact hreport.1.2
  have hsame := same_runPass hlevel
  have hcalls := calls_drainEval hs h.tidy hlevel htasks
  have hasked : e.drainEval.2.2.asked = (answers e.deliveries e.host).1 :=
    congrArg Prod.fst (answers_drainEval hs hcalls)
  have hatRest := atRest_drainEval h hcalls
  obtain ⟨-, hnotifications, hrejected⟩ := drainEval_rest hs
  obtain ⟨hpass, hpassReport⟩ := runPass_eq hlevel
  obtain ⟨hreportEq, hfinal⟩ := finalize_eq e.drainEval.2.2
  refine ⟨⟨nodup_changes hs, fun x => mem_changes_iff hs hsame⟩, List.filter_sublist.map _,
    ⟨hcalls, ObserverTable.nodup_due h.tidy.indexed _ (nodup_changes hs)⟩, fun done id news rest hsplit => ?_,
    ?_, ?_, ?_, ?_⟩
  · refine ⟨(same_foldl_perform _ done ⟨_, _, [], 0, []⟩).symm.trans hsame, ?_⟩
    rintro x rfl ⟨n, hn, hp⟩
    rw [tasks_drainEval hs htasks] at hsplit
    have hreset : .reset x ∈ done := ObserverTable.reset_before_call hsplit
    rw [node?_worked, if_pos hreset] at hn
    obtain ⟨m, -, rfl⟩ := Option.map_eq_some_iff.1 hn
    cases hp
  · rw [hpass, hfinal, hatRest, hasked]
  · rw [hpassReport, hreportEq, hcalls]
    show e.drainEval.2.2.report.notifications + _ = _
    rw [hnotifications, hempty, Nat.zero_add]
  · rw [hpassReport, hreportEq, hasked]
  · rw [hpassReport, hreportEq, hatRest, hasked]
    show e.drainEval.2.2.report.rejectedEdits + _ = _
    rw [hrejected, h.rejectedEdits_report, Nat.zero_add]

/-- An input with two observers and a trigger input with one.  Observers keep what they are told.  That of the trigger
asks for the value that is there, and the latter of the input for a provoke of the input, which is refused. -/
def observedInputs : Engine (List Notification) :=
  let keeping (edits : List Edit) : Callback (List Notification) :=
    fun news queue log => (queue ++ edits, log ++ [news])
  (Engine.new .default []).run [.createNode (.inputWith (.bool true)) [], .createNode .triggerInput [],
    .onProvoked ⟨2, 0⟩ (keeping [.setValue ⟨1, 0⟩ (.bool false)]), .onValue ⟨1, 0⟩ (keeping []),
    .onValue ⟨1, 0⟩ (keeping [.provoke ⟨1, 0⟩]), .provoke ⟨2, 0⟩, .setInput ⟨1, 0⟩ (.bool false)]

/-- Three observers are called, those of the input first, and one of the two edits is refused. -/
theorem observedInputs_delivers :
    observedInputs.deliveries.map (fun c => (c.observer.raw, c.notification)) =
      [(1, .valueChanged ⟨1, 0⟩ (.bool false)), (2, .valueChanged ⟨1, 0⟩ (.bool false)), (0, .provoked ⟨2, 0⟩)] ∧
    observedInputs.runPass.1.notifications = 3 ∧ observedInputs.runPass.1.queuedEdits = 2 ∧
    observedInputs.runPass.1.rejectedEdits = 1 := by
  have h : Reachable _ observedInputs := (Reachable.new .default []).run _
  have hdelivers := h.delivers rfl rfl rfl
  refine ⟨by decide +kernel, hdelivers.notifications.trans ?_, hdelivers.queuedEdits.trans ?_,
    hdelivers.rejectedEdits.trans ?_⟩ <;> decide +kernel

end Dataflow
