import Dataflow.Proofs.Engine.Changes
import Dataflow.Proofs.Engine.Evaluation
import Dataflow.Proofs.Observer

/-!
# Bookkeeping

The pending sets, the queued work and the observers of an engine agree with its graph (`Engine.Bookkept`).  Therefore
nothing that was pending or queued is dropped when its turn comes, and every write that was staged takes effect
(`Engine.DropsNothing`).
-/

namespace Dataflow

open Dataflow.Graph

/-- The change may be staged for a node of this kind. -/
def Staged.Suits : Staged → NodeKind → Prop
  | value _, kind => (∃ t, kind = .input t) ∨ kind = .constant
  | provoke, kind => kind = .triggerInput

/-- The staged change has happened to the node. -/
def Staged.Done : Staged → Node → Prop
  | value v, n => n.value? = some v
  | provoke, n => n.provoked = true

theorem Staged.suits_emptied {s : Staged} {k k' : NodeKind} (he : k.emptied = k'.emptied) (h : s.Suits k) :
    s.Suits k' := by
  cases s with
  | value v =>
    obtain ⟨t, rfl⟩ | rfl := h
    · cases k' <;> first | exact .inl ⟨_, rfl⟩ | cases he
    · cases k' <;> first | exact .inr rfl | cases he
  | provoke =>
    change k = _ at h
    subst h
    cases k' <;> first | rfl | cases he

/-- Evaluation lets a staged change happen. -/
theorem Node.staged_done {n : Node} {s : Staged} {args : List Arg} (pass : Nat) (hs : n.staged? = some s)
    (h : s.Suits n.kind) : s.Done (n.settled pass (n.outcome args)) ∧ (s = .provoke → n.outcome args = .fire) := by
  unfold outcome
  cases s with
  | value v =>
    refine ⟨?_, fun he => by cases he⟩
    obtain ⟨t, hk⟩ | hk := h
    all_goals
      rw [hk]
      simp only [hs]
      split
      · next hv => exact hv
      · rfl
  | provoke =>
    rw [show n.kind = .triggerInput from h]
    simp only [hs, if_true]
    exact ⟨rfl, fun _ => trivial⟩

@[simp] theorem Node.staged?_settled (n : Node) (pass : Nat) (o : Outcome) : (n.settled pass o).staged? = none := by
  cases o <;> rfl

variable {σ : Type} {created : Nat} {e e' : Engine σ}

namespace Engine

/-- What is staged waits for evaluation, observers and queued work are about nodes and observers that exist, and the
root scope is there. -/
structure Tidy (e : Engine σ) : Prop where
  staged : ∀ {x n s}, e.graph.node? x = some n → n.staged? = some s → s.Suits n.kind ∧ x ∈ e.eval.nodes
  indexed : e.observers.Sound
  observed : ∀ {id o}, (id, o) ∈ e.observers.entries → ∃ n, e.graph.node? o.node = some n
  queued : ∀ task ∈ e.tasks, ∃ n, e.graph.node? task.node = some n
  notified : ∀ {id notification}, .notify id notification ∈ e.tasks →
    ∃ o, (id, o) ∈ e.observers.entries ∧ o.node = notification.node
  rooted : ∃ n, e.graph.node? e.root = some n

namespace Tidy

theorem calm (h : e.Tidy) (hc : Calm e e') : e'.Tidy := by
  have hlive : ∀ {x}, (∃ n, e.graph.node? x = some n) → ∃ n, e'.graph.node? x = some n := by
    rintro x ⟨n, hn⟩
    obtain ⟨n', hn', -⟩ := hc.nodes.of_some hn
    exact ⟨n', hn'⟩
  refine ⟨fun {x n s} hn hs => ?_, ?_, fun {id o} ho => ?_, fun task ht => ?_, fun {id notification} ht => ?_,
    hc.root ▸ hlive h.rooted⟩
  · rcases hc.nodes.some_cases hn with ⟨n₀, hn₀, he⟩ | hnone
    · obtain ⟨hsuits, hx⟩ := h.staged hn₀ (Node.staged?_of_held he ▸ hs)
      exact ⟨Staged.suits_emptied (Node.emptied_of_held he).symm hsuits, hc.eval x hx⟩
    · rw [hs] at hnone
      cases hnone
  · exact hc.observers ▸ h.indexed
  · exact hlive (h.observed (hc.observers ▸ ho))
  · exact hlive (h.queued task (hc.tasks task ht))
  · rw [hc.observers]
    exact h.notified (hc.tasks _ ht)

/-- A removed node takes its observers and its queued work along, so that nothing is left that is about it. -/
theorem remove {id : NodeId} {n removed : Node} {g : Graph} (h : e.Tidy) (hroot : id ≠ e.root)
    (hr : e.graph.Removed id n g) : (e.dropping id removed g).Tidy := by
  have hlive : ∀ {x}, x ≠ id → (∃ m, e.graph.node? x = some m) → ∃ m, g.node? x = some m := by
    rintro x hx ⟨m, hm⟩
    obtain ⟨m', hm', -⟩ := hr.of_some hm hx
    exact ⟨m', hm'⟩
  have hentries : ∀ {oid o}, (oid, o) ∈ (e.observers.forget id).entries ↔
      (oid, o) ∈ e.observers.entries ∧ o.node ≠ id := by
    intro oid o
    change (oid, o) ∈ e.observers.entries.filter (fun a => a.1 ∉ e.observers.listed id) ↔ _
    rw [List.mem_filter, decide_eq_true_iff, h.indexed.listed_eq]
    exact and_congr_right fun ho => not_congr (h.indexed.mem_ofNode_iff ho)
  refine ⟨fun {x m s} hm hs => ?_, h.indexed.forget id, fun {oid o} ho => ?_, fun task ht => ?_,
    fun {oid notification} ht => ?_, hlive hroot.symm h.rooted⟩
  · obtain ⟨hx, m₀, hm₀, he⟩ := hr.held_some_cases hm
    obtain ⟨hsuits, hmem⟩ := h.staged hm₀ (Node.staged?_of_held he ▸ hs)
    exact ⟨Staged.suits_emptied (Node.emptied_of_held he).symm hsuits, PendingSet.mem_nodes_remove.2 ⟨hx, hmem⟩⟩
  · obtain ⟨ho, hne⟩ := hentries.1 ho
    exact hlive hne (h.observed ho)
  · obtain ⟨ht, hne⟩ := List.mem_filter.1 ht
    exact hlive (of_decide_eq_true hne) (h.queued task ht)
  · obtain ⟨ht, hne⟩ := List.mem_filter.1 ht
    obtain ⟨o, ho, hnode⟩ := h.notified ht
    exact ⟨o, hentries.2 ⟨ho, hnode ▸ of_decide_eq_true hne⟩, hnode⟩

/-- Staging a change for a node that it suits, or withdrawing what was staged. -/
private theorem rewritten {id : NodeId} {n : Node} {s? : Option Staged} {eval : PendingSet}
    {constants : Table Value NodeId} (h : e.Tidy) (hn : e.graph.node? id = some n)
    (hself : ∀ s, s? = some s → s.Suits n.kind ∧ id ∈ eval.nodes)
    (hothers : ∀ x, x ≠ id → x ∈ e.eval.nodes → x ∈ eval.nodes) :
    Tidy { e with
      graph := e.graph.modify id fun n => { n with staged? := s? }
      eval := eval
      constants := constants } := by
  have hlive : ∀ {x}, (∃ m, e.graph.node? x = some m) →
      ∃ m, (e.graph.modify id fun n => { n with staged? := s? }).node? x = some m := exists_modify id _
  refine ⟨fun {x m s} hm hs => ?_, h.indexed, fun ho => hlive (h.observed ho), fun task ht => hlive (h.queued task ht),
    h.notified, hlive h.rooted⟩
  rw [node?_modify] at hm
  split at hm
  · next hx =>
    rw [hx, hn, Option.map_some, Option.some.injEq] at hm
    subst hm
    exact hx ▸ hself s hs
  · next hx =>
    obtain ⟨hsuits, hmem⟩ := h.staged hm hs
    exact ⟨hsuits, hothers x hx hmem⟩

/-- A write stages what suits the node, and marks the node as pending. -/
theorem write {a : Act} (h : e.Tidy) (hw : Write a e e') : e'.Tidy := by
  have hstage : ∀ {id : NodeId} {n : Node} {s : Staged} {constants : Table Value NodeId},
      e.graph.node? id = some n → s.Suits n.kind → Tidy { e.staging id n s with constants := constants } := by
    intro id n s constants hn hsuits
    refine h.rewritten hn (fun s' hs' => ?_) fun x _ hx => PendingSet.mem_nodes_insert.2 (.inr hx)
    rw [← Option.some.inj hs']
    exact ⟨hsuits, PendingSet.mem_nodes_insert.2 (.inl rfl)⟩
  cases hw with
  | input hn hk _ => exact hstage hn (.inl ⟨_, hk⟩)
  | provoke hn hk => exact hstage hn hk
  | fold hn hk _ => exact hstage hn (.inr hk)
  | withdraw hn _ =>
    exact h.rewritten hn (fun _ hs => by cases hs) fun x hx hmem => PendingSet.mem_nodes_remove.2 ⟨hx, hmem⟩

theorem register {o : Observer σ} {n : Node} (h : e.Tidy) (hn : e.graph.node? o.node = some n) :
    (e.register o).2.Tidy := by
  refine ⟨h.staged, h.indexed.register o, fun {id o'} ho' => ?_, h.queued, fun {id notification} ht => ?_,
    h.rooted⟩
  · rcases List.mem_append.1 ho' with ho' | ho'
    · exact h.observed ho'
    · cases List.mem_singleton.1 ho'
      exact ⟨n, hn⟩
  · obtain ⟨o', ho', hnode⟩ := h.notified ht
    exact ⟨o', List.mem_append_left _ ho', hnode⟩

/-- An observer that goes takes its queued calls along. -/
theorem unregister (h : e.Tidy) (id : ObserverId) : (e.removeObserver id).2.Tidy := by
  unfold removeObserver
  split
  · next hfound =>
    obtain ⟨o, ho⟩ := Option.isSome_iff_exists.1 hfound
    have hentries : (e.observers.unregister id).entries = e.observers.entries.filter (·.1 ≠ id) := by
      simp only [ObserverTable.unregister, ho]
    refine ⟨h.staged, h.indexed.unregister id, fun {oid o'} ho' => ?_, fun task ht => ?_,
      fun {oid notification} ht => ?_, h.rooted⟩
    · change (oid, o') ∈ (e.observers.unregister id).entries at ho'
      rw [hentries] at ho'
      exact h.observed (List.mem_filter.1 ho').1
    · exact h.queued task (List.mem_filter.1 ht).1
    -- The calls of the observer are no longer queued, so that it is missed by none.
    · obtain ⟨ht, hother⟩ := List.mem_filter.1 ht
      obtain ⟨o', ho', hnode⟩ := h.notified ht
      refine ⟨o', ?_, hnode⟩
      change (oid, o') ∈ (e.observers.unregister id).entries
      rw [hentries, List.mem_filter]
      exact ⟨ho', by simpa [Task.isCallOf] using hother⟩
  · exact h

/-- Evaluation lets all happen that is staged, and queues work for nodes and observers that are there. -/
theorem evaluate (h : e.Tidy) (hs : e.schedule.Sound created) (hu : e.graph.update = .empty) : e.evaluating.Tidy := by
  obtain ⟨visits, last, hready, hrun, heq⟩ := evaluating_eq hs hu
  rw [heq]
  have hvisited := hrun.visited hready hs.keyed
  have hlive : ∀ {x}, (∃ m, e.graph.node? x = some m) → ∃ m, last.node? x = some m := by
    rintro x ⟨m, hm⟩
    obtain ⟨m', hm', -⟩ := (hrun.same hready hs.keyed).exists_of_some hm
    exact ⟨m', hm'⟩
  have hafter : ∀ {task}, task ∈ visits.flatMap e.observers.tasksAfter →
      ∃ v ∈ visits, task.node = v.entry.node ∧ ∀ id notification, task = .notify id notification →
        ∃ o, (id, o) ∈ e.observers.entries ∧ o.node = v.entry.node := by
    intro task ht
    obtain ⟨v, hv, ht⟩ := List.mem_flatMap.1 ht
    exact ⟨v, hv, h.indexed.mem_tasksAfter ht⟩
  refine ⟨fun {x n s} hn hst => ?_, h.indexed, fun ho => hlive (h.observed ho), fun task ht => ?_,
    fun {id notification} ht => ?_, hlive h.rooted⟩
  -- Nothing is staged any more: what was, has been visited.
  · exfalso
    by_cases hx : ∃ v ∈ visits, v.entry.node = x
    · obtain ⟨v, hv, rfl⟩ := hx
      obtain ⟨m, -, -, hm, -⟩ := hvisited v hv
      rw [hn, Option.some.injEq] at hm
      rw [hm, Node.staged?_settled] at hst
      cases hst
    · have hsame := hrun.node?_of_not_visited hready hs.keyed fun v hv he => hx ⟨v, hv, he⟩
      rw [hn] at hsame
      exact hx (hrun.visited_of_pending hready hs.keyed (h.staged hsame.symm hst).2)
  · rcases List.mem_append.1 ht with ht | ht
    · exact hlive (h.queued task ht)
    · obtain ⟨v, hv, hnode, -⟩ := hafter ht
      obtain ⟨m, hm, -⟩ := hvisited v hv
      exact hnode ▸ hlive ⟨m, hm⟩
  · rcases List.mem_append.1 ht with ht | ht
    · exact h.notified ht
    · obtain ⟨v, -, hnode, ho⟩ := hafter ht
      obtain ⟨o, ho, hon⟩ := ho id notification rfl
      exact ⟨o, ho, hon.trans hnode.symm⟩

/-- Every move keeps an engine tidy. -/
theorem move {allowed : Act → Prop} {i : Nat} (h : e.Tidy) (hs : e.schedule.Sound created)
    (hm : Move allowed e i e') : e'.Tidy := by
  cases hm.change hs with
  | calm hc => exact h.calm hc
  | remove _ hroot hr _ => exact h.remove hroot hr
  | write _ hw => exact h.write hw
  | share => exact ⟨h.staged, h.indexed, h.observed, h.queued, h.notified, h.rooted⟩
  | register hn => exact h.register hn
  | unregister id => exact h.unregister id
  | evaluate _ hu => exact h.evaluate hs hu

theorem moves {allowed : Act → Prop} {i : Nat} (h : e.Tidy) (hs : e.schedule.Sound created)
    (hm : Moves allowed e i e') : e'.Tidy :=
  (hm.induction (I := fun created e => e.schedule.Sound created ∧ e.Tidy) ⟨hs, h⟩
    fun hI hm => ⟨hI.1.steps hm.steps, hI.2.move hI.1 hm⟩).2

end Tidy

end Engine

theorem Engine.tidy_new (config : EngineConfig) (host : σ) : (Engine.new config host).Tidy := by
  refine ⟨fun {x n s} hn hs => ?_, ObserverTable.sound_empty, fun ho => absurd ho List.not_mem_nil,
    fun _ ht => absurd ht List.not_mem_nil, fun ht => absurd ht List.not_mem_nil, _, rfl⟩
  have hadd : Graph.empty.Added _ _ Graph.empty.addScope.2 := addScope_added Store.sound_empty
  rcases (hadd.holds rfl).some_cases hn with ⟨m, hm, -⟩ | hnone
  · simp [Graph.empty, node?, Store.empty, Store.get?] at hm
  · rw [hs] at hnone
    cases hnone

/-- Every engine that a host can bring about is tidy. -/
theorem Reachable.tidy (h : Reachable created e) : e.Tidy :=
  h.of_moves Engine.tidy_new fun hs ht hm => ht.move hs hm

/-! ### Nothing is dropped -/

/-- The work finds the node, or the observer, that it is for. -/
def Engine.Finalization.Finds (f : Engine.Finalization σ) (observers : ObserverTable σ) : Task → Prop
  | .reset id => ∃ n, f.graph.node? id = some n
  | .notify id _ => ∃ o, observers.find? id = some o

namespace Engine

/-- The collections of an engine agree with its graph. -/
structure Bookkept (e : Engine σ) : Prop extends e.Tidy where
  /-- The nodes whose depth may be stale exist, and each is pending under the depth stored for it. -/
  update : e.graph.Keyed e.graph.update
  /-- The nodes to be evaluated exist, and each is pending under the depth stored for it. -/
  eval : e.graph.Keyed e.eval
  /-- A node whose depth is not what its parents make it is pending for that. -/
  stale : ∀ {x n}, e.graph.node? x = some n → e.graph.depthBelow n.parents ≠ .ok n.depth → x ∈ e.graph.update.nodes

/-- Nothing that has been pending, queued or staged is passed over. -/
structure DropsNothing (e : Engine σ) : Prop where
  /-- However far evaluation has come, the next pending node exists with all its parents, and is visited. -/
  visits : ∀ {k visits g pending entry rest},
    propagateWithin (e.pass + 1) k e.drainUpdate.2.2.graph e.drainUpdate.2.2.eval = (visits, g, pending) →
    pending.pop? = some (entry, rest) → ∃ next, g.visit? (e.pass + 1) rest entry = some next
  /-- However much queued work has been done, the next finds the trigger or the observer that it is for. -/
  work : ∀ {done task rest}, e.tasks = done ++ task :: rest →
    (done.foldl (Finalization.perform e.observers) ⟨e.graph, e.host, [], 0, []⟩).Finds e.observers task
  /-- What was staged has happened after evaluation. -/
  writes : ∀ {x n s}, e.graph.node? x = some n → n.staged? = some s →
    ∃ n', e.drainEval.2.2.graph.node? x = some n' ∧ s.Done n' ∧ n'.staged? = none ∧ (s = .provoke → x ∈ e.drainEval.1)

/-- Evaluation lets everything happen that was staged. -/
private theorem staged_drainEval (hs : e.schedule.Sound created) (h : e.Tidy) {x : NodeId} {n : Node} {s : Staged}
    (hn : e.graph.node? x = some n) (hst : n.staged? = some s) :
    ∃ n', e.drainEval.2.2.graph.node? x = some n' ∧ s.Done n' ∧ n'.staged? = none ∧
      (s = .provoke → x ∈ e.drainEval.1) := by
  obtain ⟨hready, hkeyed⟩ := ready_drainUpdate hs
  obtain ⟨visits, last, -, hrun, hlast, -, hfired⟩ := drainEval_eq hs
  have hcalm : Calm e e.drainUpdate.2.2 := calm_drainUpdate hs
  obtain ⟨m, hm, hheld⟩ := hcalm.nodes.of_some hn
  obtain ⟨hsuits, hmem⟩ := h.staged hn hst
  have hsuits' : s.Suits m.kind := Staged.suits_emptied (Node.emptied_of_held hheld).symm hsuits
  have hst' : m.staged? = some s := (Node.staged?_of_held hheld).trans hst
  obtain ⟨v, hv, rfl⟩ := hrun.visited_of_pending hready hkeyed (hcalm.eval x hmem)
  obtain ⟨m', hm', hout, hfinal, -⟩ := hrun.visited hready hkeyed v hv
  rw [hm, Option.some.injEq] at hm'
  subst hm'
  obtain ⟨hdone, hfire⟩ := m.staged_done (e.pass + 1) hst' hsuits'
  rw [hlast, hfired, hfinal, hout]
  refine ⟨_, rfl, hdone, m.staged?_settled _ _, fun hp => ?_⟩
  exact List.mem_filterMap.2 ⟨v, hv, by rw [hout, if_pos (hfire hp)]⟩

end Engine

/-- In every engine that a host can bring about the collections agree with the graph, and nothing is dropped. -/
theorem Reachable.bookkept (h : Reachable created e) : e.Bookkept ∧ e.DropsNothing := by
  have hs := h.sound
  have ht := h.tidy
  refine ⟨⟨ht, hs.graph.keyed, hs.keyed, fun {x n} hn hne => ?_⟩, ?_, fun {done task rest} htasks => ?_,
    fun hn hst => Engine.staged_drainEval hs ht hn hst⟩
  · by_contra hx
    exact hne (hs.graph.settled x hx n hn)
  · intro k visits g pending entry rest hwithin hpop
    obtain ⟨hready, hkeyed⟩ := Engine.ready_drainUpdate hs
    obtain ⟨hg, hk⟩ := hready.propagateWithin hkeyed hwithin
    obtain ⟨n, v, next, woken, hv, -⟩ := hg.visit_eq hk hpop (e.pass + 1)
    exact ⟨_, hv⟩
  · have hmem : task ∈ e.tasks := by
      rw [htasks]
      exact List.mem_append_right _ (List.mem_cons_self ..)
    cases task with
    | reset id =>
      obtain ⟨n, hn⟩ := ht.queued _ hmem
      obtain ⟨n', hn', -⟩ := (Engine.same_foldl_perform e.observers done ⟨e.graph, e.host, [], 0, []⟩).exists_of_some hn
      exact ⟨n', hn'⟩
    | notify id notification =>
      obtain ⟨o, ho, -⟩ := ht.notified hmem
      exact ⟨o, ht.indexed.find?_eq_some_iff.2 ho⟩

/-- A trigger that is observed and has been provoked. -/
def provokedTrigger : Engine Unit :=
  (Engine.new .default ()).run [.createNode .triggerInput [],
    .onProvoked ⟨1, 0⟩ fun _ queue host => (queue, host), .provoke ⟨1, 0⟩]

/-- The trigger fires when it is evaluated. -/
theorem provokedTrigger_fires : ⟨1, 0⟩ ∈ provokedTrigger.drainEval.1 := by
  have h : Reachable _ provokedTrigger := (Reachable.new .default ()).run _
  obtain ⟨n', -, -, -, hfired⟩ := h.bookkept.2.writes (x := ⟨1, 0⟩) (s := .provoke) rfl rfl
  exact hfired rfl

end Dataflow
