import Dataflow.Proofs.Engine.Depths
import Dataflow.Proofs.Engine.Resets

/-!
# When triggers fire

An evaluation fires each trigger at most once, a trigger input exactly if a provoke is staged for it, and a trigger
with a rule exactly if the rule holds of its parents as they are after the evaluation, provided that the rule does not
fire by itself (`TriggerRule.IsQuiet`).  The marks that the rule sees are those of the parents that changed or fired in
this evaluation (`Engine.Firing`).
-/

namespace Dataflow

open Dataflow.Graph

/-- The rule does not fire where no argument has. -/
def TriggerRule.IsQuiet (rule : TriggerRule) : Prop :=
  ∀ args, (∀ a ∈ args, a.fired = false) → rule.fires args = false

/-- A rule that does not fire by itself fires only if one of the parents changed or fired. -/
theorem TriggerRule.IsQuiet.exists_fired {rule : TriggerRule} (h : rule.IsQuiet) {args : List Arg}
    (hf : rule.fires args = true) : ∃ a ∈ args, a.fired = true := by
  by_contra hnone
  have hno : ∀ a ∈ args, a.fired = false := fun a ha => eq_false_of_ne_true fun hfa => hnone ⟨a, ha, hfa⟩
  rw [h args hno] at hf
  cases hf

/-- The rule of a conversion to a trigger does not fire by itself. -/
theorem TriggerRule.isQuiet_changed : TriggerRule.changed.IsQuiet := by
  intro args h
  cases args with
  | nil => rfl
  | cons a args => exact h a (List.mem_cons_self ..)

theorem TriggerRule.isQuiet_both : TriggerRule.both.IsQuiet := by
  intro args h
  cases args with
  | nil => rfl
  | cons a args => simp [both, h a (List.mem_cons_self ..)]

theorem TriggerRule.isQuiet_either : TriggerRule.either.IsQuiet := by
  intro args h
  simpa [either] using h

/-- A node fires if it is a trigger whose rule says so, or a trigger input for which a provoke is staged. -/
theorem Node.outcome_eq_fire {n : Node} {args : List Arg} :
    n.outcome args = .fire ↔ (∃ rule, n.kind = .trigger rule ∧ rule.fires args = true) ∨
      n.kind = .triggerInput ∧ n.staged? = some .provoke := by
  unfold outcome
  cases hk : n.kind with
  | formula t rule =>
    simp only [reduceCtorEq, false_and, exists_false, or_self, iff_false]
    split
    · simp
    · split
      · split <;> simp
      · simp
  | trigger rule =>
    simp only [NodeKind.trigger.injEq, reduceCtorEq, false_and, or_false]
    split <;> simp_all
  | triggerInput =>
    simp only [reduceCtorEq, false_and, exists_false, true_and, false_or]
    split <;> simp_all
  | input t =>
    simp only [reduceCtorEq, false_and, exists_false, or_self, iff_false]
    split
    · split <;> simp
    · simp
  | constant =>
    simp only [reduceCtorEq, false_and, exists_false, or_self, iff_false]
    split
    · split <;> simp
    · simp
  | scope members => simp
  | functionGroup group => simp

namespace Graph

variable {g : Graph} {pass : Nat} {parents : List NodeId} {args : List Arg} {x : NodeId} {n : Node}

/-- Every argument is what a rule sees of some parent. -/
theorem exists_parent_of_mem_args {a : Arg} (h : g.args? pass parents = some args) (ha : a ∈ args) :
    ∃ p ∈ parents, ∃ m, g.node? p = some m ∧ m.toArg pass = a := by
  induction parents generalizing args with
  | nil =>
    cases h
    cases ha
  | cons p parents ih =>
    obtain ⟨m, rest, hm, hrest, rfl⟩ := args?_cons_eq_some.1 h
    rcases List.mem_cons.1 ha with rfl | ha
    · exact ⟨p, List.mem_cons_self .., m, hm, rfl⟩
    · obtain ⟨q, hq, hqa⟩ := ih hrest ha
      exact ⟨q, List.mem_cons_of_mem _ hq, hqa⟩

/-- What fired is listed in the order of the visits. -/
theorem firedNodes_sublist (visits : List Visit) :
    (Engine.firedNodes visits).Sublist (visits.map fun v => v.entry.node) := by
  unfold Engine.firedNodes
  induction visits with
  | nil => exact .slnil
  | cons v visits ih =>
    rw [List.filterMap_cons, List.map_cons]
    by_cases ho : v.outcome = .fire
    · simp only [if_pos ho]
      exact ih.cons_cons _
    · simp only [if_neg ho]
      exact ih.cons _

namespace Propagates

variable {last : Graph} {pending : PendingSet} {visits : List Visit}

section

variable (h : Propagates pass g pending visits last) (hg : g.Ready) (hk : g.Keyed pending)
include h hg hk

/-- No trigger fires twice. -/
theorem nodup_firedNodes : (Engine.firedNodes visits).Nodup :=
  (firedNodes_sublist visits).nodup (h.nodup_nodes hg hk)

/-- A node fired if it was visited with an outcome that says so. -/
theorem mem_firedNodes_iff (hn : g.node? x = some n) (ha : last.args? pass n.parents = some args) :
    x ∈ Engine.firedNodes visits ↔ (∃ v ∈ visits, v.entry.node = x) ∧ n.outcome args = .fire := by
  have hout : ∀ v ∈ visits, v.entry.node = x → v.outcome = n.outcome args := by
    rintro v hv rfl
    obtain ⟨m, hm, ho, -, hargs⟩ := h.visited hg hk v hv
    rw [hn, Option.some.injEq] at hm
    rw [← hm, ha, Option.some.injEq] at hargs
    rw [ho, ← hm, hargs]
  rw [mem_firedNodes]
  constructor
  · rintro ⟨v, hv, hx, ho⟩
    exact ⟨⟨v, hv, hx⟩, hout v hv hx ▸ ho⟩
  · rintro ⟨⟨v, hv, hx⟩, ho⟩
    exact ⟨v, hv, hx, (hout v hv hx).trans ho⟩

/-- A node is marked with the pass exactly if it fired or has another value than before. -/
theorem firedIn_iff (hpass : ∀ x n, g.node? x = some n → n.changedIn < pass) {m : Node} (hn : g.node? x = some n)
    (hm : last.node? x = some m) :
    m.firedIn pass = true ↔ x ∈ Engine.firedNodes visits ∨ m.value? ≠ n.value? := by
  by_cases hx : ∃ v ∈ visits, v.entry.node = x
  · obtain ⟨v, hv, rfl⟩ := hx
    obtain ⟨n', hn', ho, hl, hargs⟩ := h.visited hg hk v hv
    rw [hn, Option.some.injEq] at hn'
    subst hn'
    rw [hm, Option.some.injEq] at hl
    rw [h.firedIn_visited hg hk hpass v hv m hm, h.mem_firedNodes_iff hg hk hn hargs, ← ho, hl]
    cases hout : v.outcome with
    | value w =>
      have hne : n.value? ≠ some w := (Node.outcome_eq_value (ho ▸ hout)).1
      simp [Outcome.isChange, Node.settled, Ne.symm hne]
    | fire =>
      have hvisited : ∃ w ∈ visits, w.entry.node = v.entry.node := ⟨v, hv, rfl⟩
      simp [Outcome.isChange, hvisited]
    | unchanged => simp [Outcome.isChange, Node.settled]
    | skip => simp [Outcome.isChange, Node.settled]
  · have hsame : last.node? x = g.node? x := h.node?_of_not_visited hg hk fun v hv he => hx ⟨v, hv, he⟩
    rw [hm, hn, Option.some.injEq] at hsame
    have hmark : m.firedIn pass = false := by
      have hlt := hpass x n hn
      have hne : n.changedIn ≠ pass := by omega
      simp [Node.firedIn, hsame, hne]
    rw [hmark, hsame, mem_firedNodes]
    constructor
    · intro hf
      cases hf
    · rintro (⟨v, hv, he, -⟩ | hne)
      · exact absurd ⟨v, hv, he⟩ hx
      · exact absurd rfl hne

/-- A child of a node that is marked with the pass is visited. -/
theorem visited_of_firedIn (hpass : ∀ x n, g.node? x = some n → n.changedIn < pass) {p : NodeId} {m : Node}
    (hn : g.node? x = some n) (hp : p ∈ n.parents) (hm : last.node? p = some m) (hf : m.firedIn pass = true) :
    ∃ v ∈ visits, v.entry.node = x := by
  by_cases hv : ∃ v ∈ visits, v.entry.node = p
  · obtain ⟨v, hv, rfl⟩ := hv
    obtain ⟨m₀, hm₀, he⟩ := (h.same hg hk).symm.exists_of_some hm
    have hchild : x ∈ m₀.children := (hg.linked.mem_children_iff hm₀).2 ⟨n, hn, hp⟩
    rw [(of_frame_eq (Node.frame_of_shape he)).2.1] at hchild
    have hparent := (h.mem_visited_iff hg hk hpass).1 ⟨v, hv, rfl⟩
    exact (h.mem_visited_iff hg hk hpass).2 (.child hparent hm hf hchild)
  · rw [h.node?_of_not_visited hg hk fun v hv' he => hv ⟨v, hv', he⟩] at hm
    have hlt := hpass p m hm
    have hne : m.changedIn ≠ pass := by omega
    simp [Node.firedIn, hne] at hf

/-- What the rule of a node reads is there in the end. -/
theorem exists_args?_last (hn : g.node? x = some n) : ∃ args, last.args? pass n.parents = some args := by
  refine exists_args? pass fun p hp => ?_
  obtain ⟨m, hm, -⟩ := hg.linked.parents_data hn hp
  obtain ⟨m', hm', -⟩ := (h.same hg hk).exists_of_some hm
  exact ⟨m', hm'⟩

/-- Only triggers fire. -/
theorem isTrigger_of_mem_firedNodes (hx : x ∈ Engine.firedNodes visits) :
    ∃ n, g.node? x = some n ∧ n.kind.isTrigger = true := by
  obtain ⟨v, hv, rfl, ho⟩ := mem_firedNodes.1 hx
  obtain ⟨n, hn, hout, -, -⟩ := h.visited hg hk v hv
  refine ⟨n, hn, ?_⟩
  rw [ho] at hout
  rcases Node.outcome_eq_fire.1 hout.symm with ⟨rule, hkind, -⟩ | ⟨hkind, -⟩ <;> rw [hkind] <;> rfl

/-- A trigger input fires if a provoke is staged for it, provided that it is pending then. -/
theorem input_fires_iff (hn : g.node? x = some n) (hkind : n.kind = .triggerInput)
    (hpending : n.staged? = some .provoke → x ∈ pending.nodes) :
    x ∈ Engine.firedNodes visits ↔ n.staged? = some .provoke := by
  obtain ⟨args, ha⟩ := h.exists_args?_last hg hk hn
  rw [h.mem_firedNodes_iff hg hk hn ha, Node.outcome_eq_fire, hkind]
  constructor
  · rintro ⟨-, ⟨rule, hr, -⟩ | ⟨-, hp⟩⟩
    · cases hr
    · exact hp
  · exact fun hp => ⟨h.visited_of_pending hg hk (hpending hp), .inr ⟨rfl, hp⟩⟩

/-- A trigger with a quiet rule fires if the rule holds of the parents as they are in the end.  It fires only if some
parent has changed or fired, and then the trigger is visited. -/
theorem trigger_fires_iff (hpass : ∀ x n, g.node? x = some n → n.changedIn < pass) {rule : TriggerRule}
    (hn : g.node? x = some n) (hkind : n.kind = .trigger rule) (hquiet : rule.IsQuiet)
    (ha : last.args? pass n.parents = some args) : x ∈ Engine.firedNodes visits ↔ rule.fires args = true := by
  rw [h.mem_firedNodes_iff hg hk hn ha, Node.outcome_eq_fire, hkind]
  constructor
  · rintro ⟨-, ⟨rule', hr, hf⟩ | ⟨hr, -⟩⟩
    · cases hr
      exact hf
    · cases hr
  · intro hf
    refine ⟨?_, .inl ⟨rule, rfl, hf⟩⟩
    obtain ⟨a, hmem, hfire⟩ := hquiet.exists_fired hf
    obtain ⟨p, hp, m, hm, rfl⟩ := exists_parent_of_mem_args ha hmem
    exact h.visited_of_firedIn hg hk hpass hn hp hm hfire

end

end Propagates

end Graph

variable {σ : Type} {created : Nat} {e e' : Engine σ} {x : NodeId}

namespace Engine

/-! ### One evaluation -/

/-- How an evaluation fires triggers. -/
structure Firing (e : Engine σ) : Prop where
  /-- No trigger fires twice. -/
  once : e.drainEval.1.Nodup
  /-- Only triggers fire. -/
  triggers : ∀ x ∈ e.drainEval.1, ∃ n, e.graph.node? x = some n ∧ n.kind.isTrigger = true
  /-- A trigger input fires exactly if a provoke is staged for it. -/
  inputs : ∀ x n, e.graph.node? x = some n → n.kind = .triggerInput →
    (x ∈ e.drainEval.1 ↔ n.staged? = some .provoke)
  /-- A trigger with a quiet rule fires exactly if the rule holds of what it sees of its parents in the end. -/
  rules : ∀ x n rule, e.graph.node? x = some n → n.kind = .trigger rule → rule.IsQuiet →
    ∃ args, e.drainEval.2.2.graph.args? (e.pass + 1) n.parents = some args ∧
      (x ∈ e.drainEval.1 ↔ rule.fires args = true)
  /-- What a rule sees as fired are the nodes that fired in this evaluation, or have another value than before. -/
  marks : ∀ p m m', e.graph.node? p = some m → e.drainEval.2.2.graph.node? p = some m' →
    ((m'.toArg (e.pass + 1)).fired = true ↔ p ∈ e.drainEval.1 ∨ m'.value? ≠ m.value?)
  /-- A trigger that fires is provoked from then on. -/
  provoked : ∀ x, e.drainEval.2.2.graph.Provoked x ↔ e.graph.Provoked x ∨ x ∈ e.drainEval.1

/-- A depth update changes nothing of nodes but their depths. -/
theorem same_drainUpdate (h : e.schedule.Sound created) : SameUpTo Node.flat e.graph e.drainUpdate.2.2.graph := by
  rw [drainUpdate_eq]
  exact h.graph.same_settleDepths

/-- In every tidy engine, an evaluation fires the trigger inputs for which a provoke is staged, and the triggers with a
rule whose rule holds of what their parents have become. -/
theorem firing (hs : e.schedule.Sound created) (ht : e.Tidy) : e.Firing := by
  obtain ⟨hready, hkeyed⟩ := ready_drainUpdate hs
  obtain ⟨visits, last, -, hrun, hlast, -, hfired⟩ := drainEval_eq hs
  have hsame := same_drainUpdate hs
  -- Settling depths leaves all of a node but the depth.
  have hbefore : ∀ {x n}, e.graph.node? x = some n → ∃ m, e.drainUpdate.2.2.graph.node? x = some m ∧ m.flat = n.flat :=
    fun hn => hsame.exists_of_some hn
  have hpass : ∀ x n, e.drainUpdate.2.2.graph.node? x = some n → n.changedIn < e.pass + 1 :=
    fun _ _ hn => changedIn_drainUpdate_lt hs hn
  constructor
  · rw [hfired]
    exact hrun.nodup_firedNodes hready hkeyed
  · intro x hx
    rw [hfired] at hx
    obtain ⟨m, hm, hkind⟩ := hrun.isTrigger_of_mem_firedNodes hready hkeyed hx
    obtain ⟨n, hn, he⟩ := hsame.symm.exists_of_some hm
    exact ⟨n, hn, by rw [(Node.of_flat_eq he).1, hkind]⟩
  · intro x n hn hk
    obtain ⟨m, hm, he⟩ := hbefore hn
    obtain ⟨hkind, -, -, hst⟩ := Node.of_flat_eq he
    rw [hfired, ← hst]
    refine hrun.input_fires_iff hready hkeyed hm (hkind.trans hk) fun hp => ?_
    exact (mem_eval_drainUpdate hs).2 (ht.staged hn (hst ▸ hp)).2
  · intro x n rule hn hk hquiet
    obtain ⟨m, hm, he⟩ := hbefore hn
    obtain ⟨hkind, hpar, -⟩ := Node.of_flat_eq he
    obtain ⟨args, ha⟩ := hrun.exists_args?_last hready hkeyed hm
    refine ⟨args, by rw [hlast, ← hpar, ha], ?_⟩
    rw [hfired]
    exact hrun.trigger_fires_iff hready hkeyed hpass hm (hkind.trans hk) hquiet ha
  · intro p m m' hm hm'
    obtain ⟨q, hq, he⟩ := hbefore hm
    obtain ⟨-, -, hval, -⟩ := Node.of_flat_eq he
    rw [hlast] at hm'
    rw [hfired, ← hval]
    exact hrun.firedIn_iff hready hkeyed hpass hq hm'
  · intro x
    have hp : e.drainUpdate.2.2.graph.Provoked x ↔ e.graph.Provoked x :=
      provoked_congr (hsame.weaken fun n m he => show n.flat.provoked = m.flat.provoked by rw [he])
    rw [hlast, hfired, hrun.provoked_iff hready hkeyed, hp]

end Engine

end Dataflow
