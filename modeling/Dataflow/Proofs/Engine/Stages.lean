import Dataflow.Proofs.Engine.Creation
import Dataflow.Proofs.Engine.Finalization
import Dataflow.Proofs.Engine.Firing
import Dataflow.Proofs.Engine.Persistence

/-!
# Values that depend on the past

The rule of a formula may look at the value that the formula holds, which then depends on all evaluations so far.  A run
of operations has a stage for each evaluation that it starts (`Engine.stages`).  A stage applies the rule of a formula
once to the parents as they are at its end (`Engine.value?_drainEval`), and nothing else changes the value, whatever is
done to other nodes.  This holds of rules that keep the value as long as nothing fires (`ValueRule.KeepsStill`): for
them it does not matter whether the formula is visited without need, or not visited at all.

* `Reachable.value?_run`: after a run a formula holds what its rule has made of the value before, stage by stage;
* `Reachable.toArg_trigger`: in a stage the rule sees of a trigger whether it has fired there;
* `Engine.formula_of_createNode`: the value that a formula starts with.
-/

namespace Dataflow

open Dataflow.Graph

variable {σ : Type} {created : Nat} {e s : Engine σ} {x t : NodeId} {n : Node} {type : DataType} {rule : ValueRule}

/-! ### One application of a rule -/

namespace ValueRule

/-- What a formula holds after its rule has been applied: a new value, or the old one where an argument is missing or
the rule has no result. -/
def next (rule : ValueRule) (args : List Arg) (current : Option Value) : Option Value :=
  if args.any Arg.isMissing then current else (rule.compute args current).or current

/-- The rule leads from one of the values to another of them, and it leaves each as it is where nothing has fired. -/
structure KeepsStill (rule : ValueRule) (P : Option Value → Prop) : Prop where
  next : ∀ args current, P current → P (rule.next args current)
  still : ∀ args current, P current → (∀ a ∈ args, a.fired = false) → rule.next args current = current

end ValueRule

/-- After its evaluation, a formula holds what comes next by its rule. -/
theorem Node.value?_settled (hk : n.kind = .formula type rule) (pass : Nat) (args : List Arg) :
    (n.settled pass (n.outcome args)).value? = rule.next args n.value? := by
  unfold outcome ValueRule.next
  rw [hk]
  simp only
  split
  · rfl
  · cases rule.compute args n.value? with
    | none => rfl
    | some v =>
      simp only [Option.some_or]
      split
      · next he => exact he
      · rfl

namespace Engine

/-- A formula starts with what its rule makes of its parents as they are outside of any pass. -/
theorem formula_of_createNode {e' : Engine σ} {parents : List NodeId} (hs : e.graph.store.Sound)
    (hc : e.createNode (.ofBehavior type (.value rule)) parents = .ok (x, e')) :
    ∃ n args, e'.graph.node? x = some n ∧ n.kind = .formula type rule ∧ n.parents = parents ∧
      e'.graph.args? 0 parents = some args ∧ n.value? = rule.next args none := by
  obtain ⟨g, hadd, rfl⟩ := createNode_eq_ok hc
  obtain ⟨d, -, ha, -⟩ := addNode_eq_ok hs hadd
  obtain ⟨n, ha, hk, hparents, hnone⟩ : ∃ n, e.graph.Added n x g ∧ n.kind = .formula type rule ∧
      n.parents = parents ∧ n.value? = none := ⟨_, ha, rfl, rfl, rfl⟩
  have hself := ha.self
  obtain ⟨args, hargs⟩ : ∃ args, g.args? 0 parents = some args := exists_args? 0 fun p hp => by
    obtain ⟨m, hm, -⟩ := ha.parents p (hparents ▸ hp)
    exact ⟨_, ha.of_some hm⟩
  have hvalue := Node.value?_settled hk 0 args
  rw [hnone] at hvalue
  unfold computeFirst
  rw [hself]
  simp only [hk, hparents, hargs, Option.map_some]
  cases ho : n.outcome args with
  | value v =>
    rw [ho] at hvalue
    refine ⟨n.settled 0 (.value v), args, ?_, hk, hparents, ?_, hvalue⟩
    · simp only [node?_modify, if_true, hself, Option.map_some]
    · refine (args?_congr fun p hp => ?_).trans hargs
      obtain ⟨m, hm, -⟩ := ha.parents p (hparents ▸ hp)
      simp only [node?_modify, if_neg (ha.ne hm)]
  | _ =>
    rw [ho] at hvalue
    exact ⟨n, args, hself, hk, hparents, hargs, hvalue⟩

end Engine

/-! ### Stages -/

/-- The engine in which the operation starts an evaluation, if it does. -/
def Operation.stage? : Operation σ → Engine σ → Option (Engine σ)
  | drainEval, e => some e
  | runPass, e => if e.groupLevel = 0 then some e else none
  | closeGroup, e => if e.groupLevel - 1 = 0 then some { e with groupLevel := e.groupLevel - 1 } else none
  | _, _ => none

namespace Engine

/-- The engines in which the evaluations of a run start. -/
def stages (e : Engine σ) : List (Operation σ) → List (Engine σ)
  | [] => []
  | op :: ops => (op.stage? e).toList ++ (op.apply e).stages ops

/-- What rules see of the given parents at the end of the evaluation. -/
def seen (s : Engine σ) (parents : List NodeId) : List Arg :=
  (s.drainEval.2.2.graph.args? (s.pass + 1) parents).getD []

/-- No operation of the run rewires the node, and all leave it in place. -/
def Undisturbed (x : NodeId) (e : Engine σ) : List (Operation σ) → Prop
  | [] => True
  | op :: ops =>
    op.rewired? ≠ some x ∧ ((op.apply e).graph.node? x).isSome = true ∧ (op.apply e).Undisturbed x ops

instance decidableUndisturbed (x : NodeId) (e : Engine σ) :
    (ops : List (Operation σ)) → Decidable (e.Undisturbed x ops)
  | [] => inferInstanceAs (Decidable True)
  | op :: ops =>
    have := decidableUndisturbed x (op.apply e) ops
    inferInstanceAs (Decidable (_ ∧ _ ∧ _))

end Engine

namespace Operation

/-- An operation that starts an evaluation does nothing else, but for the end of the pass. -/
theorem apply_of_stage? {op : Operation σ} (h : op.stage? e = some s) :
    (s = e ∨ s = abandonGroup.apply e) ∧
      (op.apply e = s.drainEval.2.2 ∨ op.apply e = s.drainEval.2.2.finalize.2.2) := by
  cases op with
  | drainEval =>
    cases h
    exact ⟨.inl rfl, .inl rfl⟩
  | runPass =>
    obtain ⟨hlevel, h⟩ := Option.ite_none_right_eq_some.1 h
    cases h
    exact ⟨.inl rfl, .inr (Engine.runPass_eq hlevel).1⟩
  | closeGroup =>
    obtain ⟨hlevel, h⟩ := Option.ite_none_right_eq_some.1 h
    cases h
    exact ⟨.inr rfl, .inr (Engine.runPass_eq hlevel).1⟩
  | _ => cases h

private theorem graph_of_stage? {op : Operation σ} (h : op.stage? e = some s) : s.graph = e.graph := by
  obtain ⟨rfl | rfl, -⟩ := apply_of_stage? h <;> rfl

/-- An operation that starts no evaluation changes no value. -/
theorem value?_eq_of_stage? (op : Operation σ) (hs : e.schedule.Sound created) (ht : e.Tidy) {n' : Node}
    (h : op.stage? e = none) (hn : e.graph.node? x = some n) (hn' : (op.apply e).graph.node? x = some n') :
    n'.value? = n.value? := by
  have hidle : ∀ {e' : Engine σ}, e'.groupLevel ≠ 0 → e'.runPass.2.2 = e' := fun hlevel => by
    unfold Engine.runPass
    rw [if_pos (Nat.pos_of_ne_zero hlevel)]
  cases op with
  | drainEval => cases h
  | runPass =>
    have hlevel : e.groupLevel ≠ 0 := fun hlevel => by simp [stage?, hlevel] at h
    change e.runPass.2.2.graph.node? x = some n' at hn'
    rw [hidle hlevel, hn] at hn'
    cases hn'
    rfl
  | closeGroup =>
    have hlevel : e.groupLevel - 1 ≠ 0 := fun hlevel => by simp [stage?, hlevel] at h
    change ({ e with groupLevel := e.groupLevel - 1 }).runPass.2.2.graph.node? x = some n' at hn'
    rw [hidle hlevel, hn] at hn'
    cases hn'
    rfl
  | _ => exact (leaves _ hs ht hn hn').value? fun hd => by simp [Does, Engine.Act.EndsPass] at hd

end Operation

/-- The engine in which a stage takes place can be brought about, too. -/
theorem Reachable.stage (h : Reachable created e) {op : Operation σ} (hstage : op.stage? e = some s) :
    Reachable created s := by
  obtain ⟨rfl | rfl, -⟩ := op.apply_of_stage? hstage
  · exact h
  · exact h.step .abandonGroup

/-! ### One stage -/

/-- After an evaluation a formula holds what its rule makes of the value before, provided that the rule keeps the value
as long as nothing fires: then it does not matter that the formula may not have been visited. -/
theorem Graph.Propagates.value?_eq_next {g last : Graph} {pass : Nat} {pending : PendingSet} {visits : List Visit}
    {args : List Arg} {m : Node} (h : Propagates pass g pending visits last) (hg : g.Ready) (hk : g.Keyed pending)
    (hpass : ∀ x n, g.node? x = some n → n.changedIn < pass) (hn : g.node? x = some n)
    (hkind : n.kind = .formula type rule) (hm : last.node? x = some m) (ha : last.args? pass n.parents = some args)
    (hstill : (∀ a ∈ args, a.fired = false) → rule.next args n.value? = n.value?) :
    m.value? = rule.next args n.value? := by
  by_cases hx : ∃ v ∈ visits, v.entry.node = x
  · obtain ⟨v, hv, rfl⟩ := hx
    obtain ⟨n', hn', ho, hlast, hargs⟩ := h.visited hg hk v hv
    cases hn.symm.trans hn'
    cases ha.symm.trans hargs
    cases hm.symm.trans hlast
    rw [ho]
    exact Node.value?_settled hkind pass v.args
  · have hsame : last.node? x = g.node? x := h.node?_of_not_visited hg hk fun v hv he => hx ⟨v, hv, he⟩
    rw [hm, hn, Option.some.injEq] at hsame
    rw [hsame, hstill]
    intro a hmem
    obtain ⟨p, hp, q, hq, rfl⟩ := exists_parent_of_mem_args ha hmem
    by_contra hfired
    exact hx (h.visited_of_firedIn hg hk hpass hn hp hq (by simpa [Node.toArg] using hfired))

/-- A stage leaves in a formula what comes next by its rule, if nothing comes by it where no trigger fires. -/
theorem Engine.value?_drainEval (hs : s.schedule.Sound created) (hn : s.graph.node? x = some n)
    (hkind : n.kind = .formula type rule)
    (hstill : ∀ args, (∀ a ∈ args, a.fired = false) → rule.next args n.value? = n.value?) :
    ∃ m, s.drainEval.2.2.graph.node? x = some m ∧ m.value? = rule.next (s.seen n.parents) n.value? := by
  obtain ⟨hready, hkeyed⟩ := ready_drainUpdate hs
  obtain ⟨visits, last, -, hrun, hlast, -, -⟩ := drainEval_eq hs
  obtain ⟨n₀, hn₀, he⟩ := (same_drainUpdate hs).exists_of_some hn
  obtain ⟨hkind₀, hparents, hvalue, -⟩ := Node.of_flat_eq he
  obtain ⟨m, hm, -⟩ := (hrun.same hready hkeyed).exists_of_some hn₀
  obtain ⟨args, ha⟩ := hrun.exists_args?_last hready hkeyed hn₀
  have hseen : s.seen n.parents = args := by
    unfold seen
    rw [hlast, ← hparents, ha, Option.getD_some]
  refine ⟨m, hlast ▸ hm, ?_⟩
  rw [hseen, ← hvalue]
  refine hrun.value?_eq_next hready hkeyed (fun _ _ hp => changedIn_drainUpdate_lt hs hp) hn₀ (hkind₀.trans hkind) hm
    ha ?_
  rw [hvalue]
  exact hstill args

/-! ### Runs -/

section

variable {P : Option Value → Prop} {n' : Node} {ops : List (Operation σ)}

/-- An operation applies the rule of a formula once if it starts an evaluation, and else leaves the value. -/
theorem Reachable.value?_apply (h : Reachable created e) (op : Operation σ) (hn : e.graph.node? x = some n)
    (hkind : n.kind = .formula type rule) (hrule : rule.KeepsStill P) (hP : P n.value?)
    (hn' : (op.apply e).graph.node? x = some n') :
    n'.value? = (op.stage? e).toList.foldl (fun v s => rule.next (s.seen n.parents) v) n.value? := by
  cases hstage : op.stage? e with
  | none => exact op.value?_eq_of_stage? h.sound h.tidy hstage hn hn'
  | some s =>
    have hs : s.graph.node? x = some n := by rw [Operation.graph_of_stage? hstage, hn]
    obtain ⟨m, hm, hvalue⟩ := Engine.value?_drainEval (h.stage hstage).sound hs hkind fun args hfired =>
      hrule.still args n.value? hP hfired
    refine Eq.trans ?_ hvalue
    obtain ⟨-, heq | heq⟩ := Operation.apply_of_stage? hstage
    · rw [heq, hm] at hn'
      cases hn'
      rfl
    · rw [heq] at hn'
      obtain ⟨m', hm', he⟩ := (Engine.same_finalize s.drainEval.2.2).exists_of_some hm
      cases hn'.symm.trans hm'
      exact congrArg (fun content => content.2.2) (Node.content_of_evaluated he)

private theorem ValueRule.KeepsStill.foldl (hrule : rule.KeepsStill P) (parents : List NodeId)
    (stages : List (Engine σ)) {v : Option Value} (hP : P v) :
    P (stages.foldl (fun v s => rule.next (s.seen parents) v) v) := by
  induction stages generalizing v with
  | nil => exact hP
  | cons s stages ih => exact ih (hrule.next _ _ hP)

/-- After a run that leaves it undisturbed, a formula holds what its rule has made of the value before, one stage after
the other. -/
theorem Reachable.value?_run (h : Reachable created e) (hundisturbed : e.Undisturbed x ops)
    (hn : e.graph.node? x = some n) (hkind : n.kind = .formula type rule) (hrule : rule.KeepsStill P)
    (hP : P n.value?) :
    ∃ m, (e.run ops).graph.node? x = some m ∧
      m.value? = (e.stages ops).foldl (fun v s => rule.next (s.seen n.parents) v) n.value? := by
  induction ops generalizing created e n with
  | nil => exact ⟨n, hn, rfl⟩
  | cons op ops ih =>
    obtain ⟨hop, hstays, hrest⟩ := hundisturbed
    obtain ⟨n', hn'⟩ := Option.isSome_iff_exists.1 hstays
    have hvalue := h.value?_apply op hn hkind hrule hP hn'
    have hparents := op.parents_eq h.sound h.tidy hop hn hn'
    have hkind' : n'.kind = .formula type rule := NodeKind.of_emptied_eq_formula <| by
      rw [(op.leaves h.sound h.tidy hn hn').kind, hkind]
      rfl
    obtain ⟨m, hm, hlast⟩ := ih (h.step op) hrest hn' hkind' (hvalue ▸ hrule.foldl _ _ hP)
    refine ⟨m, hm, ?_⟩
    rw [hlast, hparents, hvalue, Engine.stages, List.foldl_append]

/-- In every stage of a run that leaves a node undisturbed the parents of the node are there, and are what they were. -/
theorem Reachable.parent_of_mem_stages (h : Reachable created e) (hundisturbed : e.Undisturbed x ops)
    (hn : e.graph.node? x = some n) (hs : s ∈ e.stages ops) {p : NodeId} {q : Node} (hp : p ∈ n.parents)
    (hq : e.graph.node? p = some q) :
    (∃ created, Reachable created s) ∧ ∃ q', s.graph.node? p = some q' ∧ q'.kind.emptied = q.kind.emptied := by
  induction ops generalizing created e n q with
  | nil => cases hs
  | cons op ops ih =>
    obtain ⟨hop, hstays, hrest⟩ := hundisturbed
    obtain ⟨n', hn'⟩ := Option.isSome_iff_exists.1 hstays
    rcases List.mem_append.1 hs with hs | hs
    · rw [Option.mem_toList] at hs
      exact ⟨⟨created, h.stage hs⟩, q, by rw [Operation.graph_of_stage? hs, hq], rfl⟩
    · have hparents := op.parents_eq h.sound h.tidy hop hn hn'
      obtain ⟨q', hq', -⟩ := (h.step op).sound.graph.linked.parents_data hn' (hparents ▸ hp)
      obtain ⟨hreachable, q'', hq'', he⟩ := ih (h.step op) hrest hn' hs (hparents ▸ hp) hq'
      exact ⟨hreachable, q'', hq'', he.trans (op.leaves h.sound h.tidy hq hq').kind⟩

end

/-! ### What is seen in a stage -/

/-- A rule is given the value that a node holds. -/
theorem Node.Sane.value?_toArg (h : n.Sane) (pass : Nat) : (n.toArg pass).value? = n.value? := by
  unfold toArg
  simp only
  split
  · next ht => exact (h.trigger ht).symm
  · rfl

/-- An evaluation leaves every node in place, and each is still what it was. -/
private theorem exists_drainEval (h : Reachable created s) (hn : s.graph.node? x = some n) :
    ∃ m, s.drainEval.2.2.graph.node? x = some m ∧ m.Sane ∧ m.kind.emptied = n.kind.emptied := by
  have hmoves : Engine.Moves (fun a => a = .settle ∨ a = .evaluate) s 0 s.drainEval.2.2 :=
    Engine.drainEval_moves h.sound (.inl rfl) (.inr rfl)
  obtain ⟨m, hm, hleaves⟩ := hmoves.leaves h.sound (by simp) hn
  have hafter : Reachable _ s.drainEval.2.2 := h.step .drainEval
  exact ⟨m, hm, hafter.sane hm, hleaves.kind⟩

/-- A rule sees of a trigger whether it has fired in the stage. -/
theorem Reachable.toArg_trigger (h : Reachable created s) (hn : s.graph.node? t = some n)
    (ht : n.kind.isTrigger = true) :
    ∃ m, s.drainEval.2.2.graph.node? t = some m ∧
      m.toArg (s.pass + 1) = ⟨none, decide (t ∈ s.drainEval.1), true⟩ := by
  obtain ⟨m, hm, hsane, hkind⟩ := exists_drainEval h hn
  have htrigger : m.kind.isTrigger = true := by
    rw [← NodeKind.isTrigger_emptied, hkind, NodeKind.isTrigger_emptied, ht]
  have hvalue : m.value? = n.value? := (hsane.trigger htrigger).trans ((h.sane hn).trigger ht).symm
  have hfired : m.firedIn (s.pass + 1) = decide (t ∈ s.drainEval.1) := by
    have hmarks := (Engine.firing h.sound h.tidy).marks t n m hn hm
    rw [Bool.eq_iff_iff, decide_eq_true_iff]
    simpa [hvalue, Node.toArg] using hmarks
  refine ⟨m, hm, ?_⟩
  unfold Node.toArg
  rw [hfired, htrigger]
  rfl

/-- A rule sees of any node the value that it holds at the end of the stage. -/
theorem Reachable.toArg_value? (h : Reachable created s) (hn : s.graph.node? x = some n) :
    ∃ m, s.drainEval.2.2.graph.node? x = some m ∧
      (m.toArg (s.pass + 1)).value? = (s.drainEval.2.2.graph.node? x).bind Node.value? := by
  obtain ⟨m, hm, hsane, -⟩ := exists_drainEval h hn
  exact ⟨m, hm, by rw [hsane.value?_toArg, hm, Option.bind_some]⟩

end Dataflow
