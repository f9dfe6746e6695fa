import Dataflow.Proofs.Engine.Calls
import Dataflow.Proofs.Engine.Stages
import Dataflow.Proofs.StandardLibrary
import Mathlib.Data.List.Basic

/-!
# Counting and sampling

Two functions of the library build formulas that remember: one counts how often a trigger fires, the other takes the
value of its source whenever its clock fires.  What they hold is told from the stages of the run since they were made
(`Engine.firings`, `Engine.sampled?`), as long as nobody rewires them.

* `Reachable.counts`, `Reachable.samples`: what a formula of the one and of the other kind holds after a run;
* `Reachable.remembers`: the same for what a call of the library has built.
-/

namespace Dataflow

open Dataflow.Graph

variable {σ : Type} {created : Nat} {e s : Engine σ} {x t : NodeId} {n : Node} {type : DataType}

/-! ### The two rules -/

namespace ValueRule

/-- A count that has begun stays as long as its trigger does not fire. -/
theorem keepsStill_count : count.KeepsStill fun current => ∃ k, current = some (.int k) := by
  constructor
  · rintro args _ ⟨k, rfl⟩
    unfold next
    split
    · exact ⟨k, rfl⟩
    · exact ⟨_, rfl⟩
  · rintro args _ ⟨k, rfl⟩ hstill
    have hnone : args.any Arg.fired = false := List.any_eq_false.2 fun a ha => by simp [hstill a ha]
    unfold next
    split
    · rfl
    · change some (Value.int (if args.any Arg.fired then k + 1 else k)) = _
      rw [hnone]
      rfl

/-- A sample stays as long as its trigger does not fire, whatever it is. -/
theorem keepsStill_sample : sample.KeepsStill fun _ => True := by
  refine ⟨fun _ _ _ => trivial, fun args current _ hstill => ?_⟩
  unfold next
  split
  · rfl
  · unfold sample
    simp only
    split
    · next source clock rest _ => simp [hstill clock (by simp)]
    · rfl

/-- For a trigger as the only argument: whether it has fired is counted. -/
theorem next_count (a : Arg) (ha : a.isTrigger = true) (current : Option Value) :
    count.next [a] current =
      let k := (current.bind Value.asInt?).getD 0
      some (.int (if a.fired then k + 1 else k)) := by
  simp [next, count, Arg.isMissing, ha]

/-- For a trigger as the second argument: what the first one holds is taken if the trigger has fired. -/
theorem next_sample (source clock : Arg) (hclock : clock.isTrigger = true) (current : Option Value) :
    sample.next [source, clock] current = (if clock.fired then source.value? else none).or current := by
  unfold next
  split
  · next hmiss =>
    have hmissing : source.isTrigger = false ∧ source.value? = none := by
      simpa [Arg.isMissing, hclock] using hmiss
    simp [hmissing.2]
  · rfl

end ValueRule

/-! ### What is remembered of a run -/

namespace Engine

/-- How often a trigger fires in the evaluations of a run. -/
def firings (e : Engine σ) (t : NodeId) (ops : List (Operation σ)) : Nat :=
  (e.stages ops).countP fun s => t ∈ s.drainEval.1

/-- The value of a node at the end of the last evaluation of a run in which a trigger fires and the node has a value. -/
def sampled? (e : Engine σ) (source clock : NodeId) (ops : List (Operation σ)) : Option Value :=
  ((e.stages ops).filterMap fun s =>
    if clock ∈ s.drainEval.1 then (s.drainEval.2.2.graph.node? source).bind Node.value? else none).getLast?

end Engine

private theorem foldl_count {stages : List (Engine σ)}
    (h : ∀ s ∈ stages, s.seen [t] = [⟨none, decide (t ∈ s.drainEval.1), true⟩]) (k : Nat) :
    stages.foldl (fun v s => ValueRule.count.next (s.seen [t]) v) (some (.int (.ofNat k))) =
      some (.int (.ofNat (k + stages.countP fun s => t ∈ s.drainEval.1))) := by
  induction stages generalizing k with
  | nil => rfl
  | cons s stages ih =>
    obtain ⟨hs, hstages⟩ := List.forall_mem_cons.1 h
    have hsucc : Int64.ofNat k + 1 = Int64.ofNat (k + 1) := (Int64.ofNat_add k 1).symm
    rw [List.foldl_cons, hs, ValueRule.next_count _ rfl, List.countP_cons]
    by_cases hfired : t ∈ s.drainEval.1
    · simp only [hfired, decide_true, if_true, Option.bind_some, Value.asInt?, Option.getD_some, hsucc]
      rw [ih hstages, Nat.add_assoc, Nat.add_comm 1]
    · simp only [hfired, decide_false, if_false, Bool.false_eq_true, Option.bind_some, Value.asInt?, Option.getD_some]
      exact ih hstages k

/-- Keeping the last result that there is amounts to looking for it in the end. -/
private theorem foldl_or {α β : Type} (f : α → Option β) (l : List α) (v : Option β) :
    l.foldl (fun v a => (f a).or v) v = (l.filterMap f).getLast?.or v := by
  induction l generalizing v with
  | nil => rfl
  | cons a l ih =>
    rw [List.foldl_cons, ih]
    cases hf : f a with
    | none => rw [List.filterMap_cons_none hf, Option.none_or]
    | some b =>
      rw [List.filterMap_cons_some hf, List.getLast?_cons]
      cases (l.filterMap f).getLast? <;> rfl

private theorem foldl_sample {source clock : NodeId} {stages : List (Engine σ)}
    (h : ∀ s ∈ stages, ∃ a : Arg, s.seen [source, clock] = [a, ⟨none, decide (clock ∈ s.drainEval.1), true⟩] ∧
      a.value? = (s.drainEval.2.2.graph.node? source).bind Node.value?) :
    stages.foldl (fun v s => ValueRule.sample.next (s.seen [source, clock]) v) none =
      (stages.filterMap fun s =>
        if clock ∈ s.drainEval.1 then (s.drainEval.2.2.graph.node? source).bind Node.value? else none).getLast? := by
  rw [← Option.or_none (o := List.getLast? _), ← foldl_or]
  refine List.foldl_ext _ _ _ fun v s hs => ?_
  obtain ⟨a, hseen, hvalue⟩ := h s hs
  rw [hseen, ValueRule.next_sample _ _ rfl, hvalue]
  simp only [decide_eq_true_iff]

namespace Engine

/-- A trigger as the only parent, in an evaluation. -/
theorem seen_trigger (h : Reachable created s) (hn : s.graph.node? t = some n) (ht : n.kind.isTrigger = true) :
    s.seen [t] = [⟨none, decide (t ∈ s.drainEval.1), true⟩] := by
  obtain ⟨m, hm, harg⟩ := h.toArg_trigger hn ht
  have hargs : s.drainEval.2.2.graph.args? (s.pass + 1) [t] = some [m.toArg (s.pass + 1)] :=
    args?_cons_eq_some.2 ⟨m, [], hm, rfl, rfl⟩
  unfold seen
  rw [hargs, Option.getD_some, harg]

/-- Any parent and a trigger after it, in an evaluation. -/
theorem seen_clocked (h : Reachable created s) {source clock : NodeId} {m : Node} (hm : s.graph.node? source = some m)
    (hn : s.graph.node? clock = some n) (ht : n.kind.isTrigger = true) :
    ∃ a : Arg, s.seen [source, clock] = [a, ⟨none, decide (clock ∈ s.drainEval.1), true⟩] ∧
      a.value? = (s.drainEval.2.2.graph.node? source).bind Node.value? := by
  obtain ⟨n', hn', harg⟩ := h.toArg_trigger hn ht
  obtain ⟨m', hm', hvalue⟩ := h.toArg_value? hm
  have hargs : s.drainEval.2.2.graph.args? (s.pass + 1) [source, clock] =
      some [m'.toArg (s.pass + 1), n'.toArg (s.pass + 1)] :=
    args?_cons_eq_some.2 ⟨m', _, hm', args?_cons_eq_some.2 ⟨n', [], hn', rfl, rfl⟩, rfl⟩
  refine ⟨m'.toArg (s.pass + 1), ?_, hvalue⟩
  unfold seen
  rw [hargs, Option.getD_some, harg]

end Engine

section

variable {q : Node} {ops : List (Operation σ)}

/-- A formula that counts from 0 holds how often its trigger has fired since. -/
theorem Reachable.counts (h : Reachable created e) (hundisturbed : e.Undisturbed x ops)
    (hn : e.graph.node? x = some n) (hkind : n.kind = .formula type .count) (hparents : n.parents = [t])
    (hstart : n.value? = some (.int 0)) (hq : e.graph.node? t = some q) (ht : q.kind.isTrigger = true) :
    ((e.run ops).graph.node? x).map Node.value? = some (some (.int (.ofNat (e.firings t ops)))) := by
  obtain ⟨m, hm, hvalue⟩ := h.value?_run hundisturbed hn hkind ValueRule.keepsStill_count ⟨0, hstart⟩
  have hseen : ∀ s ∈ e.stages ops, s.seen [t] = [⟨none, decide (t ∈ s.drainEval.1), true⟩] := by
    intro s hs
    have hmem : t ∈ n.parents := hparents ▸ List.mem_singleton_self t
    obtain ⟨⟨_, hreachable⟩, q', hq', he⟩ := h.parent_of_mem_stages hundisturbed hn hs hmem hq
    refine Engine.seen_trigger hreachable hq' ?_
    rw [← NodeKind.isTrigger_emptied, he, NodeKind.isTrigger_emptied, ht]
  have hcounted := foldl_count hseen 0
  rw [Nat.zero_add] at hcounted
  rw [hm, Option.map_some, hvalue, hparents, hstart]
  exact congrArg some hcounted

/-- A formula that samples, and holds nothing at first, holds what its first parent held when the second fired last. -/
theorem Reachable.samples (h : Reachable created e) (hundisturbed : e.Undisturbed x ops)
    (hn : e.graph.node? x = some n) (hkind : n.kind = .formula type .sample) {source clock : NodeId}
    (hparents : n.parents = [source, clock]) (hstart : n.value? = none) (hq : e.graph.node? clock = some q)
    (ht : q.kind.isTrigger = true) :
    ((e.run ops).graph.node? x).map Node.value? = some (e.sampled? source clock ops) := by
  obtain ⟨m, hm, hvalue⟩ := h.value?_run hundisturbed hn hkind ValueRule.keepsStill_sample trivial
  have hseen : ∀ s ∈ e.stages ops, ∃ a : Arg,
      s.seen [source, clock] = [a, ⟨none, decide (clock ∈ s.drainEval.1), true⟩] ∧
        a.value? = (s.drainEval.2.2.graph.node? source).bind Node.value? := by
    intro s hs
    have hsource : source ∈ n.parents := by simp [hparents]
    have hclock : clock ∈ n.parents := by simp [hparents]
    obtain ⟨p, hp, -⟩ := h.sound.graph.linked.parents_data hn hsource
    obtain ⟨⟨_, hreachable⟩, p', hp', -⟩ := h.parent_of_mem_stages hundisturbed hn hs hsource hp
    obtain ⟨-, q', hq', he⟩ := h.parent_of_mem_stages hundisturbed hn hs hclock hq
    refine Engine.seen_clocked hreachable hp' hq' ?_
    rw [← NodeKind.isTrigger_emptied, he, NodeKind.isTrigger_emptied, ht]
  rw [hm, Option.map_some, hvalue, hparents, hstart, foldl_sample hseen]
  rfl

end

/-- A node that a call of the library has made, and that is left undisturbed since, agrees with the history of the run:
one that counts holds how often its trigger has fired, and one that samples holds the last value that its source had when
its clock fired. -/
theorem Reachable.remembers (h : Reachable created e) {maxArgs : Nat} {group : NodeId} {g : FunctionGroup}
    {args : List NodeId} {ops : List (Operation σ)} (hg : e.functionGroup group = .ok g)
    (hlibrary : g ∈ StandardLibrary.groups maxArgs) (hcall : (e.call group args).1 = .ok x)
    (hundisturbed : (e.call group args).2.Undisturbed x ops) :
    (g.name = "count" → ∃ t, ((e.call group args).2.graph.node? x).map Node.parents = some [t] ∧
      ((∃ m, (e.call group args).2.graph.node? t = some m ∧ m.kind.isTrigger = true) →
        (((e.call group args).2.run ops).graph.node? x).map Node.value? =
          some (some (.int (.ofNat ((e.call group args).2.firings t ops)))))) ∧
    (g.name = "sample" → ∃ source clock, ((e.call group args).2.graph.node? x).map Node.parents = some [source, clock] ∧
      ((∃ m, (e.call group args).2.graph.node? clock = some m ∧ m.kind.isTrigger = true) →
        (((e.call group args).2.run ops).graph.node? x).map Node.value? =
          some ((e.call group args).2.sampled? source clock ops))) := by
  have hafter : Reachable _ (e.call group args).2 := h.step (.call group args)
  refine ⟨fun hname => ?_, fun hname => ?_⟩
  · have hdefs := StandardLibrary.defs_count hlibrary hname
    obtain ⟨d, hd, hmin, hmax, made, wired, hs, hc, hlength⟩ := Engine.created_of_call h.sound hg
      (by rw [hdefs]; exact List.forall_mem_singleton.2 rfl) hcall
    rw [hdefs, List.mem_singleton] at hd
    subst hd
    obtain ⟨n, start, hn, hkind, hparents, hstart, hvalue⟩ := Engine.formula_of_createNode hs hc
    obtain ⟨t, rfl⟩ : ∃ t, wired = [t] := List.length_eq_one_iff.1 (hlength.trans (le_antisymm hmax hmin))
    refine ⟨t, by rw [hn, Option.map_some, hparents], fun ⟨q, hq, ht⟩ => ?_⟩
    refine hafter.counts hundisturbed hn hkind hparents ?_ hq ht
    obtain ⟨q', rest, hq', hrest, rfl⟩ := args?_cons_eq_some.1 hstart
    cases hq.symm.trans hq'
    cases hrest
    exact hvalue.trans (ValueRule.next_count (q.toArg 0) ht none)
  · have hdefs := StandardLibrary.defs_sample hlibrary hname
    obtain ⟨d, hd, hmin, hmax, made, wired, hs, hc, hlength⟩ := Engine.created_of_call h.sound hg
      (by rw [hdefs]; exact List.forall_mem_map.2 fun _ _ => rfl) hcall
    rw [hdefs] at hd
    obtain ⟨type, -, rfl⟩ := List.mem_map.1 hd
    obtain ⟨n, start, hn, hkind, hparents, hstart, hvalue⟩ := Engine.formula_of_createNode hs hc
    obtain ⟨source, clock, rfl⟩ : ∃ source clock, wired = [source, clock] :=
      List.length_eq_two.1 (hlength.trans (le_antisymm hmax hmin))
    refine ⟨source, clock, by rw [hn, Option.map_some, hparents], fun ⟨q, hq, ht⟩ => ?_⟩
    refine hafter.samples hundisturbed hn hkind hparents ?_ hq ht
    rw [hvalue]
    refine ValueRule.keepsStill_sample.still start none trivial fun a ha => ?_
    obtain ⟨p, -, m, -, rfl⟩ := exists_parent_of_mem_args hstart ha
    rfl

/-- The functions that remember, an integer and a trigger. -/
def clocked : Engine Unit :=
  (Engine.new .default ()).run [
    .defineFunction ⟨0, 0⟩ ⟨"count", [.value "count" [.trigger] .int .count]⟩,
    .defineFunction ⟨0, 0⟩ ⟨"sample", DataType.valueTypes.map fun t => .value "sample" [t, .trigger] t .sample⟩,
    .createNode (.inputWith (.int 1)) [], .createNode .triggerInput []]

/-- The integer changes together with the first click, between the clicks, and after the last one. -/
def clicks : List (Operation Unit) :=
  [.setInput ⟨3, 0⟩ (.int 5), .provoke ⟨4, 0⟩, .runPass, .runPass, .setInput ⟨3, 0⟩ (.int 7), .drainEval, .openGroup,
    .provoke ⟨4, 0⟩, .closeGroup, .setInput ⟨3, 0⟩ (.int 9), .runPass]

/-- There are two clicks, and at the last one the integer is 7. -/
theorem clocked_remembers :
    (clocked.call ⟨1, 0⟩ [⟨4, 0⟩]).1 = .ok ⟨5, 0⟩ ∧ (clocked.call ⟨2, 0⟩ [⟨3, 0⟩, ⟨4, 0⟩]).1 = .ok ⟨5, 0⟩ ∧
    (((clocked.call ⟨1, 0⟩ [⟨4, 0⟩]).2.run clicks).graph.node? ⟨5, 0⟩).map Node.value? = some (some (.int 2)) ∧
    (((clocked.call ⟨2, 0⟩ [⟨3, 0⟩, ⟨4, 0⟩]).2.run clicks).graph.node? ⟨5, 0⟩).map Node.value? =
      some (some (.int 7)) := by
  have h : Reachable _ clocked := (Reachable.new .default ()).run _
  have hcount : (clocked.call ⟨1, 0⟩ [⟨4, 0⟩]).1 = .ok ⟨5, 0⟩ := by decide +kernel
  have hsample : (clocked.call ⟨2, 0⟩ [⟨3, 0⟩, ⟨4, 0⟩]).1 = .ok ⟨5, 0⟩ := by decide +kernel
  refine ⟨hcount, hsample, ?_, ?_⟩
  · have hlibrary : ⟨"count", [.value "count" [.trigger] .int .count]⟩ ∈ StandardLibrary.groups 16 := by
      simp [StandardLibrary.groups]
    have hundisturbed : (clocked.call ⟨1, 0⟩ [⟨4, 0⟩]).2.Undisturbed ⟨5, 0⟩ clicks := by decide +kernel
    have hfirings : (clocked.call ⟨1, 0⟩ [⟨4, 0⟩]).2.firings ⟨4, 0⟩ clicks = 2 := by decide +kernel
    obtain ⟨t, hparents, hcounts⟩ := (h.remembers rfl hlibrary hcount hundisturbed).1 rfl
    obtain rfl : ⟨4, 0⟩ = t := by cases hparents; rfl
    rw [hcounts ⟨_, rfl, rfl⟩, hfirings]
    rfl
  · have hlibrary : ⟨"sample", DataType.valueTypes.map fun t => .value "sample" [t, .trigger] t .sample⟩ ∈
        StandardLibrary.groups 16 := by simp [StandardLibrary.groups]
    have hundisturbed : (clocked.call ⟨2, 0⟩ [⟨3, 0⟩, ⟨4, 0⟩]).2.Undisturbed ⟨5, 0⟩ clicks := by decide +kernel
    have hsampled : (clocked.call ⟨2, 0⟩ [⟨3, 0⟩, ⟨4, 0⟩]).2.sampled? ⟨3, 0⟩ ⟨4, 0⟩ clicks = some (.int 7) := by
      decide +kernel
    obtain ⟨source, clock, hparents, hsamples⟩ := (h.remembers rfl hlibrary hsample hundisturbed).2 rfl
    obtain ⟨rfl, rfl⟩ : ⟨3, 0⟩ = source ∧ ⟨4, 0⟩ = clock := by cases hparents; exact ⟨rfl, rfl⟩
    rw [hsamples ⟨_, rfl, rfl⟩, hsampled]

end Dataflow
