import Dataflow.Proofs.Engine.Creation
import Dataflow.Proofs.Engine.Refusal
import Dataflow.Proofs.Graph.Growth
import Dataflow.Proofs.Overload

/-!
# Calls

A call scores the definitions of its group by asking for each parameter in turn, and then converts its arguments to a
list of parameters.  Both agree: an argument that is accepted can be converted, unless it is a trigger, and all that a
call builds is the node of its definition and one node for each argument that is not of the type of its parameter.

* `Engine.Converted.add`: what converting one more argument does, whatever is registered;
* `Engine.exists_read`: what is read at each position;
* `Engine.build_cases`: a definition that accepts a call builds it, or a trigger is rejected;
* `Engine.call_ok_cases`: a call that is not refused gives an argument back or builds the definition that it picks;
* `Engine.created_of_call`: the node that a call has created, if it is not refused and gives no argument back;
* `Reachable.answers`: what a call answers.
-/

namespace Dataflow

open Dataflow.Graph

variable {σ : Type} {created : Nat} {e e' : Engine σ}

private theorem Node.isData_of_dataType? {n : Node} {t : DataType} (h : n.dataType? = some t) :
    n.kind.isData = true := by
  unfold dataType? at h
  cases hk : n.kind with
  | scope _ | functionGroup _ =>
    rw [hk] at h
    cases h
  | _ => rfl

/-- A node that takes part in evaluation has a type, provided that a constant holds a value. -/
theorem Node.Sane.exists_dataType? {n : Node} (h : n.Sane) (hk : n.kind.isData = true) : ∃ t, n.dataType? = some t := by
  unfold dataType?
  cases hkind : n.kind with
  | constant =>
    obtain ⟨v, hv⟩ := Option.isSome_iff_exists.1 (h.isSome_constant hkind)
    exact ⟨v.dataType, by simp only [hv, Option.map_some]⟩
  | scope _ | functionGroup _ =>
    rw [hkind] at hk
    cases hk
  | _ => exact ⟨_, rfl⟩

namespace Graph

variable {g : Graph} {x : NodeId} {s t : DataType}

theorem HasType.unique (hs : g.HasType x s) (ht : g.HasType x t) : s = t := by
  obtain ⟨n, hn, hs⟩ := hs
  obtain ⟨m, hm, ht⟩ := ht
  cases hn.symm.trans hm
  exact Option.some.inj (hs.symm.trans ht)

private theorem HasType.exists_data (h : g.HasType x t) : ∃ n, g.node? x = some n ∧ n.kind.isData = true := by
  obtain ⟨n, hn, ht⟩ := h
  exact ⟨n, hn, n.isData_of_dataType? ht⟩

end Graph

namespace Engine

/-! ### Conversions -/

private theorem isDerived_ofBehavior (t : DataType) (behavior : Behavior) :
    (NodeKind.ofBehavior t behavior).isDerived = true := by
  cases behavior <;> rfl

/-- A node that runs by a rule can be created below any nodes that take part in evaluation. -/
theorem exists_createNode (hs : e.graph.store.Sound) (t : DataType) (behavior : Behavior) {parents : List NodeId}
    (hp : ∀ p ∈ parents, ∃ n, e.graph.node? p = some n ∧ n.kind.isData = true) :
    ∃ id n g, e.createNode (.ofBehavior t behavior) parents = .ok (id, { e with graph := g }) ∧ e.graph.Added n id g ∧
      n.kind = .ofBehavior t behavior ∧ n.parents = parents := by
  have hok : ∃ r, e.createNode (.ofBehavior t behavior) parents = .ok r := by
    have hcheck : checkInitial (.ofBehavior t behavior) = .ok () := by cases behavior <;> rfl
    have hparents : parents.forM e.graph.checkDataParent = .ok () :=
      forM_eq_ok_iff.2 fun p hmem => checkDataParent_eq_ok_iff.2 (hp p hmem)
    obtain ⟨d, hd⟩ : ∃ d, e.graph.depthBelow parents = .ok d := exists_depthBelow fun p hmem => by
      obtain ⟨n, hn, -⟩ := hp p hmem
      exact ⟨n, hn⟩
    unfold createNode addNode
    rw [hcheck]
    simp only [NodeSpec.ofBehavior, Node.fresh, isDerived_ofBehavior, hparents, hd, Bool.true_eq_false, and_false,
      if_false]
    exact ⟨_, rfl⟩
  obtain ⟨⟨id, next⟩, hok⟩ := hok
  obtain ⟨n, g, rfl, ha, hk, hparents, -⟩ := added_of_createNode hs hok
  exact ⟨id, n, g, hok, ha, hk, hparents⟩

private theorem dataType_eq_ok_iff {a : NodeId} {t : DataType} :
    e.dataType a = .ok t ↔ e.graph.HasType a t := by
  unfold dataType HasType
  rw [bind_eq_ok]
  simp only [node_eq_ok_iff, Engine.node]
  refine exists_congr fun n => and_congr_right fun _ => ?_
  cases n.dataType? <;> simp

private theorem implicitCast_of_same {a : NodeId} {t : DataType} (h : e.graph.HasType a t) :
    e.implicitCast a t = .ok (a, e) := by
  unfold implicitCast castBy
  rw [dataType_eq_ok_iff.2 h]
  exact if_pos rfl

/-- Unless the types are equal, a conversion without being asked for converts by the rule that is registered. -/
private theorem implicitCast_of_ne {a : NodeId} {s t : DataType} {rule : CastRule} (h : e.graph.HasType a s)
    (hne : s ≠ t) (hrule : e.casts.rule? s t = some rule) (hweight : rule.weight?.isSome = true) :
    e.implicitCast a t = e.convert a s t rule := by
  have hfilter : (e.casts.rule? s t).filter (·.weight?.isSome) = some rule := by
    rw [hrule, Option.filter_some, if_pos hweight]
  unfold implicitCast castBy
  rw [dataType_eq_ok_iff.2 h]
  simp only [bind, Except.bind, hne, if_false, hfilter]

private theorem implicitCast_of_trigger {a : NodeId} {t : DataType} {rule : CastRule} (h : e.graph.HasType a .trigger)
    (hne : t ≠ .trigger) (hrule : e.casts.rule? .trigger t = some rule) (hweight : rule.weight?.isSome = true) :
    e.implicitCast a t = .error (.castRejected a t) := by
  rw [implicitCast_of_ne h hne.symm hrule hweight]
  exact if_pos rfl

private theorem exists_implicitCast (hs : e.graph.store.Sound) {a : NodeId} {s t : DataType} {rule : CastRule}
    (h : e.graph.HasType a s) (hne : s ≠ t) (hvalue : s ≠ .trigger) (hrule : e.casts.rule? s t = some rule)
    (hweight : rule.weight?.isSome = true) :
    ∃ c n g, e.implicitCast a t = .ok (c, { e with graph := g }) ∧ e.graph.Added n c g ∧
      n.kind = (rule.nodeSpec t).kind ∧ n.parents = [a] := by
  have hconvert : e.convert a s t rule = e.createNode (rule.nodeSpec t) [a] := if_neg hvalue
  rw [implicitCast_of_ne h hne hrule hweight, hconvert]
  exact exists_createNode hs t rule.conversion.behavior (List.forall_mem_singleton.2 h.exists_data)

/-! ### Converting the arguments -/

/-- The type of an argument is at some distance from the type of the parameter. -/
def Accepts (e : Engine σ) (arg : NodeId × DataType) : Prop :=
  ∃ s, e.graph.HasType arg.1 s ∧ (e.casts.distance? s arg.2).isSome = true

/-- A trigger stands where a value is expected. -/
def Rejects (e : Engine σ) (arg : NodeId × DataType) : Prop :=
  e.graph.HasType arg.1 .trigger ∧ arg.2 ≠ .trigger

/-- In a later graph, what a call reads for an argument: the argument itself if it is of the type of the parameter, and
else a node made to convert it. -/
def Reads (e : Engine σ) (g : Graph) (arg : NodeId × DataType) (c : NodeId) : Prop :=
  ∃ s, e.graph.HasType arg.1 s ∧ if s = arg.2 then c = arg.1 else
    e.graph.node? c = none ∧ ∃ rule m, e.casts.rule? s arg.2 = some rule ∧ rule.weight?.isSome = true ∧
      g.node? c = some m ∧ m.kind = (rule.nodeSpec arg.2).kind ∧ m.parents = [arg.1]

theorem Reads.added {g g' : Graph} {n : Node} {id c : NodeId} {arg : NodeId × DataType} (h : e.Reads g arg c)
    (ha : g.Added n id g') : e.Reads g' arg c := by
  obtain ⟨s, hs, h⟩ := h
  refine ⟨s, hs, ?_⟩
  split at h
  · next hsame => rwa [if_pos hsame]
  · next hne =>
    obtain ⟨hfresh, rule, m, hrule, hweight, hm, hk, hparents⟩ := h
    rw [if_neg hne]
    refine ⟨hfresh, rule, _, hrule, hweight, ha.of_some hm, ?_⟩
    split
    · rw [Node.kind_addChild, Node.parents_addChild]
      exact ⟨hk, hparents⟩
    · exact ⟨hk, hparents⟩

/-- Arguments have been converted one after the other, up to the first that is rejected. -/
structure Converted (e : Engine σ) (args : List (NodeId × DataType)) (w : Wiring σ) : Prop where
  rest : w.engine = { e with graph := w.engine.graph }
  grown : e.graph.Grown w.made w.engine.graph
  outcome : (∃ wired, w.args = .ok wired ∧ List.Forall₂ (e.Reads w.engine.graph) args wired ∧
      w.made = (wired.filter fun c => (e.graph.node? c).isNone).reverse ∧ ∀ arg ∈ args, ¬ e.Rejects arg) ∨
    ∃ arg ∈ args, e.Rejects arg ∧ w.args = .error (.castRejected arg.1 arg.2)

private theorem add_of_ok {w : Wiring σ} {wired : List NodeId} {arg : NodeId × DataType} {id : NodeId} {next : Engine σ}
    (hwired : w.args = .ok wired) (h : w.engine.implicitCast arg.1 arg.2 = .ok (id, next)) :
    w.add arg = ⟨next, if id = arg.1 then w.made else id :: w.made, .ok (wired ++ [id])⟩ := by
  unfold Wiring.add
  rw [hwired]
  simp only [h]

private theorem add_of_error {w : Wiring σ} {wired : List NodeId} {arg : NodeId × DataType} {err : GraphError}
    (hwired : w.args = .ok wired) (h : w.engine.implicitCast arg.1 arg.2 = .error err) :
    w.add arg = { w with args := .error err } := by
  unfold Wiring.add
  rw [hwired]
  simp only [h]

/-- Converting one more argument that is accepted gives a node to read for it, or rejects it. -/
theorem Converted.add {args : List (NodeId × DataType)} {w : Wiring σ} {arg : NodeId × DataType}
    (h : e.Converted args w) (harg : e.Accepts arg) : e.Converted (args ++ [arg]) (w.add arg) := by
  obtain ⟨hrest, hgrown, ⟨wired, hwired, hreads, hmade, hnone⟩ | ⟨rejected, hmem, hrejects, herr⟩⟩ := h
  · obtain ⟨s, hs, hd⟩ := harg
    have hs' : w.engine.graph.HasType arg.1 s := hgrown.hasType hs
    have hcasts : w.engine.casts = e.casts := by rw [hrest]
    obtain ⟨n, hn, -⟩ := hs.exists_data
    by_cases hsame : s = arg.2
    · have hok := add_of_ok hwired (implicitCast_of_same (hsame ▸ hs'))
      rw [if_pos rfl] at hok
      rw [hok]
      refine ⟨hrest, hgrown, .inl ⟨wired ++ [arg.1], rfl, ?_, ?_, ?_⟩⟩
      · exact List.rel_append hreads (.cons ⟨s, hs, if_pos hsame ▸ rfl⟩ .nil)
      · rw [List.filter_append, List.filter_singleton, hn]
        simpa using hmade
      · refine List.forall_mem_append.2 ⟨hnone, List.forall_mem_singleton.2 fun hr => ?_⟩
        exact hr.2 (hsame ▸ hs.unique hr.1)
    obtain ⟨rule, hrule, hweight⟩ := (CastRegistry.isSome_distance?_iff.1 hd).resolve_left hsame
    have hrule' : w.engine.casts.rule? s arg.2 = some rule := hcasts ▸ hrule
    by_cases htrigger : s = .trigger
    · subst htrigger
      rw [add_of_error hwired (implicitCast_of_trigger hs' (Ne.symm hsame) hrule' hweight)]
      exact ⟨hrest, hgrown, .inr ⟨arg, by simp, ⟨hs, Ne.symm hsame⟩, rfl⟩⟩
    · obtain ⟨c, m, g, hcast, ha, hk, hparents⟩ :=
        exists_implicitCast hgrown.store hs' hsame htrigger hrule' hweight
      have hgrown' := hgrown.added ha
      have hfresh : e.graph.node? c = none := hgrown'.fresh c List.mem_cons_self
      have hne : c ≠ arg.1 := by
        rintro rfl
        cases hfresh.symm.trans hn
      rw [add_of_ok hwired hcast, if_neg hne]
      refine ⟨by rw [hrest], hgrown', .inl ⟨wired ++ [c], rfl, ?_, ?_, ?_⟩⟩
      · refine List.rel_append (hreads.imp fun _ _ hr => hr.added ha) (.cons ⟨s, hs, ?_⟩ .nil)
        rw [if_neg hsame]
        exact ⟨hfresh, rule, m, hrule, hweight, ha.self, hk, hparents⟩
      · rw [List.filter_append, List.filter_singleton, hfresh]
        simp [hmade]
      · refine List.forall_mem_append.2 ⟨hnone, List.forall_mem_singleton.2 fun hr => ?_⟩
        exact htrigger (hs.unique hr.1)
  · unfold Wiring.add
    rw [herr]
    exact ⟨hrest, hgrown, .inr ⟨rejected, List.mem_append_left _ hmem, hrejects, herr⟩⟩

/-- The arguments of a call that a definition accepts are converted, or one of them is rejected. -/
theorem converted_wire (hs : e.graph.store.Sound) (d : FunctionDef) {args : List NodeId}
    (hargs : ∀ arg ∈ args.zip (d.paramsFor args.length), e.Accepts arg) :
    e.Converted (args.zip (d.paramsFor args.length)) (e.wire d args) := by
  unfold wire
  change e.Converted _ ((args.zip (d.paramsFor args.length)).foldl Wiring.add ⟨e, [], .ok []⟩)
  generalize args.zip (d.paramsFor args.length) = l at hargs
  induction l using List.reverseRecOn with
  | nil => exact ⟨rfl, .refl hs, .inl ⟨[], rfl, .nil, rfl, fun _ h => absurd h List.not_mem_nil⟩⟩
  | append_singleton l arg ih =>
    obtain ⟨hl, harg⟩ := List.forall_mem_append.1 hargs
    rw [List.foldl_append]
    exact (ih hl).add (List.forall_mem_singleton.1 harg)

/-! ### Arguments by their positions -/

theorem exists_of_forall₂ {α β : Type} {R : α → β → Prop} {l : List α} {l' : List β} (h : List.Forall₂ R l l')
    {i : Nat} {a : α} (ha : l[i]? = some a) : ∃ b, l'[i]? = some b ∧ R a b := by
  induction h generalizing i with
  | nil => cases ha
  | cons hab _ ih =>
    cases i with
    | zero =>
      cases ha
      exact ⟨_, rfl, hab⟩
    | succ i => exact ih ha

private theorem countP_eq_length_filter_range {α : Type} (p : α → Bool) (l : List α) :
    l.countP p = ((List.range l.length).filter fun i => l[i]?.any p).length := by
  induction l with
  | nil => rfl
  | cons a l ih =>
    rw [List.length_cons, List.range_succ_eq_map, List.filter_cons, List.filter_map, List.countP_cons, ih]
    simp only [List.getElem?_cons_zero, Option.any_some, Function.comp_def, List.getElem?_cons_succ]
    split <;> simp

variable {d : FunctionDef} {args : List NodeId} {types : List DataType}

/-- An argument has a type, and the definition has a parameter for it at some distance. -/
theorem exists_param (ht : List.Forall₂ e.graph.HasType args types) (hscore : (d.score? e.casts types).isSome = true)
    {i : Nat} {a : NodeId} (ha : args[i]? = some a) :
    ∃ t p, types[i]? = some t ∧ e.graph.HasType a t ∧ d.paramType? i = some p ∧
      (e.casts.distance? t p).isSome = true ∧ (args.zip (d.paramsFor args.length))[i]? = some (a, p) := by
  obtain ⟨t, hti, hat⟩ := exists_of_forall₂ ht ha
  obtain ⟨p, hp, hd⟩ := FunctionDef.exists_param_of_score? hscore hti
  obtain ⟨hi, -⟩ := List.getElem?_eq_some_iff.1 ha
  have hparam : (d.paramsFor args.length)[i]? = some p := (FunctionDef.getElem?_paramsFor hi).trans hp
  exact ⟨t, p, hti, hat, hp, hd, List.getElem?_zip_eq_some.2 ⟨ha, hparam⟩⟩

private theorem accepts_of_score? (ht : List.Forall₂ e.graph.HasType args types)
    (hscore : (d.score? e.casts types).isSome = true) :
    ∀ arg ∈ args.zip (d.paramsFor args.length), e.Accepts arg := by
  rintro ⟨a, u⟩ harg
  obtain ⟨i, hi⟩ := List.mem_iff_getElem?.1 harg
  obtain ⟨t, p, -, hat, -, hd, hzip⟩ := exists_param ht hscore (List.getElem?_zip_eq_some.1 hi).1
  cases hi.symm.trans hzip
  exact ⟨t, hat, hd⟩

private theorem exists_rejects_iff (ht : List.Forall₂ e.graph.HasType args types)
    (hscore : (d.score? e.casts types).isSome = true) :
    (∃ arg ∈ args.zip (d.paramsFor args.length), e.Rejects arg) ↔
      ∃ i ∈ d.mismatched types, types[i]? = some .trigger := by
  constructor
  · rintro ⟨⟨a, u⟩, harg, hrejects, hne⟩
    obtain ⟨i, hi⟩ := List.mem_iff_getElem?.1 harg
    obtain ⟨t, p, hti, hat, hp, -, hzip⟩ := exists_param ht hscore (List.getElem?_zip_eq_some.1 hi).1
    cases hi.symm.trans hzip
    obtain rfl : t = .trigger := hat.unique hrejects
    obtain ⟨hlt, -⟩ := List.getElem?_eq_some_iff.1 hti
    refine ⟨i, List.mem_filter.2 ⟨List.mem_range.2 hlt, decide_eq_true ?_⟩, hti⟩
    rw [hp, hti]
    exact fun h => hne (Option.some.inj h)
  · rintro ⟨i, hi, hti⟩
    obtain ⟨hlt, hne⟩ := List.mem_filter.1 hi
    rw [List.mem_range, ← ht.length_eq] at hlt
    obtain ⟨t, p, hti', hat, hp, -, hzip⟩ := exists_param ht hscore (List.getElem?_eq_getElem hlt)
    cases hti.symm.trans hti'
    refine ⟨_, List.mem_of_getElem? hzip, hat, fun h => of_decide_eq_true hne ?_⟩
    rw [hp, hti]
    exact congrArg some h

/-- What a call reads at each position, and whether that is a new node. -/
theorem exists_read (ht : List.Forall₂ e.graph.HasType args types) (hscore : (d.score? e.casts types).isSome = true)
    {g : Graph} {wired : List NodeId} (hreads : List.Forall₂ (e.Reads g) (args.zip (d.paramsFor args.length)) wired)
    {i : Nat} (hi : i < args.length) :
    ∃ c, wired[i]? = some c ∧ (e.graph.node? c).isNone = decide (d.paramType? i ≠ types[i]?) ∧
      (d.paramType? i = types[i]? → args[i]? = some c) ∧
      (d.paramType? i ≠ types[i]? → ∃ a t p rule m, args[i]? = some a ∧ types[i]? = some t ∧ d.paramType? i = some p ∧
        e.casts.rule? t p = some rule ∧ rule.weight?.isSome = true ∧ g.node? c = some m ∧
        m.kind = (rule.nodeSpec p).kind ∧ m.parents = [a]) := by
  obtain ⟨t, p, hti, hat, hp, -, hzip⟩ := exists_param ht hscore (List.getElem?_eq_getElem hi)
  obtain ⟨c, hc, s, hs, hread⟩ := exists_of_forall₂ hreads hzip
  obtain rfl : s = t := hs.unique hat
  refine ⟨c, hc, ?_⟩
  rw [hti, hp, List.getElem?_eq_getElem hi]
  split at hread
  · next hsame =>
    obtain ⟨n, hn, -⟩ := hat.exists_data
    have hlive : e.graph.node? c = some n := hread ▸ hn
    have heq : (some p : Option DataType) = some s := congrArg some hsame.symm
    exact ⟨by simp [hlive, heq], fun _ => congrArg some hread.symm, fun h => absurd heq h⟩
  · next hne =>
    obtain ⟨hfresh, rule, m, hrule, hweight, hm, hk, hparents⟩ := hread
    have heq : (some p : Option DataType) ≠ some s := fun h => hne (Option.some.inj h).symm
    exact ⟨by simp [hfresh, heq], fun h => absurd h heq,
      fun _ => ⟨_, s, p, rule, m, rfl, rfl, rfl, hrule, hweight, hm, hk, hparents⟩⟩

private theorem length_filter_isNone (ht : List.Forall₂ e.graph.HasType args types)
    (hscore : (d.score? e.casts types).isSome = true) {g : Graph} {wired : List NodeId}
    (hreads : List.Forall₂ (e.Reads g) (args.zip (d.paramsFor args.length)) wired)
    (hlength : wired.length = args.length) :
    (wired.filter fun c => (e.graph.node? c).isNone).length = (d.mismatched types).length := by
  rw [← List.countP_eq_length_filter, countP_eq_length_filter_range, hlength, ht.length_eq]
  refine congrArg List.length (List.filter_congr fun i hi => ?_)
  rw [List.mem_range, ← ht.length_eq] at hi
  obtain ⟨c, hc, hnew, -⟩ := exists_read ht hscore hreads hi
  rw [hc, Option.any_some, hnew]

private theorem Reads.exists_data {g : Graph} {made : List NodeId} {arg : NodeId × DataType} {c : NodeId}
    (h : e.Reads g arg c) (hgrown : e.graph.Grown made g) : ∃ n, g.node? c = some n ∧ n.kind.isData = true := by
  obtain ⟨s, hs, h⟩ := h
  split at h
  · exact h ▸ (hgrown.hasType hs).exists_data
  · obtain ⟨-, rule, m, -, -, hm, hk, -⟩ := h
    refine ⟨m, hm, ?_⟩
    rw [hk]
    unfold CastRule.nodeSpec NodeSpec.ofBehavior
    cases rule.conversion.behavior <;> rfl

/-! ### Building the call -/

/-- What a call of a definition has built: a node `id` that reads `wired` in place of the arguments. -/
structure Built (e : Engine σ) (d : FunctionDef) (args : List NodeId) (types : List DataType) (id : NodeId)
    (wired : List NodeId) (e' : Engine σ) : Prop where
  /-- Only the graph has changed. -/
  rest : e' = { e with graph := e'.graph }
  node : ∃ n, e'.graph.node? id = some n ∧ n.kind = d.nodeSpec.kind ∧ n.parents = wired
  length : wired.length = args.length
  /-- An argument of the type of its parameter is read itself. -/
  asIs : ∀ i < args.length, i ∉ d.mismatched types → wired[i]? = args[i]?
  /-- Any other is read through a new node, which converts it by the implicit rule that is registered. -/
  converted : ∀ i ∈ d.mismatched types, ∃ a t p rule c m, args[i]? = some a ∧ types[i]? = some t ∧
    d.paramType? i = some p ∧ e.casts.rule? t p = some rule ∧ rule.weight?.isSome = true ∧
    wired[i]? = some c ∧ e.graph.node? c = none ∧ e'.graph.node? c = some m ∧ m.kind = (rule.nodeSpec p).kind ∧
    m.parents = [a]
  fresh : e.graph.node? id = none
  /-- The new nodes are all different. -/
  distinct : (id :: wired.filter fun c => (e.graph.node? c).isNone).Nodup
  count : e'.nodeCount = e.nodeCount + (1 + (d.mismatched types).length)
  /-- The nodes from before have got no more than further children. -/
  kept : ∀ x n, e.graph.node? x = some n →
    ∃ more, e'.graph.node? x = some { n with children := n.children ++ more }
  /-- Any other node is the one that was built, or is read by it. -/
  others : ∀ x n, e'.graph.node? x = some n → (∃ m, e.graph.node? x = some m) ∨ x = id ∨ x ∈ wired

/-- A definition that accepts a call builds it, or an argument is rejected. -/
theorem build_cases (hs : e.graph.store.Sound) (ht : List.Forall₂ e.graph.HasType args types)
    (hscore : (d.score? e.casts types).isSome = true) :
    ((∃ id wired, (e.build d args).1 = .ok id ∧ e.Built d args types id wired (e.build d args).2) ∧
      ¬ ∃ i ∈ d.mismatched types, types[i]? = some .trigger) ∨
    ((∃ a ∈ args, ∃ t, (e.build d args).1 = .error (.castRejected a t)) ∧
      ∃ i ∈ d.mismatched types, types[i]? = some .trigger) := by
  obtain ⟨hrest, hgrown, houtcome⟩ := converted_wire hs d (accepts_of_score? ht hscore)
  rw [← exists_rejects_iff ht hscore]
  unfold build
  simp only
  rcases houtcome with ⟨wired, hwired, hreads, hmade, hnone⟩ | ⟨arg, hmem, hrejects, herr⟩
  · have hlength : wired.length = args.length := by
      rw [← hreads.length_eq, List.length_zip, ht.length_eq, FunctionDef.length_paramsFor_of_score? hscore, min_self]
    have hparents : ∀ c ∈ wired, ∃ n, (e.wire d args).engine.graph.node? c = some n ∧ n.kind.isData = true := by
      intro c hmem
      obtain ⟨i, hi⟩ := List.mem_iff_getElem?.1 hmem
      obtain ⟨arg, -, hread⟩ := exists_of_forall₂ hreads.flip hi
      exact Reads.exists_data hread hgrown
    obtain ⟨id, n, g, hc, ha, hk, hread⟩ := exists_createNode hgrown.store d.result d.behavior hparents
    have hbuild : ((e.wire d args).args.bind fun wired => (e.wire d args).engine.createNode d.nodeSpec wired) =
        .ok (id, { (e.wire d args).engine with graph := g }) := by
      rw [hwired]
      exact hc
    rw [hbuild]
    refine .inl ⟨⟨id, wired, rfl, ?_⟩, fun ⟨arg, hmem, hrejects⟩ => hnone arg hmem hrejects⟩
    have hgrown' := hgrown.added ha
    have hreads' : List.Forall₂ (e.Reads g) (args.zip (d.paramsFor args.length)) wired :=
      hreads.imp fun _ _ hr => hr.added ha
    have hmade' : (e.wire d args).made.length = (d.mismatched types).length := by
      rw [hmade, List.length_reverse, length_filter_isNone ht hscore hreads hlength]
    refine ⟨by rw [hrest], ⟨n, ha.self, hk, hread⟩, hlength, fun i hi hmatch => ?_, fun i hi => ?_,
      hgrown'.fresh id List.mem_cons_self, ?_, ?_, fun x m hm => hgrown'.kept hm, fun x m hm => ?_⟩
    · obtain ⟨c, hc, -, hsame, -⟩ := exists_read ht hscore hreads' hi
      have hparam : d.paramType? i = types[i]? := by
        by_contra hne
        exact hmatch (List.mem_filter.2 ⟨List.mem_range.2 (ht.length_eq ▸ hi), decide_eq_true hne⟩)
      rw [hc, hsame hparam]
    · obtain ⟨hlt, hne⟩ := List.mem_filter.1 hi
      rw [List.mem_range, ← ht.length_eq] at hlt
      obtain ⟨c, hc, hnew, -, hconverted⟩ := exists_read ht hscore hreads' hlt
      obtain ⟨a, t, p, rule, m, hai, hti, hp, hrule, hweight, hm⟩ := hconverted (of_decide_eq_true hne)
      rw [hne, Option.isNone_iff_eq_none] at hnew
      exact ⟨a, t, p, rule, c, m, hai, hti, hp, hrule, hweight, hc, hnew, hm⟩
    · have hnodup := hgrown'.nodup
      rw [hmade] at hnodup
      refine (List.Perm.nodup_iff ?_).1 hnodup
      exact (List.reverse_perm _).cons id
    · have hsize := hgrown'.size
      rw [List.length_cons, hmade', Nat.add_comm _ 1] at hsize
      exact hsize
    · rcases hgrown'.others hm with hx | hx
      · rw [List.mem_cons, hmade, List.mem_reverse, List.mem_filter] at hx
        exact .inr (hx.imp_right And.left)
      · exact .inl hx
  · have herror : ((e.wire d args).args.bind fun wired => (e.wire d args).engine.createNode d.nodeSpec wired) =
        .error (.castRejected arg.1 arg.2) := by
      rw [herr]
      rfl
    rw [herror]
    exact .inr ⟨⟨arg.1, (List.of_mem_zip hmem).1, arg.2, rfl⟩, arg, hmem, hrejects⟩

/-! ### Resolving the call -/

private theorem exists_types (hsane : ∀ x n, e.graph.node? x = some n → n.Sane)
    (hargs : ∀ a ∈ args, ∃ n, e.graph.node? a = some n ∧ n.kind.isData = true) :
    ∃ types, List.Forall₂ e.graph.HasType args types := by
  induction args with
  | nil => exact ⟨[], .nil⟩
  | cons a args ih =>
    obtain ⟨⟨n, hn, hk⟩, hrest⟩ := List.forall_mem_cons.1 hargs
    obtain ⟨t, ht⟩ := (hsane a n hn).exists_dataType? hk
    obtain ⟨types, htypes⟩ := ih hrest
    exact ⟨t :: types, .cons ⟨n, hn, ht⟩ htypes⟩

private theorem mapM_dataType_eq_ok_iff :
    args.mapM e.dataType = .ok types ↔ List.Forall₂ e.graph.HasType args types := by
  induction args generalizing types with
  | nil => rw [List.mapM_nil, pure_eq_ok, List.forall₂_nil_left_iff, eq_comm]
  | cons a args ih =>
    rw [List.mapM_cons, List.forall₂_cons_left_iff]
    simp only [bind_eq_ok, pure_eq_ok, dataType_eq_ok_iff, ih]
    constructor
    · rintro ⟨t, ht, rest, hrest, rfl⟩
      exact ⟨t, rest, ht, hrest, rfl⟩
    · rintro ⟨t, rest, ht, hrest, rfl⟩
      exact ⟨t, ht, rest, hrest, rfl⟩

/-- A call of a group on nodes that have types resolves as the group does for these types. -/
theorem resolveCall_eq {group : NodeId} {g : FunctionGroup} (hg : e.functionGroup group = .ok g)
    (ht : List.Forall₂ e.graph.HasType args types) : e.resolveCall group args = e.resolve g types := by
  unfold resolveCall
  rw [hg, mapM_dataType_eq_ok_iff.2 ht]
  rfl

/-- What a call picks, if it is not refused at once. -/
theorem resolveCall_eq_ok {group : NodeId} {r : Resolution} (h : e.resolveCall group args = .ok r) :
    ∃ g types, e.functionGroup group = .ok g ∧ List.Forall₂ e.graph.HasType args types ∧
      g.resolve? e.casts types = some r := by
  unfold resolveCall at h
  simp only [bind_eq_ok, mapM_dataType_eq_ok_iff] at h
  obtain ⟨g, hg, types, ht, h⟩ := h
  refine ⟨g, types, hg, ht, ?_⟩
  unfold resolve at h
  split at h
  · next hr =>
    cases h
    exact hr
  · cases h

/-- A call that no definition accepts is refused for that. -/
theorem call_of_none {group : NodeId} {g : FunctionGroup} (hg : e.functionGroup group = .ok g)
    (ht : List.Forall₂ e.graph.HasType args types) (h : g.resolve? e.casts types = none) :
    e.call group args = (.error (.noOverloadMatch g.name types), e) := by
  unfold call
  rw [resolveCall_eq hg ht, resolve, h]

/-- A definition that passes its argument through gives it back. -/
theorem call_of_passthrough {group : NodeId} {g : FunctionGroup} {r : Resolution}
    (hg : e.functionGroup group = .ok g) (ht : List.Forall₂ e.graph.HasType args types)
    (h : g.resolve? e.casts types = some r) (hpass : r.definition.isPassthrough args.length = true) :
    ∃ a, args = [a] ∧ e.call group args = (.ok a, e) := by
  have hone : args.length = 1 := by
    simp only [FunctionDef.isPassthrough, Bool.and_eq_true, decide_eq_true_eq] at hpass
    exact hpass.1.2
  obtain ⟨a, rfl⟩ := List.length_eq_one_iff.1 hone
  obtain ⟨-, -, hr⟩ := FunctionGroup.resolve?_eq_some h
  rw [← ht.length_eq, hpass] at hr
  refine ⟨a, rfl, ?_⟩
  unfold call
  rw [resolveCall_eq hg ht, resolve, h]
  obtain ⟨d, index, distance, passthrough⟩ := r
  obtain rfl : passthrough = true := hr
  rfl

/-- Any other definition is built. -/
theorem call_of_some {group : NodeId} {g : FunctionGroup} {r : Resolution}
    (hg : e.functionGroup group = .ok g) (ht : List.Forall₂ e.graph.HasType args types)
    (h : g.resolve? e.casts types = some r) (hpass : r.definition.isPassthrough args.length = false) :
    e.call group args = e.build r.definition args := by
  obtain ⟨-, -, hr⟩ := FunctionGroup.resolve?_eq_some h
  rw [← ht.length_eq, hpass] at hr
  unfold call
  rw [resolveCall_eq hg ht, resolve, h]
  obtain ⟨d, index, distance, passthrough⟩ := r
  obtain rfl : passthrough = false := hr
  rfl

/-- A call that is not refused gives an argument back, and then changes nothing, or builds the definition that it picks,
and then converts no trigger. -/
theorem call_ok_cases (hs : e.graph.store.Sound) {group : NodeId} {args : List NodeId}
    (hcall : (e.call group args).1 = .ok x) :
    ∃ r, e.resolveCall group args = .ok r ∧
      ((r.passthrough = true ∧ x ∈ args ∧ (e.call group args).2 = e) ∨
        (r.passthrough = false ∧ ∃ types wired, List.Forall₂ e.graph.HasType args types ∧
          e.Built r.definition args types x wired (e.call group args).2 ∧
          ¬ ∃ i ∈ r.definition.mismatched types, types[i]? = some .trigger)) := by
  cases hr : e.resolveCall group args with
  | error _ =>
    unfold call at hcall
    rw [hr] at hcall
    cases hcall
  | ok r =>
    obtain ⟨g, types, hg, ht, hresolve⟩ := resolveCall_eq_ok hr
    obtain ⟨-, hscore, hpassthrough⟩ := FunctionGroup.resolve?_eq_some hresolve
    rw [← ht.length_eq] at hpassthrough
    refine ⟨r, rfl, ?_⟩
    cases hpass : r.definition.isPassthrough args.length with
    | true =>
      obtain ⟨a, hargs, hgiven⟩ := call_of_passthrough hg ht hresolve hpass
      rw [hgiven] at hcall ⊢
      cases hcall
      exact .inl ⟨hpassthrough.trans hpass, by rw [hargs]; exact List.mem_singleton_self x, rfl⟩
    | false =>
      rw [call_of_some hg ht hresolve hpass] at hcall ⊢
      rcases build_cases hs ht hscore with ⟨⟨y, wired, hy, hbuilt⟩, hnone⟩ | ⟨⟨a, -, t, herr⟩, -⟩
      · cases hy.symm.trans hcall
        exact .inr ⟨hpassthrough.trans hpass, types, wired, ht, hbuilt, hnone⟩
      · cases herr.symm.trans hcall

/-- A call that is not refused and gives no argument back creates the node of a definition of the group, below as many
nodes as it has arguments. -/
theorem created_of_call (hs : e.schedule.Sound created) {group : NodeId} {g : FunctionGroup} {args : List NodeId}
    (hg : e.functionGroup group = .ok g) (hpass : ∀ d ∈ g.defs, d.isPassthrough args.length = false)
    (hcall : (e.call group args).1 = .ok x) :
    ∃ d ∈ g.defs, d.minArgs ≤ args.length ∧ args.length ≤ d.maxArgs ∧ ∃ (made : Engine σ) (wired : List NodeId),
      made.graph.store.Sound ∧ made.createNode d.nodeSpec wired = .ok (x, (e.call group args).2) ∧
      wired.length = args.length := by
  obtain ⟨r, hr, hcases⟩ := call_ok_cases hs.graph.store hcall
  obtain ⟨g', types, hg', ht, hresolve⟩ := resolveCall_eq_ok hr
  cases hg.symm.trans hg'
  obtain ⟨hmem, hscore, hpassthrough⟩ := FunctionGroup.resolve?_eq_some hresolve
  have hfalse := hpass r.definition hmem
  rw [← ht.length_eq, hfalse] at hpassthrough
  obtain ⟨hpassed, -⟩ | ⟨-, _, _, -, hbuilt, -⟩ := hcases
  · cases hpassed.symm.trans hpassthrough
  obtain ⟨hmin, hmax⟩ := FunctionDef.arity_of_score? hscore (ht.length_eq ▸ hfalse)
  rw [← ht.length_eq] at hmin hmax
  rw [call_of_some hg ht hresolve hfalse] at hcall hbuilt ⊢
  have hwire : Moves (fun _ => True) e _ _ := wire_moves hs trivial r.definition args
  have hstore := (hs.steps hwire.steps).graph.store
  obtain ⟨wired, hc⟩ : ∃ wired, (e.wire r.definition args).engine.createNode r.definition.nodeSpec wired =
      .ok (x, (e.build r.definition args).2) := by
    unfold build at hcall ⊢
    simp only at hcall ⊢
    split at hcall
    · next hmade =>
      obtain ⟨wired, -, hc⟩ := bind_eq_ok.1 hmade
      cases hcall
      exact ⟨wired, hc⟩
    · cases hcall
  refine ⟨r.definition, hmem, hmin, hmax, _, wired, hstore, hc, ?_⟩
  obtain ⟨n, hn, -, hparents⟩ := hbuilt.node
  obtain ⟨m, g, hgraph, ha, -, hwired, -⟩ := added_of_createNode hstore hc
  rw [hgraph, ha.self, Option.some.injEq] at hn
  rw [← hwired, hn, hparents, hbuilt.length]

end Engine

/-- What a call of a function group answers, given the types of its arguments. -/
structure Answers (e : Engine σ) (id : NodeId) (group : FunctionGroup) (args : List NodeId) (types : List DataType) :
    Prop where
  /-- No definition is picked, and the call is refused for that, exactly if none has a score. -/
  unmatched : (group.resolve? e.casts types = none ↔ ∀ d ∈ group.defs, d.score? e.casts types = none) ∧
    ((∃ name found, (e.call id args).1 = .error (.noOverloadMatch name found)) ↔
      group.resolve? e.casts types = none)
  /-- A definition that passes its argument through gives it back, and nothing changes. -/
  passed : ∀ r, group.resolve? e.casts types = some r → r.definition.isPassthrough args.length = true →
    ∃ a, args = [a] ∧ e.call id args = (.ok a, e)
  /-- Any other definition is refused exactly if a trigger would have to be converted. -/
  rejected : ∀ r, group.resolve? e.casts types = some r → r.definition.isPassthrough args.length = false →
    ((∃ a t, (e.call id args).1 = .error (.castRejected a t)) ↔
      ∃ i ∈ r.definition.mismatched types, types[i]? = some .trigger)
  /-- There is no other reason to refuse a call. -/
  refused : ∀ err, (e.call id args).1 = .error err →
    err = .noOverloadMatch group.name types ∨ ∃ a ∈ args, ∃ t, err = .castRejected a t
  built : ∀ r x, group.resolve? e.casts types = some r → r.definition.isPassthrough args.length = false →
    (e.call id args).1 = .ok x → ∃ wired, e.Built r.definition args types x wired (e.call id args).2

/-- A call builds what its resolution promises, whatever conversions are registered. -/
theorem Reachable.answers (h : Reachable created e) {id : NodeId} {group : FunctionGroup}
    (hg : e.functionGroup id = .ok group) {args : List NodeId}
    (hargs : ∀ a ∈ args, ∃ n, e.graph.node? a = some n ∧ n.kind.isData = true) :
    ∃ types, List.Forall₂ e.graph.HasType args types ∧ Answers e id group args types := by
  obtain ⟨types, ht⟩ := Engine.exists_types (fun x n hn => h.sane hn) hargs
  have hs : e.graph.store.Sound := h.sound.graph.store
  -- A definition that is picked and not passed through is built, or an argument is rejected.
  have hbuild : ∀ r, group.resolve? e.casts types = some r → r.definition.isPassthrough args.length = false →
      ((∃ x wired, (e.call id args).1 = .ok x ∧ e.Built r.definition args types x wired (e.call id args).2) ∧
        ¬ ∃ i ∈ r.definition.mismatched types, types[i]? = some .trigger) ∨
      ((∃ a ∈ args, ∃ t, (e.call id args).1 = .error (.castRejected a t)) ∧
        ∃ i ∈ r.definition.mismatched types, types[i]? = some .trigger) := by
    intro r hr hpass
    obtain ⟨-, hscore, -⟩ := FunctionGroup.resolve?_eq_some hr
    rw [Engine.call_of_some hg ht hr hpass]
    exact Engine.build_cases hs ht hscore
  have hrefused : ∀ err, (e.call id args).1 = .error err →
      (group.resolve? e.casts types = none ∧ err = .noOverloadMatch group.name types) ∨
        ∃ a ∈ args, ∃ t, err = .castRejected a t := by
    intro err herr
    cases hr : group.resolve? e.casts types with
    | none =>
      rw [Engine.call_of_none hg ht hr] at herr
      exact .inl ⟨rfl, (Except.error.inj herr).symm⟩
    | some r =>
      cases hpass : r.definition.isPassthrough args.length with
      | true =>
        obtain ⟨a, -, hcall⟩ := Engine.call_of_passthrough hg ht hr hpass
        rw [hcall] at herr
        cases herr
      | false =>
        rcases hbuild r hr hpass with ⟨⟨x, wired, hok, -⟩, -⟩ | ⟨⟨a, ha, t, hrejected⟩, -⟩
        · cases hok.symm.trans herr
        · exact .inr ⟨a, ha, t, Except.error.inj (herr.symm.trans hrejected)⟩
  refine ⟨types, ht, ⟨FunctionGroup.resolve?_eq_none_iff, ?_⟩, fun r hr hpass => ?_, fun r hr hpass => ?_,
    fun err herr => ?_, fun r x hr hpass hok => ?_⟩
  · constructor
    · rintro ⟨name, found, herr⟩
      rcases hrefused _ herr with ⟨hnone, -⟩ | ⟨a, -, t, hrejected⟩
      · exact hnone
      · cases hrejected
    · intro hnone
      exact ⟨group.name, types, by rw [Engine.call_of_none hg ht hnone]⟩
  · exact Engine.call_of_passthrough hg ht hr hpass
  · rcases hbuild r hr hpass with ⟨⟨x, wired, hok, -⟩, hnone⟩ | ⟨⟨a, -, t, herr⟩, hsome⟩
    · refine ⟨fun ⟨a, t, herr⟩ => ?_, fun hsome => absurd hsome hnone⟩
      cases hok.symm.trans herr
    · exact ⟨fun _ => hsome, fun _ => ⟨a, t, herr⟩⟩
  · exact (hrefused err herr).imp_left And.right
  · rcases hbuild r hr hpass with ⟨⟨y, wired, hy, hbuilt⟩, -⟩ | ⟨⟨a, -, t, herr⟩, -⟩
    · rw [hy, Except.ok.injEq] at hok
      exact ⟨wired, hok ▸ hbuilt⟩
    · cases herr.symm.trans hok

/-- A function of integers that takes two arguments or more. -/
def summing : FunctionGroup :=
  ⟨"sum", [.variadic (.value "sum" [.int, .int] .int ⟨"sum", fun _ _ => none⟩) 4]⟩

/-- A truth value, an integer, and a function of integers. -/
def repeatedSum : Engine Unit :=
  (Engine.new .default ()).run [.createNode (.inputWith (.bool true)) [], .createNode (.inputWith (.int 2)) [],
    .defineFunction ⟨0, 0⟩ summing]

/-- The truth value is converted for each of its positions, and the integer is read itself. -/
theorem repeatedSum_answers :
    (repeatedSum.call ⟨3, 0⟩ [⟨1, 0⟩, ⟨2, 0⟩, ⟨1, 0⟩]).1 = .ok ⟨6, 0⟩ ∧
    ((repeatedSum.call ⟨3, 0⟩ [⟨1, 0⟩, ⟨2, 0⟩, ⟨1, 0⟩]).2.graph.node? ⟨6, 0⟩).map Node.parents =
      some [⟨4, 0⟩, ⟨2, 0⟩, ⟨5, 0⟩] ∧
    repeatedSum.functionGroup ⟨3, 0⟩ = .ok summing ∧
    ∃ types, List.Forall₂ repeatedSum.graph.HasType [⟨1, 0⟩, ⟨2, 0⟩, ⟨1, 0⟩] types ∧
      Answers repeatedSum ⟨3, 0⟩ summing [⟨1, 0⟩, ⟨2, 0⟩, ⟨1, 0⟩] types := by
  have h : Reachable _ repeatedSum := (Reachable.new .default ()).run _
  have hgroup : repeatedSum.functionGroup ⟨3, 0⟩ = .ok summing := rfl
  have hargs : ∀ a ∈ [(⟨1, 0⟩ : NodeId), ⟨2, 0⟩, ⟨1, 0⟩], ∃ n, repeatedSum.graph.node? a = some n ∧
      n.kind.isData = true := by
    simp only [List.forall_mem_cons]
    exact ⟨⟨_, rfl, rfl⟩, ⟨_, rfl, rfl⟩, ⟨_, rfl, rfl⟩, fun _ h => absurd h List.not_mem_nil⟩
  exact ⟨by decide +kernel, by decide +kernel, hgroup, h.answers hgroup hargs⟩

end Dataflow
