import Dataflow.Proofs.Engine.Calls
import Dataflow.Proofs.Engine.Persistence

/-!
# Library programs

A program that is built of inputs, constants, calls of the standard library and usual conversions, and never rewired
(`LibraryReachable`), is well typed in every state that it comes to (`WellTyped`): a node holds values of its type only,
and a formula of an operator or a conversion that is not pending holds a value exactly if its parents do.

* `Typed.createNode`, `Typed.castBy`, `Typed.call`: what is built is typed;
* `Typed.inserted`: what a call creates besides its own node are pure formulas;
* `Typed.move`: everything else leaves nodes typed.
-/

namespace Dataflow

open Dataflow.Graph

variable {σ : Type} {created : Nat} {e e' : Engine σ}

namespace Graph

/-- The node is a formula with a pure rule. -/
def IsPureFormula (g : Graph) (x : NodeId) : Prop :=
  ∃ n t rule, g.node? x = some n ∧ n.kind = .formula t rule ∧ rule.IsPure

end Graph

namespace Engine

/-- All nodes are typed, and the conversions are the usual ones. -/
structure Typed (e : Engine σ) : Prop where
  graph : e.graph.Typed
  casts : e.casts = .standard

/-! ### What is left typed -/

private theorem typed_new (config : EngineConfig) (host : σ) : (Engine.new config host).Typed := by
  have hempty : Graph.empty.Typed := fun x n hn => by simp [Graph.empty, node?, Store.empty, Store.get?] at hn
  have hadd : Graph.empty.Added _ _ Graph.empty.addScope.2 := addScope_added Store.sound_empty
  exact ⟨hempty.added hadd (Node.typedIn_fresh (by simp) (by simp) (by simp)), rfl⟩

/-- A write stages a value of the type of its node. -/
theorem Typed.write (ht : e.Typed) {a : Act} (hw : Write a e e') : e'.Typed := by
  cases hw with
  | @input _ id n v hn hk _ =>
    refine ⟨ht.graph.staged id _ fun m w t hm hst hd => ?_, ht.casts⟩
    rw [hn, Option.some.injEq] at hm
    cases hst
    rw [← hm, Node.dataType?, hk, Option.some.injEq] at hd
    exact hd
  | withdraw hn hk => exact ⟨ht.graph.staged _ none fun _ _ _ _ hst => (by cases hst), ht.casts⟩
  | provoke hn hk => exact ⟨ht.graph.staged _ _ fun _ _ _ _ hst => (by cases hst), ht.casts⟩
  | @fold _ id n v hn hk hold =>
    refine ⟨ht.graph.staged id _ fun m w t hm hst hd => ?_, ht.casts⟩
    rw [hn, Option.some.injEq] at hm
    cases hst
    rw [← hm, Node.dataType?, hk] at hd
    obtain ⟨old, hv, rfl⟩ := Option.map_eq_some_iff.1 hd
    exact hold old hv

private theorem Typed.renamed (ht : e.Typed) {id scope : NodeId} {name : String} {g : Graph}
    (hr : e.graph.setScope id scope name = .ok g) : Typed { e with graph := g } := by
  refine ⟨ht.graph.congr_held ((setScope_eq_ok hr).same.weaken fun n m he => ?_), ht.casts⟩
  rw [Prod.mk.injEq]
  exact ⟨Node.content_of_evaluated (Node.evaluated_of_anonymous he), (congrArg Node.staged? he :)⟩

/-- What neither makes nor links nodes leaves them typed. -/
theorem Typed.move {allowed : Act → Prop} {i : Nat} (ht : e.Typed) (hs : e.schedule.Sound created)
    (hm : Move allowed e i e') (hc : ¬ allowed .create) (hl : ¬ allowed .relink) (hr : ¬ allowed .recast) :
    e'.Typed := by
  obtain ⟨hgraph, hcasts⟩ := ht
  cases hm with
  | create ha => exact absurd ha hc
  | addScope =>
    refine ⟨hgraph.added (addScope_added hs.graph.store) ?_, hcasts⟩
    exact Node.typedIn_fresh (by simp) (by simp) (by simp)
  | rename _ hr => exact Typed.renamed ⟨hgraph, hcasts⟩ hr
  | remove _ _ hr =>
    obtain ⟨n, hremoved, -, -⟩ := Graph.removeNode_eq_ok hs.graph.store hr
    exact ⟨hgraph.removed hs.graph.linked hremoved, hcasts⟩
  | addChild ha => exact absurd ha hl
  | removeChild ha => exact absurd ha hl
  | setParents ha => exact absurd ha hl
  | write _ hw => exact Typed.write ⟨hgraph, hcasts⟩ hw
  | settle =>
    unfold drainUpdate
    split
    · exact ⟨hgraph, hcasts⟩
    · refine ⟨hgraph.congr_held (hs.graph.same_settleDepths.weaken fun n m he => ?_), hcasts⟩
      show (n.flat.content, n.flat.staged?) = (m.flat.content, m.flat.staged?)
      rw [he]
  | evaluate _ hu =>
    obtain ⟨visits, last, hready, hrun, heq⟩ := evaluating_eq hs hu
    rw [heq]
    exact ⟨hgraph.propagates hready hs.keyed hrun, hcasts⟩
  | unregister id =>
    unfold removeObserver
    split <;> exact ⟨hgraph, hcasts⟩
  | reset id => exact ⟨hgraph.congr_held (.modify (fun _ => by rfl) e.graph id), hcasts⟩
  | recast _ ha => exact absurd ha hr
  | share | register | takeTasks | adjust => exact ⟨hgraph, hcasts⟩

/-- Moves that neither create nor link nodes, nor register conversions, leave nodes typed. -/
theorem Typed.moves {allowed : Act → Prop} {i : Nat} (ht : e.Typed) (hs : e.schedule.Sound created)
    (hm : Moves allowed e i e') (hc : ¬ allowed .create) (hl : ¬ allowed .relink) (hr : ¬ allowed .recast) :
    e'.Typed :=
  (hm.induction (I := fun created e => e.schedule.Sound created ∧ e.Typed) ⟨hs, ht⟩
    fun hI hm => ⟨hI.1.steps hm.steps, hI.2.move hI.1 hm hc hl hr⟩).2

/-! ### What is built -/

/-- A new node that is typed leaves nodes typed, before and after its first computation. -/
theorem Typed.create (ht : e.Typed) (hs : e.schedule.Sound created) {kind : NodeKind} {parents : List NodeId}
    {value? : Option Value} {id : NodeId} {g : Graph} (ha : e.graph.addNode (.fresh kind parents value?) = .ok (id, g))
    (hn : (Node.fresh kind parents value?).TypedIn e.graph) :
    Typed { e with graph := computeFirst g id } ∧
      (∀ {p t}, e.graph.HasType p t → (computeFirst g id).HasType p t) ∧
      ∃ n, (computeFirst g id).node? id = some n ∧ n.kind = kind := by
  obtain ⟨d, -, hadd, -⟩ := addNode_eq_ok hs.graph.store ha
  have htyped : g.Typed := ht.graph.added hadd <|
    hn.mono rfl hn.staged (fun _ _ _ h => h) fun _ _ h => h
  have hself := hadd.self
  unfold computeFirst
  rw [hself]
  simp only
  split
  · next t rule v hk ho =>
    obtain ⟨args, hargs, ho⟩ := Option.map_eq_some_iff.1 ho
    have hnode : ∀ x, (g.modify id (·.settled 0 (.value v))).node? x = if x = id then
        some (Node.settled { Node.fresh kind parents value? with depth := d } 0
          (Node.outcome { Node.fresh kind parents value? with depth := d } args)) else g.node? x := by
      intro x
      rw [node?_modify, ho]
      split
      · next hx => rw [hx, hself, Option.map_some]
      · rfl
    refine ⟨⟨htyped.settled hself hargs 0 hnode, ht.casts⟩, fun h => ?_, _, (hnode id).trans (if_pos rfl), ?_⟩
    · exact (htyped.kept_settled hself hargs 0 hnode).1 (h.added hadd)
    · cases Node.outcome { Node.fresh kind parents value? with depth := d } args <;> rfl
  · exact ⟨⟨htyped, ht.casts⟩, fun h => h.added hadd, _, hself, rfl⟩

/-- A new node that is typed leaves nodes typed, and those from before their types. -/
theorem Typed.createNode (ht : e.Typed) (hs : e.schedule.Sound created) {spec : NodeSpec} {parents : List NodeId}
    {id : NodeId} (hc : e.createNode spec parents = .ok (id, e'))
    (hn : (Node.fresh spec.kind parents
      (if spec.kind.isTrigger || !spec.kind.isData then none else spec.initial?)).TypedIn e.graph) :
    e'.Typed ∧ (∀ {p t}, e.graph.HasType p t → e'.graph.HasType p t) ∧
      ∃ n, e'.graph.node? id = some n ∧ n.kind = spec.kind := by
  obtain ⟨g, hadd, rfl⟩ := createNode_eq_ok hc
  exact ht.create hs hadd hn

/-- A node that is none of the derived ones is typed when it is new, for its initial value has been checked. -/
theorem typedIn_of_source {spec : NodeSpec} {parents : List NodeId} {id : NodeId} {g : Graph}
    (hd : spec.kind.isDerived = false) (hdata : spec.kind.isData = true)
    (hc : e.createNode spec parents = .ok (id, e')) :
    (Node.fresh spec.kind parents
      (if spec.kind.isTrigger || !spec.kind.isData then none else spec.initial?)).TypedIn g := by
  have hcheck : checkInitial spec = .ok () := by
    unfold Engine.createNode at hc
    simp only [bind_eq_ok] at hc
    obtain ⟨_, hcheck, -⟩ := hc
    exact hcheck
  refine Node.typedIn_fresh (fun v hv => ?_) (fun t rule hk => ?_) fun group hk => ?_
  · split at hv
    · cases hv
    · unfold checkInitial at hcheck
      rw [hv] at hcheck
      unfold Node.dataType? Node.fresh
      cases hk : spec.kind <;> rw [hk] at hd hdata hcheck <;>
        simp_all [NodeKind.isDerived, NodeKind.isData, NodeKind.declaredType?, NodeKind.isTrigger]
  · rw [hk] at hd
    cases hd
  · rw [hk] at hdata
    cases hdata

/-- A new derived node is typed if its rule is wired for the types of its parents. -/
theorem typedIn_of_behavior {t : DataType} {behavior : Behavior} {parents : List NodeId} {g : Graph}
    (hw : ∀ rule, behavior = .value rule →
      ∃ params, rule.Wired params t ∧ List.Forall₂ g.HasType parents params) :
    (Node.fresh (NodeSpec.ofBehavior t behavior).kind parents
      (if (NodeSpec.ofBehavior t behavior).kind.isTrigger || !(NodeSpec.ofBehavior t behavior).kind.isData then none
        else (NodeSpec.ofBehavior t behavior).initial?)).TypedIn g := by
  have hnone : (NodeSpec.ofBehavior t behavior).initial? = none := rfl
  rw [hnone, ite_self]
  refine Node.typedIn_fresh (by simp) (fun u rule hk => ⟨rfl, ?_⟩) fun group hk => ?_
  · cases behavior with
    | value rule' =>
      cases hk
      exact hw _ rfl
    | trigger => cases hk
  · cases behavior <;> cases hk

/-- `other` is `id` converted: a node of the target type, and if it has been made for this and is no trigger, a formula
with a pure rule. -/
structure Converts (e : Engine σ) (id : NodeId) (target : DataType) (other : NodeId) (e' : Engine σ) : Prop where
  typed : e'.Typed
  kept : ∀ {p t}, e.graph.HasType p t → e'.graph.HasType p t
  type : e'.graph.HasType other target
  formula : other ≠ id → target ≠ .trigger → e'.graph.IsPureFormula other

/-- In a typed engine every conversion is a usual one: it gives a node of the target type, and a new one is a formula
with a pure rule, or a trigger. -/
theorem Typed.castBy (ht : e.Typed) (hs : e.schedule.Sound created) {id other : NodeId} {target : DataType}
    {rule? : DataType → Option CastRule}
    (hr : ∀ source rule, rule? source = some rule → e.casts.rule? source target = some rule)
    (h : e.castBy id target rule? = .ok (other, e')) :
    e.Converts id target other e' := by
  obtain ⟨n, source, hn, hsource, ⟨rfl, rfl, rfl⟩ | ⟨rule, -, -, hrule, hc⟩⟩ := castBy_eq_ok h
  · exact ⟨ht, fun h => h, ⟨n, hn, hsource⟩, fun hne => absurd rfl hne⟩
  have hstandard := hr source rule hrule
  rw [ht.casts] at hstandard
  rcases behavior_standard hstandard with ⟨op, hbehavior, hop⟩ | ⟨hbehavior, rfl, -⟩
  · have htyped := ht.createNode hs hc <| typedIn_of_behavior fun rule' hb => by
      rw [hbehavior, Behavior.value.injEq] at hb
      exact ⟨[source], hb ▸ .operator hop, .cons ⟨n, hn, hsource⟩ .nil⟩
    obtain ⟨hnext, hkept, m, hm, hk⟩ := htyped
    have hkind : m.kind = .formula target op := by
      rw [hk, CastRule.nodeSpec, hbehavior]
      rfl
    exact ⟨hnext, hkept, ⟨m, hm, by rw [Node.dataType?, hkind]⟩, fun _ _ => ⟨m, _, _, hm, hkind, hop.pure⟩⟩
  · have htyped := ht.createNode hs hc <| typedIn_of_behavior fun rule' hb => by
      rw [hbehavior] at hb
      cases hb
    obtain ⟨hnext, hkept, m, hm, hk⟩ := htyped
    have hkind : m.kind = .trigger .changed := by
      rw [hk, CastRule.nodeSpec, hbehavior]
      rfl
    exact ⟨hnext, hkept, ⟨m, hm, by rw [Node.dataType?, hkind]⟩, fun _ hne => absurd rfl hne⟩

theorem Typed.explicitCast (ht : e.Typed) (hs : e.schedule.Sound created) {id other : NodeId} {target : DataType}
    (h : e.explicitCast id target = .ok (other, e')) :
    e.Converts id target other e' :=
  ht.castBy hs (fun _ _ hr => hr) h

theorem Typed.implicitCast (ht : e.Typed) (hs : e.schedule.Sound created) {id other : NodeId} {target : DataType}
    (h : e.implicitCast id target = .ok (other, e')) :
    e.Converts id target other e' :=
  ht.castBy hs (fun _ _ hr => (Option.filter_eq_some_iff.1 hr).1) h

/-- The arguments converted so far are of the types of the parameters. -/
structure WellWired (w : Wiring σ) (params : List DataType) : Prop where
  sound : ∃ created, w.engine.schedule.Sound created
  typed : w.engine.Typed
  types : ∀ wired, w.args = .ok wired → List.Forall₂ w.engine.graph.HasType wired params

/-- Converting one more argument gives one more node of the type of its parameter. -/
theorem WellWired.add {w : Wiring σ} {params : List DataType} (h : WellWired w params) (arg : NodeId × DataType) :
    WellWired (w.add arg) (params ++ [arg.2]) := by
  obtain ⟨⟨created, hs⟩, ht, htypes⟩ := h
  unfold Wiring.add
  split
  · next err herr => exact ⟨⟨created, hs⟩, ht, fun wired hw => by rw [herr] at hw; cases hw⟩
  next wired hwired =>
  split
  · exact ⟨⟨created, hs⟩, ht, fun wired hw => by cases hw⟩
  next id next hcast =>
  have hconv := ht.implicitCast hs hcast
  refine ⟨?_, hconv.typed, fun wired' hw => ?_⟩
  · have hcases : (id = arg.1 ∧ next = w.engine) ∨ id ≠ arg.1 ∧ Move (fun _ => True) w.engine 1 next :=
      castBy_cases hs.graph.store trivial hcast
    rcases hcases with ⟨-, rfl⟩ | ⟨-, hmove⟩
    · exact ⟨created, hs⟩
    · exact ⟨_, hs.steps hmove.steps⟩
  · cases hw
    refine List.rel_append ?_ (.cons hconv.type .nil)
    exact (htypes wired hwired).imp fun _ _ => hconv.kept

/-- Converting the arguments of a call gives arguments of the types of the parameters. -/
theorem Typed.wire (ht : e.Typed) (hs : e.schedule.Sound created) (d : FunctionDef) (args : List NodeId) :
    WellWired (e.wire d args) (d.paramsFor args.length) := by
  have hparams : (args.zip (d.paramsFor args.length)).map Prod.snd = d.paramsFor args.length := by
    refine List.map_snd_zip ?_
    unfold FunctionDef.paramsFor
    exact (List.length_filterMap_le _ _).trans_eq List.length_range
  rw [← hparams]
  unfold Engine.wire
  change WellWired ((args.zip (d.paramsFor args.length)).foldl Wiring.add ⟨e, [], .ok []⟩) _
  generalize args.zip (d.paramsFor args.length) = l
  induction l using List.reverseRecOn with
  | nil =>
    refine ⟨⟨created, hs⟩, ht, fun wired hw => ?_⟩
    cases hw
    exact .nil
  | append_singleton l arg ih =>
    rw [List.foldl_append, List.map_append]
    exact ih.add arg

/-- A call of a wired definition leaves nodes typed, and unless it is refused it builds the node of the definition. -/
theorem Typed.build (ht : e.Typed) (hs : e.schedule.Sound created) {d : FunctionDef} {args : List NodeId}
    (hd : d.IsWired) (hmin : d.minArgs ≤ args.length) (hmax : args.length ≤ d.maxArgs) :
    (e.build d args).2.Typed ∧ ∀ id, (e.build d args).1 = .ok id →
      ∃ n, (e.build d args).2.graph.node? id = some n ∧ n.kind = d.nodeSpec.kind := by
  obtain ⟨⟨created', hs'⟩, ht', htypes⟩ := ht.wire hs d args
  unfold Engine.build
  simp only
  split
  · next id next hc =>
    obtain ⟨wired, hwired, hc⟩ := bind_eq_ok.1 hc
    obtain ⟨hnext, -, hnode⟩ := ht'.createNode hs' hc <| typedIn_of_behavior fun rule hb =>
      ⟨_, hd rule args.length hb hmin hmax, htypes wired hwired⟩
    refine ⟨hnext, fun id' hid => ?_⟩
    cases hid
    exact hnode
  · refine ⟨?_, fun id hid => by cases hid⟩
    have hremove : Moves (.remove = ·) (e.wire d args).engine 0 _ :=
      removeAll_moves (e.wire d args).engine rfl (e.wire d args).made
    exact ht'.moves hs' hremove (by simp) (by simp) (by simp)

/-- A call of a function of the library leaves nodes typed.  Unless it is refused or gives an argument back, a call of
an operator builds a formula with a pure rule. -/
theorem Typed.call (ht : e.Typed) (hs : e.schedule.Sound created) (group : NodeId) (args : List NodeId) :
    (e.call group args).2.Typed ∧ ∀ id n g, (e.call group args).1 = .ok id → e.graph.node? group = some n →
      n.kind = .functionGroup g → g.name ∈ StandardLibrary.operators →
      id ∈ args ∨ (e.call group args).2.graph.IsPureFormula id := by
  unfold Engine.call
  cases hr : e.resolveCall group args with
  | error err => exact ⟨ht, fun id n g hid => by cases hid⟩
  | ok r =>
    obtain ⟨g, types, hgroup, htypes, hresolve⟩ := resolveCall_eq_ok hr
    obtain ⟨n, hn, hk⟩ := functionGroup_eq_ok_iff.1 hgroup
    have hlength := htypes.length_eq.symm
    obtain ⟨maxArgs, hg⟩ := (ht.graph group n hn).group g hk
    obtain ⟨hmem, hscore, hpass⟩ := FunctionGroup.resolve?_eq_some hresolve
    rw [hlength] at hpass
    have hbuild : r.passthrough = false → (e.build r.definition args).2.Typed ∧ ∀ id n g,
        (e.build r.definition args).1 = .ok id → e.graph.node? group = some n → n.kind = .functionGroup g →
        g.name ∈ StandardLibrary.operators → id ∈ args ∨ (e.build r.definition args).2.graph.IsPureFormula id := by
      intro hfalse
      obtain ⟨hmin, hmax⟩ := FunctionDef.arity_of_score? hscore (by rw [hlength, ← hpass, hfalse])
      rw [hlength] at hmin hmax
      obtain ⟨htyped, hnode⟩ := ht.build hs (StandardLibrary.isWired_of_mem_groups hg hmem) hmin hmax
      refine ⟨htyped, fun id n' g' hid hn' hk' hname => .inr ?_⟩
      rw [hn, Option.some.injEq] at hn'
      rw [← hn', hk, NodeKind.functionGroup.injEq] at hk'
      obtain ⟨rule, hb, hop⟩ := StandardLibrary.isOperator_of_mem_groups hg (hk' ▸ hname) hmem
      obtain ⟨m, hm, hkind⟩ := hnode id hid
      refine ⟨m, r.definition.result, rule, hm, ?_, (hop args.length hmin hmax).pure⟩
      rw [hkind, FunctionDef.nodeSpec, hb]
      rfl
    obtain ⟨d, index, distance, passthrough⟩ := r
    cases passthrough <;> cases args
    · exact hbuild rfl
    · exact hbuild rfl
    -- Without arguments there is none to give back.
    · simp [FunctionDef.isPassthrough] at hpass
    · next arg rest =>
      refine ⟨ht, fun id n g hid _ _ _ => .inl ?_⟩
      cases hid
      exact List.mem_cons_self ..

/-- What a call reads is a node from before, or a formula with a pure rule: the usual conversions that are made without
being asked for make no triggers. -/
private theorem Built.isPureFormula (hcasts : e.casts = .standard) {d : FunctionDef} {args wired : List NodeId}
    {types : List DataType} {id x : NodeId} (h : e.Built d args types id wired e')
    (htypes : List.Forall₂ e.graph.HasType args types) (hx : x ∈ wired) :
    (∃ n, e.graph.node? x = some n) ∨ e'.graph.IsPureFormula x := by
  obtain ⟨i, hi⟩ := List.mem_iff_getElem?.1 hx
  by_cases hmatch : i ∈ d.mismatched types
  · obtain ⟨a, s, t, rule, c, m, -, -, -, hrule, hweight, hc, -, hm, hk, -⟩ := h.converted i hmatch
    obtain rfl : c = x := Option.some.inj (hc.symm.trans hi)
    rw [hcasts] at hrule
    rcases behavior_standard hrule with ⟨op, hbehavior, hop⟩ | ⟨-, -, hnone⟩
    · have hkind : m.kind = .formula t op := by
        rw [hk, CastRule.nodeSpec, hbehavior]
        rfl
      exact .inr ⟨m, t, op, hm, hkind, hop.pure⟩
    · rw [hnone] at hweight
      cases hweight
  · have hlt : i < args.length := h.length ▸ (List.getElem?_eq_some_iff.1 hi).1
    rw [h.asIs i hlt hmatch] at hi
    obtain ⟨t, -, n, hn, -⟩ := exists_of_forall₂ htypes hi
    exact .inl ⟨n, hn⟩

/-- All that a call creates besides the node that it gives back are formulas with pure rules. -/
theorem Typed.inserted (ht : e.Typed) (hs : e.schedule.Sound created) {group id x : NodeId} {args : List NodeId}
    {n : Node} (hcall : (e.call group args).1 = .ok id) (hn : (e.call group args).2.graph.node? x = some n) :
    (∃ m, e.graph.node? x = some m) ∨ x = id ∨ (e.call group args).2.graph.IsPureFormula x := by
  obtain ⟨r, -, ⟨-, -, hsame⟩ | ⟨-, types, wired, htypes, hbuilt, -⟩⟩ := call_ok_cases hs.graph.store hcall
  · rw [hsame] at hn
    exact .inl ⟨n, hn⟩
  · rcases hbuilt.others x n hn with hold | hid | hx
    · exact .inl hold
    · exact .inr (.inl hid)
    · exact (hbuilt.isPureFormula ht.casts htypes hx).imp_right .inr

/-! ### Operations -/

/-- An operation that may be refused leaves nodes typed if it does so when it is not. -/
private theorem Typed.accept (ht : e.Typed) {α : Type} {r : Except GraphError (α × Engine σ)}
    (h : ∀ a next, r = .ok (a, next) → next.Typed) : (e.accept (r.map Prod.snd)).Typed := by
  cases r with
  | error _ => exact ht
  | ok p => exact h p.1 p.2 rfl

theorem Typed.createNamed (ht : e.Typed) (hs : e.schedule.Sound created) {scope id : NodeId} {name : String}
    {spec : NodeSpec} {parents : List NodeId} (hd : spec.kind.isDerived = false) (hdata : spec.kind.isData = true)
    (h : e.createNamed scope name spec parents = .ok (id, e')) : e'.Typed := by
  unfold Engine.createNamed at h
  simp only [bind_eq_ok, pure_eq_ok, Prod.mk.injEq] at h
  obtain ⟨_, -, ⟨id', made⟩, hmade, g, hset, rfl, rfl⟩ := h
  exact (ht.createNode hs hmade (typedIn_of_source hd hdata hmade)).1.renamed hset

theorem Typed.defineFunction (ht : e.Typed) (hs : e.schedule.Sound created) {scope id : NodeId} {group : FunctionGroup}
    (hg : ∃ maxArgs, group ∈ StandardLibrary.groups maxArgs) (h : e.defineFunction scope group = .ok (id, e')) :
    e'.Typed := by
  unfold Engine.defineFunction at h
  simp only [bind_eq_ok, pure_eq_ok, Prod.mk.injEq] at h
  obtain ⟨_, -, ⟨id', g⟩, hadd, g', hset, rfl, rfl⟩ := h
  obtain ⟨d, -, hadded, -⟩ := addNode_eq_ok hs.graph.store hadd
  have hmade := (ht.create hs hadd (Node.typedIn_fresh (by simp) (by simp) fun g hk => by cases hk; exact hg)).1
  rw [computeFirst_of_kind hadded.self fun _ _ hk => NodeKind.noConfusion hk] at hmade
  exact hmade.renamed hset

/-- A constant that is found or created leaves nodes typed. -/
theorem Typed.constant (ht : e.Typed) (hs : e.schedule.Sound created) {v : Value} {id : NodeId}
    (h : e.constant v = .ok (id, e')) : e'.Typed := by
  unfold Engine.constant at h
  split at h
  · cases h
    exact ht
  · simp only [bind_eq_ok] at h
    obtain ⟨⟨id', made⟩, hmade, h⟩ := h
    obtain ⟨htyped, -⟩ := ht.createNode hs hmade (typedIn_of_source rfl rfl hmade)
    split at h <;> cases h
    · exact ⟨htyped.graph, htyped.casts⟩
    · exact htyped

/-! ### Formulas that stay -/

/-- As long as it stays, a formula is what it is. -/
theorem isPureFormula_apply (hs : e.schedule.Sound created) (ht : e.Tidy) (op : Operation σ) {x : NodeId}
    (h : e.graph.IsPureFormula x) (hl : ∃ n, (op.apply e).graph.node? x = some n) :
    (op.apply e).graph.IsPureFormula x := by
  obtain ⟨n, t, rule, hn, hkind, hpure⟩ := h
  obtain ⟨m, hm⟩ := hl
  refine ⟨m, t, rule, hm, NodeKind.of_emptied_eq_formula ?_, hpure⟩
  rw [(op.leaves hs ht hn hm).kind, hkind]
  rfl

end Engine

open Engine

/-- The operation builds nodes of the standard library and of its usual conversions only, and rewires none. -/
def Operation.IsLibrary : Operation σ → Prop
  | createNode spec _ | createNamed _ _ spec _ => spec.kind.isDerived = false
  | defineFunction _ group => ∃ maxArgs, group ∈ StandardLibrary.groups maxArgs
  | addChild _ _ | removeChild _ _ | setParents _ _ | setCasts _ => False
  | _ => True

/-- The engines of library programs. -/
inductive LibraryReachable {σ : Type} : Engine σ → Prop
  | new (config : EngineConfig) (host : σ) : LibraryReachable (.new config host)
  | step {e : Engine σ} (op : Operation σ) : op.IsLibrary → LibraryReachable e → LibraryReachable (op.apply e)

namespace LibraryReachable

/-- What a library program brings about, a host can bring about. -/
theorem reachable (h : LibraryReachable e) : ∃ created, Reachable created e := by
  induction h with
  | new config host => exact ⟨0, .new config host⟩
  | step op _ _ ih =>
    obtain ⟨created, hr⟩ := ih
    exact ⟨_, hr.step op⟩

theorem run (h : LibraryReachable e) (ops : List (Operation σ)) (hops : ∀ op ∈ ops, op.IsLibrary) :
    LibraryReachable (e.run ops) := by
  induction ops generalizing e with
  | nil => exact h
  | cons op ops ih =>
    rw [List.forall_mem_cons] at hops
    exact ih (h.step op hops.1) hops.2

/-- A library program can install the standard library. -/
theorem installLibrary (h : LibraryReachable e) : LibraryReachable e.installLibrary.2 := by
  have hall : ∀ {groups : List FunctionGroup} {e : Engine σ} (scope : NodeId),
      (∀ group ∈ groups, ∃ maxArgs, group ∈ StandardLibrary.groups maxArgs) → LibraryReachable e →
      LibraryReachable (e.defineAll scope groups).2 := by
    intro groups
    induction groups with
    | nil => exact fun _ _ h => h
    | cons group groups ih =>
      intro e scope hgroups h
      rw [List.forall_mem_cons] at hgroups
      have hstep : LibraryReachable (e.accept ((e.defineFunction scope group).map Prod.snd)) :=
        h.step (.defineFunction scope group) hgroups.1
      rw [Engine.defineAll]
      cases hd : e.defineFunction scope group with
      | error _ => exact h
      | ok p =>
        rw [hd] at hstep
        exact ih scope hgroups.2 hstep
  exact hall e.root (fun group hg => ⟨_, hg⟩) h

/-- In a library program all nodes are typed. -/
theorem typed (h : LibraryReachable e) : e.Typed := by
  induction h with
  | new config host => exact typed_new config host
  | @step e op hop hr ih =>
    obtain ⟨created, hr⟩ := hr.reachable
    have hs := hr.sound
    have hmoves := op.moves hs
    cases op with
    | createNode spec parents =>
      exact ih.accept fun _ _ hc => (ih.createNode hs hc (typedIn_of_source hop spec.isData hc)).1
    | createNamed scope name spec parents => exact ih.accept fun _ _ hc => ih.createNamed hs hop spec.isData hc
    | defineFunction scope group => exact ih.accept fun _ _ hc => ih.defineFunction hs hop hc
    | constant v => exact ih.accept fun _ _ hc => ih.constant hs hc
    | call group args => exact (ih.call hs group args).1
    | implicitCast id target => exact ih.accept fun _ _ hc => (ih.implicitCast hs hc).typed
    | explicitCast id target => exact ih.accept fun _ _ hc => (ih.explicitCast hs hc).typed
    | addChild | removeChild | setParents | setCasts => exact hop.elim
    | _ => refine ih.moves hs hmoves ?_ ?_ ?_ <;> simp [Operation.Does, Act.EndsPass]

end LibraryReachable

/-- What the types of a program are good for. -/
structure WellTyped (e : Engine σ) : Prop where
  /-- A node holds values of its type only. -/
  values : ∀ x n v, e.graph.node? x = some n → n.value? = some v → n.dataType? = some v.dataType
  /-- A formula with a pure rule that is not pending holds a value exactly if all its parents do. -/
  progress : ∀ x n t rule, e.graph.node? x = some n → n.kind = .formula t rule → rule.IsPure → x ∉ e.eval.nodes →
    (n.value?.isSome = true ↔ ∀ p ∈ n.parents, e.graph.HasValue p)
  /-- Unless they are refused or give back what they were given, calls of operators build such formulas, -/
  calls : ∀ group args id n g, (e.call group args).1 = .ok id → e.graph.node? group = some n →
    n.kind = .functionGroup g → g.name ∈ StandardLibrary.operators →
    id ∈ args ∨ (e.call group args).2.graph.IsPureFormula id
  /-- all other nodes that calls create, to convert their arguments, are such formulas, -/
  inserted : ∀ group args id x n, (e.call group args).1 = .ok id → (e.call group args).2.graph.node? x = some n →
    (∃ m, e.graph.node? x = some m) ∨ x = id ∨ (e.call group args).2.graph.IsPureFormula x
  /-- and conversions to types of values build such formulas. -/
  conversions : ∀ id target other next, e.implicitCast id target = .ok (other, next) ∨
    e.explicitCast id target = .ok (other, next) → target ≠ .trigger → other = id ∨ next.graph.IsPureFormula other
  /-- As long as they stay, they are such formulas. -/
  kept : ∀ (op : Operation σ) x, e.graph.IsPureFormula x → (∃ n, (op.apply e).graph.node? x = some n) →
    (op.apply e).graph.IsPureFormula x

/-- Every library program is well typed in all its states: nodes hold values of their types, and what an operator or a
conversion is to compute, it computes. -/
theorem LibraryReachable.wellTyped (h : LibraryReachable e) : WellTyped e := by
  have ht := h.typed
  obtain ⟨created, hr⟩ := h.reachable
  have hs := hr.sound
  refine ⟨fun x n v hn => (ht.graph x n hn).value v, fun x n t rule hn hk hpure hx => ⟨?_, fun hparents => ?_⟩,
    fun group args => (ht.call hs group args).2, fun group args id x n hcall hn => ht.inserted hs hcall hn,
    fun id target other next hc htarget => ?_,
    fun op x => isPureFormula_apply hs hr.tidy op⟩
  · exact fun hvalue => (ht.graph x n hn).filled t rule hk hpure hvalue
  · obtain ⟨params, hw, htypes⟩ := (ht.graph x n hn).wired t rule hk
    have hop := hw.isOperator hpure
    obtain ⟨args, hargs⟩ := exists_args? 0 fun p hp => by
      obtain ⟨m, hm, -⟩ := hparents p hp
      exact ⟨m, hm⟩
    have hmiss := not_missing_of_hasValue hargs hparents
    obtain ⟨v, hv, -⟩ := hop.result args n.value? (forall₂_holds (ht.graph.args_fit hargs htypes) hop.values hmiss)
    -- The formula is not pending, so it holds what its rule makes of these arguments.
    rw [hs.upToDate x hx n t rule 0 args v hn hk hpure hargs hmiss hv]
    rfl
  · by_cases hother : other = id
    · exact .inl hother
    · rcases hc with hc | hc
      · exact .inr ((ht.implicitCast hs hc).formula hother htarget)
      · exact .inr ((ht.explicitCast hs hc).formula hother htarget)

/-- The standard library, and the sum of an input and of a truth value, which has to be converted. -/
def convertedSum : Engine Unit :=
  (Engine.new .default ()).run ((StandardLibrary.groups 16).map (.defineFunction ⟨0, 0⟩) ++
    [.createNode (.input .int) [], .createNode (.inputWith (.bool true)) [], .call ⟨1, 0⟩ [⟨15, 0⟩, ⟨16, 0⟩],
      .setInput ⟨15, 0⟩ (.int 4), .runPass])

set_option maxRecDepth 20000 in
/-- The sum holds a value, for the input and the converted truth value do. -/
theorem convertedSum_holds_value :
    ∃ n, convertedSum.graph.node? ⟨18, 0⟩ = some n ∧ n.kind = .formula .int (.arithmetic .add) ∧
      n.parents = [⟨15, 0⟩, ⟨17, 0⟩] ∧ n.value?.isSome = true := by
  have h : LibraryReachable convertedSum := by
    refine (LibraryReachable.new .default ()).run _ fun op hop => ?_
    rcases List.mem_append.1 hop with hop | hop
    · obtain ⟨group, hgroup, rfl⟩ := List.mem_map.1 hop
      exact ⟨16, hgroup⟩
    · simp only [List.mem_cons, List.not_mem_nil, or_false] at hop
      rcases hop with rfl | rfl | rfl | rfl | rfl <;> trivial
  have hpure : (ValueRule.arithmetic .add).IsPure :=
    (ValueRule.arithmetic_isOperator .add (.inl rfl) Nat.one_pos).pure
  refine ⟨_, rfl, rfl, rfl,
    (h.wellTyped.progress ⟨18, 0⟩ _ .int (.arithmetic .add) rfl rfl hpure (by decide +kernel)).2 fun p hp => ?_⟩
  rcases List.mem_cons.1 hp with rfl | hp
  · exact ⟨_, rfl, rfl⟩
  · obtain rfl := List.mem_singleton.1 hp
    exact ⟨_, rfl, rfl⟩

end Dataflow
