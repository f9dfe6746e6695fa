import Dataflow.Proofs.Engine.Calls

/-!
# Declared types

Which definition a call picks, and what it converts, goes by the declared types of nodes; what an evaluation makes of a
node goes by its kind.  The two belong together if no input or formula is declared to be a trigger, and if, of the
conversions that can be made, those to triggers and no others make triggers (`IsGenuine`).

* `Move.kind_cases`: what is not created now, is of the kind that it was;
* `Genuine.move`, `Genuine.createNode`, `Genuine.castBy`, `Genuine.call`: all that operations do leaves types genuine,
  as long as what they are given is;
* `Engine.run_agrees`: then types and kinds agree, and conversions and calls keep to the types that were asked for.
-/

namespace Dataflow

open Dataflow.Graph

variable {σ : Type} {created : Nat} {e e' : Engine σ}

/-! ### Genuine declarations -/

/-- What a call of the definition builds is declared to be a trigger only if it is one. -/
def FunctionDef.IsGenuine (d : FunctionDef) : Prop := ∀ rule, d.behavior = .value rule → d.result ≠ .trigger

/-- The conversions to triggers, and no others, make triggers.  What is registered from a type to itself or from
triggers does not matter: no such conversion is made. -/
def CastRegistry.IsGenuine (casts : CastRegistry) : Prop :=
  ∀ s t rule, s ≠ t → s ≠ .trigger → casts.rule? s t = some rule → (rule.conversion = .onChange ↔ t = .trigger)

/-- Registering one more conversion leaves a registry genuine if the conversion is, or is never made. -/
theorem CastRegistry.IsGenuine.register {casts : CastRegistry} (h : casts.IsGenuine) (s t : DataType) {rule : CastRule}
    (hrule : s ≠ t → s ≠ .trigger → (rule.conversion = .onChange ↔ t = .trigger)) :
    (casts.register s t rule).IsGenuine := by
  intro s' t' other hne htrigger hother
  rw [rule?_register] at hother
  split at hother
  · next hsame =>
    cases hother
    obtain ⟨rfl, rfl⟩ := hsame
    exact hrule hne htrigger
  · exact h s' t' other hne htrigger hother

/-- The usual conversions are genuine. -/
theorem CastRegistry.isGenuine_standard : standard.IsGenuine := by
  have hempty : empty.IsGenuine := fun s t rule _ _ h => by cases s <;> cases t <;> cases h
  refine List.foldlRecOn _ _ hempty fun casts h entry hentry => h.register _ _ fun _ _ => ?_
  revert entry
  simp

namespace NodeKind

/-- The node is declared to be a trigger only if it is one, and so are those that calls of it build. -/
def IsGenuine : NodeKind → Prop
  | input t | formula t _ => t ≠ .trigger
  | functionGroup group => ∀ d ∈ group.defs, d.IsGenuine
  | constant | triggerInput | trigger _ | scope _ => True

private theorem isGenuine_emptied (k : NodeKind) :
    k.emptied.IsGenuine ↔ k.IsGenuine := by cases k <;> exact Iff.rfl

private theorem isGenuine_of_emptied {k k' : NodeKind} (h : k.IsGenuine) (he : k'.emptied = k.emptied) :
    k'.IsGenuine := by
  rw [← isGenuine_emptied, he, isGenuine_emptied]
  exact h

end NodeKind

/-- Types and kinds tell alike which nodes are triggers. -/
theorem Node.dataType?_eq_trigger_iff {n : Node} (h : n.kind.IsGenuine) :
    n.dataType? = some .trigger ↔ n.kind.isTrigger = true := by
  unfold Node.dataType?
  cases hk : n.kind with
  | input t | formula t _ =>
    rw [hk] at h
    exact ⟨fun ht => absurd (Option.some.inj ht) h, fun ht => by cases ht⟩
  | constant =>
    refine ⟨fun ht => ?_, fun ht => by cases ht⟩
    obtain ⟨v, -, hv⟩ := Option.map_eq_some_iff.1 ht
    exact absurd hv v.dataType_ne_trigger
  | triggerInput | trigger _ => exact ⟨fun _ => rfl, fun _ => rfl⟩
  | scope _ | functionGroup _ => exact ⟨nofun, nofun⟩

/-- A call of a genuine definition builds a node of a genuine kind. -/
theorem FunctionDef.IsGenuine.nodeSpec {d : FunctionDef} (h : d.IsGenuine) : d.nodeSpec.kind.IsGenuine := by
  unfold FunctionDef.nodeSpec NodeSpec.ofBehavior
  cases hb : d.behavior with
  | value rule => exact h rule hb
  | trigger rule => trivial

namespace CastRegistry.IsGenuine

variable {casts : CastRegistry} {s t : DataType} {rule : CastRule}

/-- The node of a conversion that can be made is declared to be a trigger only if it is one. -/
theorem nodeSpec (h : casts.IsGenuine) (hne : s ≠ t) (htrigger : s ≠ .trigger) (hrule : casts.rule? s t = some rule) :
    (rule.nodeSpec t).kind.IsGenuine := by
  have hiff := h s t rule hne htrigger hrule
  unfold CastRule.nodeSpec NodeSpec.ofBehavior Conversion.behavior
  cases hc : rule.conversion with
  | map name f => exact fun ht => by cases hc.symm.trans (hiff.2 ht)
  | onChange => trivial

/-- The node of a conversion that can be made is of its target type. -/
theorem dataType? (h : casts.IsGenuine) (hne : s ≠ t) (htrigger : s ≠ .trigger) (hrule : casts.rule? s t = some rule)
    {n : Node} (hk : n.kind = (rule.nodeSpec t).kind) : n.dataType? = some t := by
  have hiff := h s t rule hne htrigger hrule
  unfold CastRule.nodeSpec NodeSpec.ofBehavior Conversion.behavior at hk
  cases hc : rule.conversion with
  | map name f =>
    rw [hc] at hk
    rw [Node.dataType?, hk]
    rfl
  | onChange =>
    rw [hc] at hk
    rw [Node.dataType?, hk, hiff.1 hc]
    rfl

end CastRegistry.IsGenuine

namespace Engine

/-- All nodes and conversions are genuine. -/
structure Genuine (e : Engine σ) : Prop where
  nodes : ∀ x n, e.graph.node? x = some n → n.kind.IsGenuine
  casts : e.casts.IsGenuine

/-! ### What is left genuine -/

/-- Unless it is created now, a node is of the kind that it was, up to the members of a scope. -/
theorem Move.kind_cases {allowed : Act → Prop} {i : Nat} (hm : Move allowed e i e') (hs : e.schedule.Sound created)
    (hc : ¬ allowed .create) {x : NodeId} {n' : Node} (hn' : e'.graph.node? x = some n') :
    (∃ n, e.graph.node? x = some n ∧ n'.kind.emptied = n.kind.emptied) ∨ n'.kind = .scope .empty := by
  have hplain : ∀ {i : Nat} {f : Engine σ}, Move Act.IsPlain e i f → f.graph.node? x = some n' →
      ∃ n, e.graph.node? x = some n ∧ n'.kind.emptied = n.kind.emptied := by
    intro i f hf hn'
    obtain ⟨n, hn, he⟩ := (hf.same_identity hs).symm.exists_of_some hn'
    have hk : n.kind = n'.kind := (congrArg Node.kind he : n.identity.kind = n'.identity.kind)
    exact ⟨n, hn, by rw [hk]⟩
  cases hm with
  | create ha => exact absurd ha hc
  | addScope =>
    rcases (addScope_added hs.graph.store).some_cases hn' with ⟨-, rfl⟩ | ⟨m, hm, rfl⟩
    · exact .inr rfl
    · exact .inl ⟨_, hm, rfl⟩
  | rename _ hr =>
    obtain ⟨m, hm, he⟩ := (setScope_eq_ok hr).same.symm.exists_of_some hn'
    exact .inl ⟨m, hm, (congrArg Node.kind he.symm : n'.anonymous.kind = m.anonymous.kind)⟩
  | remove _ _ hr =>
    obtain ⟨n, hremoved, -⟩ := Graph.removeNode_eq_ok hs.graph.store hr
    obtain ⟨-, m, hm, he⟩ := hremoved.some_cases hn'
    refine .inl ⟨m, hm, (congrArg Node.kind he : n'.anonymous.kind = _).trans ?_⟩
    split <;> rfl
  | addChild _ ha => exact .inl (hplain (.addChild ⟨nofun, nofun, nofun, nofun⟩ ha) hn')
  | removeChild _ hr => exact .inl (hplain (.removeChild ⟨nofun, nofun, nofun, nofun⟩ hr) hn')
  | setParents _ hp => exact .inl (hplain (.setParents ⟨nofun, nofun, nofun, nofun⟩ hp) hn')
  | @write _ a _ hw =>
    have ha : a.IsPlain := by cases hw <;> exact ⟨nofun, nofun, nofun, nofun⟩
    exact .inl (hplain (.write ha hw) hn')
  | unregister id => exact .inl (hplain (.unregister e id ⟨nofun, nofun, nofun, nofun⟩) hn')
  | settle => exact .inl (hplain (.settle e ⟨nofun, nofun, nofun, nofun⟩) hn')
  | evaluate _ hu => exact .inl (hplain (.evaluate ⟨nofun, nofun, nofun, nofun⟩ hu) hn')
  | reset id => exact .inl (hplain (.reset e id ⟨nofun, nofun, nofun, nofun⟩) hn')
  | share | register | takeTasks | recast | adjust => exact .inl ⟨n', hn', rfl⟩

/-- Nothing but registering conversions changes the registry. -/
theorem Move.casts {allowed : Act → Prop} {i : Nat} (hm : Move allowed e i e') (hr : ¬ allowed .recast) :
    e'.casts = e.casts := by
  cases hm with
  | recast _ ha => exact absurd ha hr
  | write _ hw => cases hw <;> rfl
  | unregister id =>
    unfold removeObserver
    split <;> rfl
  | settle =>
    unfold drainUpdate
    split <;> rfl
  | _ => rfl

/-- What neither creates nodes nor registers conversions leaves types genuine. -/
theorem Genuine.move {allowed : Act → Prop} {i : Nat} (h : e.Genuine) (hs : e.schedule.Sound created)
    (hm : Move allowed e i e') (hc : ¬ allowed .create) (hr : ¬ allowed .recast) : e'.Genuine := by
  refine ⟨fun x n' hn' => ?_, hm.casts hr ▸ h.casts⟩
  rcases hm.kind_cases hs hc hn' with ⟨n, hn, he⟩ | hk
  · exact NodeKind.isGenuine_of_emptied (h.nodes x n hn) he
  · rw [hk]
    trivial

/-- The types are genuine, and the schedule is sound. -/
private def Firm (e : Engine σ) : Prop := (∃ created, e.schedule.Sound created) ∧ e.Genuine

private theorem Firm.moves {allowed : Act → Prop} {i : Nat} (h : Firm e) (hm : Moves allowed e i e')
    (hc : ¬ allowed .create) (hr : ¬ allowed .recast) : Firm e' := by
  obtain ⟨⟨created, hs⟩, h⟩ := h
  have hkept := hm.induction (I := fun created e => e.schedule.Sound created ∧ e.Genuine) ⟨hs, h⟩
    fun hI hmove => ⟨hI.1.steps hmove.steps, hI.2.move hI.1 hmove hc hr⟩
  exact ⟨⟨_, hkept.1⟩, hkept.2⟩

/-! ### What is created -/

/-- A new node of a genuine kind leaves types genuine. -/
theorem Genuine.createNode (h : e.Genuine) (hs : e.schedule.Sound created) {spec : NodeSpec} {parents : List NodeId}
    {id : NodeId} (hspec : spec.kind.IsGenuine) (hc : e.createNode spec parents = .ok (id, e')) : e'.Genuine := by
  obtain ⟨n, g, rfl, ha, hk, -⟩ := added_of_createNode hs.graph.store hc
  refine ⟨fun x m hm => ?_, h.casts⟩
  rcases ha.some_cases hm with ⟨-, rfl⟩ | ⟨m₀, hm₀, rfl⟩
  · rwa [hk]
  · split
    · rw [Node.kind_addChild]
      exact h.nodes x m₀ hm₀
    · exact h.nodes x m₀ hm₀

private theorem Firm.createNode (h : Firm e) {spec : NodeSpec} {parents : List NodeId} {id : NodeId}
    (hspec : spec.kind.IsGenuine) (hc : e.createNode spec parents = .ok (id, e')) : Firm e' := by
  obtain ⟨⟨created, hs⟩, h⟩ := h
  have hmove : Move (fun _ => True) e 1 e' := createNode_move trivial hc
  exact ⟨⟨_, hs.steps hmove.steps⟩, h.createNode hs hspec hc⟩

/-- A conversion leaves types genuine, and gives a node of the target type. -/
theorem Genuine.castBy (h : e.Genuine) (hs : e.schedule.Sound created) {id other : NodeId} {t : DataType}
    {rule? : DataType → Option CastRule} (hr : ∀ s rule, rule? s = some rule → e.casts.rule? s t = some rule)
    (hc : e.castBy id t rule? = .ok (other, e')) : e'.Genuine ∧ e'.graph.HasType other t := by
  obtain ⟨m, s, hm, htype, ⟨rfl, rfl, rfl⟩ | ⟨rule, hne, htrigger, hrule, hcreate⟩⟩ := castBy_eq_ok hc
  · exact ⟨h, m, hm, htype⟩
  · have hrule' := hr s rule hrule
    obtain ⟨n, g, rfl, ha, hk, -⟩ := added_of_createNode hs.graph.store hcreate
    have hspec := h.casts.nodeSpec hne htrigger hrule'
    exact ⟨h.createNode hs hspec hcreate, n, ha.self, h.casts.dataType? hne htrigger hrule' hk⟩

/-- A conversion without being asked for leaves types genuine, and gives a node of the target type. -/
theorem Genuine.implicitCast (h : e.Genuine) (hs : e.schedule.Sound created) {id other : NodeId} {t : DataType}
    (hc : e.implicitCast id t = .ok (other, e')) : e'.Genuine ∧ e'.graph.HasType other t :=
  h.castBy hs (fun _ _ hr => (Option.filter_eq_some_iff.1 hr).1) hc

theorem Genuine.explicitCast (h : e.Genuine) (hs : e.schedule.Sound created) {id other : NodeId} {t : DataType}
    (hc : e.explicitCast id t = .ok (other, e')) : e'.Genuine ∧ e'.graph.HasType other t :=
  h.castBy hs (fun _ _ hr => hr) hc

private theorem Firm.add {w : Wiring σ} (h : Firm w.engine) (arg : NodeId × DataType) :
    Firm (w.add arg).engine := by
  unfold Wiring.add
  split
  · exact h
  · split
    · exact h
    · next id next hcast =>
      obtain ⟨⟨created, hs⟩, hw⟩ := h
      have hcases : (id = arg.1 ∧ next = w.engine) ∨ id ≠ arg.1 ∧ Move (fun _ => True) w.engine 1 next :=
        castBy_cases hs.graph.store trivial hcast
      refine ⟨?_, (hw.implicitCast hs hcast).1⟩
      rcases hcases with ⟨-, rfl⟩ | ⟨-, hmove⟩
      · exact ⟨created, hs⟩
      · exact ⟨_, hs.steps hmove.steps⟩

private theorem Firm.wire (h : Firm e) (d : FunctionDef) (args : List NodeId) :
    Firm (e.wire d args).engine := by
  unfold Engine.wire
  exact List.foldlRecOn (motive := fun w : Wiring σ => Firm w.engine) _ _ h fun _ hw arg _ => hw.add arg

private theorem Firm.build (h : Firm e) {d : FunctionDef} (hd : d.IsGenuine) (args : List NodeId) :
    Firm (e.build d args).2 := by
  have hwire := h.wire d args
  unfold Engine.build
  simp only
  split
  · next hc =>
    obtain ⟨wired, -, hnode⟩ := bind_eq_ok.1 hc
    exact hwire.createNode hd.nodeSpec hnode
  · have hremove : Moves (.remove = ·) (e.wire d args).engine 0 _ :=
      removeAll_moves (e.wire d args).engine rfl (e.wire d args).made
    exact hwire.moves hremove (by simp) (by simp)

/-- What a call picks is a definition of a group that is stored in a node. -/
private theorem Genuine.resolveCall (h : e.Genuine) {group : NodeId} {args : List NodeId} {r : Resolution}
    (hr : e.resolveCall group args = .ok r) : r.definition.IsGenuine := by
  obtain ⟨g, types, hgroup, -, hresolve⟩ := resolveCall_eq_ok hr
  obtain ⟨n, hn, hk⟩ := functionGroup_eq_ok_iff.1 hgroup
  have hgenuine := h.nodes group n hn
  rw [hk] at hgenuine
  exact hgenuine r.definition (FunctionGroup.resolve?_eq_some hresolve).1

/-- A call leaves types genuine, whether it is refused or not. -/
theorem Genuine.call (h : e.Genuine) (hs : e.schedule.Sound created) (group : NodeId) (args : List NodeId) :
    (e.call group args).2.Genuine := by
  unfold Engine.call
  cases hr : e.resolveCall group args with
  | error _ => exact h
  | ok r =>
    have hbuild : Firm (e.build r.definition args).2 := Firm.build ⟨⟨created, hs⟩, h⟩ (h.resolveCall hr) args
    obtain ⟨d, index, distance, passthrough⟩ := r
    cases passthrough <;> cases args
    · exact hbuild.2
    · exact hbuild.2
    · exact hbuild.2
    · exact h

private theorem Firm.createNamed (h : Firm e) {scope id : NodeId} {name : String} {spec : NodeSpec}
    {parents : List NodeId} (hspec : spec.kind.IsGenuine) (hc : e.createNamed scope name spec parents = .ok (id, e')) :
    e'.Genuine := by
  unfold Engine.createNamed at hc
  simp only [bind_eq_ok, pure_eq_ok, Prod.mk.injEq] at hc
  obtain ⟨_, -, ⟨id', made⟩, hmade, g, hset, rfl, rfl⟩ := hc
  have hrename : Move (.rename = ·) made 0 _ := .rename rfl hset
  exact ((h.createNode hspec hmade).moves hrename.moves (by simp) (by simp)).2

private theorem Firm.defineFunction (h : Firm e) {scope id : NodeId} {group : FunctionGroup}
    (hg : ∀ d ∈ group.defs, d.IsGenuine) (hd : e.defineFunction scope group = .ok (id, e')) : e'.Genuine := by
  obtain ⟨created, hs⟩ := h.1
  have hspec : (NodeSpec.mk (.functionGroup group) none).kind.IsGenuine := hg
  exact h.createNamed hspec (defineFunction_eq_ok hs.graph.store hd)

private theorem Firm.constant (h : Firm e) {v : Value} {id : NodeId} (hc : e.constant v = .ok (id, e')) :
    e'.Genuine := by
  unfold Engine.constant at hc
  split at hc
  · cases hc
    exact h.2
  · simp only [bind_eq_ok] at hc
    obtain ⟨⟨id', made⟩, hmade, hc⟩ := hc
    have hspec : (NodeSpec.constant v).kind.IsGenuine := trivial
    obtain ⟨hnodes, hcasts⟩ := (h.createNode hspec hmade).2
    split at hc <;> cases hc
    · exact ⟨hnodes, hcasts⟩
    · exact ⟨hnodes, hcasts⟩

private theorem Genuine.accept (h : e.Genuine) {α : Type} {r : Except GraphError (α × Engine σ)}
    (hr : ∀ a next, r = .ok (a, next) → next.Genuine) : (e.accept (r.map Prod.snd)).Genuine := by
  cases r with
  | error _ => exact h
  | ok p => exact hr p.1 p.2 rfl

end Engine

open Engine

/-! ### Programs -/

/-- What the operation is given to build nodes of is genuine. -/
def Operation.IsGenuine : Operation σ → Prop
  | createNode spec _ | createNamed _ _ spec _ => spec.kind.IsGenuine
  | defineFunction _ group => ∀ d ∈ group.defs, d.IsGenuine
  | setCasts casts => casts.IsGenuine
  | _ => True

/-- An operation that is given only what is genuine leaves types genuine. -/
theorem Engine.Genuine.apply (h : e.Genuine) (hs : e.schedule.Sound created) {op : Operation σ} (hop : op.IsGenuine) :
    (op.apply e).Genuine := by
  have hfirm : Firm e := ⟨⟨created, hs⟩, h⟩
  have hmoves := op.moves hs
  cases op with
  | createNode spec parents => exact h.accept fun _ _ hc => h.createNode hs hop hc
  | createNamed scope name spec parents => exact h.accept fun _ _ hc => hfirm.createNamed hop hc
  | defineFunction scope group => exact h.accept fun _ _ hc => hfirm.defineFunction hop hc
  | constant v => exact h.accept fun _ _ hc => hfirm.constant hc
  | call group args => exact h.call hs group args
  | implicitCast id target => exact h.accept fun _ _ hc => (h.implicitCast hs hc).1
  | explicitCast id target => exact h.accept fun _ _ hc => (h.explicitCast hs hc).1
  | setCasts casts => exact ⟨h.nodes, hop⟩
  | _ => refine (hfirm.moves hmoves ?_ ?_).2 <;> simp [Operation.Does, Act.EndsPass]

/-- In an engine that is built of genuine declarations, all nodes and conversions are genuine. -/
theorem Engine.genuine_run (config : EngineConfig) (host : σ) {ops : List (Operation σ)}
    (hops : ∀ op ∈ ops, op.IsGenuine) : ((Engine.new config host).run ops).Genuine := by
  induction ops using List.reverseRecOn with
  | nil =>
    refine ⟨fun x n hn => ?_, CastRegistry.isGenuine_standard⟩
    rw [(node?_addScope_empty hn).2]
    trivial
  | append_singleton ops op ih =>
    rw [List.forall_mem_append, List.forall_mem_singleton] at hops
    rw [run_append]
    exact (ih hops.1).apply ((Reachable.new config host).run ops).sound hops.2

/-- Declared types and kinds of nodes agree. -/
structure Engine.Agrees (e : Engine σ) : Prop where
  /-- A conversion that is not refused gives a node of the type that was asked for. -/
  conversions : ∀ id t other next, e.implicitCast id t = .ok (other, next) ∨ e.explicitCast id t = .ok (other, next) →
    next.graph.HasType other t
  /-- A call that is not refused and gives no argument back creates the node of the definition that it picks.  It reads a
  node for each argument, of the very type of the parameter, and this is a trigger if the parameter is. -/
  calls : ∀ group args r x, e.resolveCall group args = .ok r → r.passthrough = false →
    (e.call group args).1 = .ok x → ∃ n, (e.call group args).2.graph.node? x = some n ∧
      n.kind = r.definition.nodeSpec.kind ∧ n.parents.length = args.length ∧
      ∀ i p, n.parents[i]? = some p → ∃ t m, r.definition.paramType? i = some t ∧
        (e.call group args).2.graph.node? p = some m ∧ m.dataType? = some t ∧ (m.kind.isTrigger = true ↔ t = .trigger)
  /-- The nodes of the type of triggers are the triggers. -/
  kinds : ∀ x n, e.graph.node? x = some n → (n.dataType? = some .trigger ↔ n.kind.isTrigger = true)

/-- What a call that converts no trigger reads for an argument is of the type of the parameter. -/
private theorem Engine.Built.hasType (hcasts : e.casts.IsGenuine) {d : FunctionDef} {args : List NodeId}
    {types : List DataType} {id p : NodeId} {wired : List NodeId} (h : e.Built d args types id wired e')
    (ht : List.Forall₂ e.graph.HasType args types) (hnone : ¬ ∃ i ∈ d.mismatched types, types[i]? = some .trigger)
    {i : Nat} (hi : wired[i]? = some p) : ∃ t, d.paramType? i = some t ∧ e'.graph.HasType p t := by
  have hlt : i < args.length := h.length ▸ (List.getElem?_eq_some_iff.1 hi).1
  by_cases hmatch : i ∈ d.mismatched types
  · obtain ⟨a, s, t, rule, c, m, -, hs, hparam, hrule, -, hc, -, hm, hk, -⟩ := h.converted i hmatch
    obtain rfl : c = p := Option.some.inj (hc.symm.trans hi)
    have hne : s ≠ t := by
      rintro rfl
      have hmismatch := (List.mem_filter.1 hmatch).2
      rw [decide_eq_true_eq, hparam, hs] at hmismatch
      exact hmismatch rfl
    have htrigger : s ≠ .trigger := by
      rintro rfl
      exact hnone ⟨i, hmatch, hs⟩
    exact ⟨t, hparam, m, hm, hcasts.dataType? hne htrigger hrule hk⟩
  · have hread := h.asIs i hlt hmatch
    rw [hi] at hread
    have hparam : d.paramType? i = types[i]? := by
      by_contra hne
      exact hmatch (List.mem_filter.2 ⟨List.mem_range.2 (ht.length_eq ▸ hlt), decide_eq_true hne⟩)
    obtain ⟨t, hti, n, hn, hdata⟩ := exists_of_forall₂ ht hread.symm
    obtain ⟨more, hkept⟩ := h.kept p n hn
    exact ⟨t, hparam.trans hti, _, hkept, hdata⟩

/-- Where all nodes and conversions are genuine, types and kinds agree. -/
theorem Engine.Genuine.agrees (h : e.Genuine) (hs : e.schedule.Sound created) : e.Agrees where
  conversions id t other next hc :=
    hc.elim (fun hc => (h.implicitCast hs hc).2) fun hc => (h.explicitCast hs hc).2
  kinds x n hn := Node.dataType?_eq_trigger_iff (h.nodes x n hn)
  calls group args r x hr hpass hcall := by
    obtain ⟨r', hr', ⟨hgiven, -⟩ | ⟨-, types, wired, ht, hbuilt, hnone⟩⟩ := call_ok_cases hs.graph.store hcall
    · cases hr.symm.trans hr'
      cases hpass.symm.trans hgiven
    · cases hr.symm.trans hr'
      have hnext := h.call hs group args
      obtain ⟨n, hn, hk, hparents⟩ := hbuilt.node
      refine ⟨n, hn, hk, by rw [hparents, hbuilt.length], fun i p hp => ?_⟩
      obtain ⟨t, hparam, m, hm, htype⟩ := hbuilt.hasType h.casts ht hnone (hparents ▸ hp)
      refine ⟨t, m, hparam, hm, htype, ?_⟩
      rw [← Node.dataType?_eq_trigger_iff (hnext.nodes p m hm), htype, Option.some.injEq]

/-- In an engine that is built of genuine declarations, types and kinds agree, whatever else happens to it. -/
theorem Engine.run_agrees (config : EngineConfig) (host : σ) {ops : List (Operation σ)}
    (hops : ∀ op ∈ ops, op.IsGenuine) : ((Engine.new config host).run ops).Agrees :=
  (Engine.genuine_run config host hops).agrees ((Reachable.new config host).run ops).sound

/-- An input, a trigger input, and a trigger of both, where integers are turned into triggers without being asked for. -/
def alarm : List (Operation Unit) :=
  [.createNode (.inputWith (.int 3)) [], .createNode .triggerInput [],
    .setCasts (CastRegistry.standard.register .int .trigger ⟨some 1, .onChange⟩),
    .defineFunction ⟨0, 0⟩ ⟨"alarm", [.variadic (.trigger "alarm" [.trigger] .both) 2]⟩]

/-- The call reads a trigger for the integer, and the trigger input itself. -/
theorem alarm_agrees :
    (∀ op ∈ alarm, op.IsGenuine) ∧ ((Engine.new .default ()).run alarm).Agrees ∧
    (((Engine.new .default ()).run alarm).call ⟨3, 0⟩ [⟨1, 0⟩, ⟨2, 0⟩]).1 = .ok ⟨5, 0⟩ := by
  have hops : ∀ op ∈ alarm, op.IsGenuine := by
    simp only [alarm, List.forall_mem_cons]
    refine ⟨DataType.noConfusion, trivial, ?_, ?_, fun _ h => absurd h List.not_mem_nil⟩
    · exact CastRegistry.isGenuine_standard.register _ _ fun _ _ => ⟨fun _ => rfl, fun _ => rfl⟩
    · exact List.forall_mem_singleton.2 fun rule hrule => by cases hrule
  exact ⟨hops, Engine.run_agrees .default () hops, by decide +kernel⟩

/-- An integer, an input that is declared to be a trigger, and a conversion of integers to texts that makes triggers. -/
def mislabeled : Engine Unit :=
  (Engine.new .default ()).run [.createNode (.inputWith (.int 3)) [], .createNode (.input .trigger) [],
    .setCasts (CastRegistry.standard.register .int .text ⟨none, .onChange⟩)]

/-- What should be a text is a trigger, and what should be a trigger is none. -/
theorem mislabeled_disagrees :
    (mislabeled.explicitCast ⟨1, 0⟩ .text).toOption.bind (fun made => (made.2.graph.node? made.1).bind Node.dataType?) =
      some .trigger ∧
    (mislabeled.graph.node? ⟨2, 0⟩).map (fun n => (n.dataType?, n.kind.isTrigger)) = some (some .trigger, false) ∧
    ¬ mislabeled.Agrees := by
  refine ⟨by decide +kernel, by decide +kernel, fun h => ?_⟩
  have hkind := (h.kinds ⟨2, 0⟩ _ rfl).1 rfl
  cases hkind

end Dataflow
