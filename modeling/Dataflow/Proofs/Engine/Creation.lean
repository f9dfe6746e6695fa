import Dataflow.Proofs.Engine.Changes
import Dataflow.Proofs.Engine.Reachable
import Dataflow.Proofs.Graph.Placement

/-!
# What operations keep

Besides moves that leave alone which nodes there are and where they are found (`Act.IsPlain`), operations only create
nodes, place them in scopes, create scopes, and remove nodes.  A property that each of these keeps (`Engine.Kept`) is
kept by every operation (`Kept.apply`), and so it holds of every engine that a host can bring about (`Reachable.kept`)
if it holds of a new one.

* `Move.same_identity`: plain moves leave every node what it is, where it is found;
* `Reachable.sane`: constants hold a value, and triggers hold none.
-/

namespace Dataflow

open Dataflow.Graph

variable {σ : Type} {created : Nat} {e e' : Engine σ}

/-- A node without its links: its kind, its value, its name and its scope. -/
def Node.standing (n : Node) : Node := { n.identity with value? := n.value? }

/-- A specification of a node other than a scope; a constant has a value. -/
structure NodeSpec.IsProper (spec : NodeSpec) : Prop where
  not_scope : ∀ members, spec.kind ≠ .scope members
  isSome_initial : spec.kind = .constant → spec.initial?.isSome = true

private theorem HostSpec.isProper (spec : HostSpec) : spec.toNodeSpec.IsProper := by
  refine ⟨fun members hk => ?_, spec.isSome_initial⟩
  have hdata := spec.isData
  rw [hk] at hdata
  cases hdata

private theorem NodeSpec.isProper_ofBehavior (t : DataType) (behavior : Behavior) :
    (ofBehavior t behavior).IsProper := by
  cases behavior <;> exact ⟨fun _ hk => NodeKind.noConfusion hk, fun hk => NodeKind.noConfusion hk⟩

namespace Engine

/-- The act neither creates, names nor removes a node. -/
def Act.IsPlain (a : Act) : Prop := a ≠ .create ∧ a ≠ .addScope ∧ a ≠ .rename ∧ a ≠ .remove

/-- What engines keep when nodes are created, placed and removed, and in all plain moves. -/
structure Kept (P : Engine σ → Prop) : Prop where
  createNode : ∀ {created : Nat} {e e' : Engine σ} {spec : NodeSpec} {parents : List NodeId} {id : NodeId},
    e.schedule.Sound created → P e → spec.IsProper → e.createNode spec parents = .ok (id, e') → P e'
  createScope : ∀ {created : Nat} {e e' : Engine σ} {scope id : NodeId} {name : String},
    e.schedule.Sound created → P e → e.createScope scope name = .ok (id, e') → P e'
  setScope : ∀ {created : Nat} {e e' : Engine σ} {id scope : NodeId} {name : String},
    e.schedule.Sound created → P e → e.setScope id scope name = .ok e' → P e'
  removeNode : ∀ {created : Nat} {e e' : Engine σ} {id : NodeId},
    e.schedule.Sound created → P e → e.removeNode id = .ok e' → P e'
  plain : ∀ {created i : Nat} {e e' : Engine σ},
    e.schedule.Sound created → P e → Move Act.IsPlain e i e' → P e'

theorem functionGroup_eq_ok_iff {id : NodeId} {g : FunctionGroup} :
    e.functionGroup id = .ok g ↔ ∃ n, e.graph.node? id = some n ∧ n.kind = .functionGroup g := by
  unfold functionGroup
  rw [bind_eq_ok]
  simp only [node_eq_ok_iff, Engine.node]
  refine exists_congr fun n => and_congr_right fun _ => ?_
  cases n.kind <;> simp

/-- A function group is stored in a node that is created for it. -/
theorem defineFunction_eq_ok {scope id : NodeId} {group : FunctionGroup} (hs : e.graph.store.Sound)
    (hd : e.defineFunction scope group = .ok (id, e')) :
    e.createNamed scope group.name ⟨.functionGroup group, none⟩ [] = .ok (id, e') := by
  unfold Engine.defineFunction at hd
  simp only [bind_eq_ok, pure_eq_ok, Prod.mk.injEq] at hd
  obtain ⟨_, hcheck, ⟨id', g⟩, hadd, g', hset, rfl, rfl⟩ := hd
  obtain ⟨d, -, hadded, -⟩ := addNode_eq_ok hs hadd
  have hfirst : computeFirst g id' = g := computeFirst_of_kind hadded.self fun _ _ hk => NodeKind.noConfusion hk
  have hcreate : e.createNode ⟨.functionGroup group, none⟩ [] = .ok (id', { e with graph := g }) := by
    simp only [Engine.createNode, checkInitial, NodeKind.declaredType?, NodeKind.isTrigger, NodeKind.isData,
      Bool.not_false, Bool.or_true, if_true, hadd, bind, Except.bind, pure, Except.pure, hfirst]
  unfold Engine.createNamed
  rw [hcheck, hcreate]
  simp only [bind, Except.bind, hset, pure, Except.pure]

namespace Kept

variable {P : Engine σ → Prop}

/-- The engine has the property, and a sound schedule. -/
private def Firm (P : Engine σ → Prop) (e : Engine σ) : Prop := (∃ created, e.schedule.Sound created) ∧ P e

private theorem firm_createNode (h : Kept P) (he : Firm P e) {spec : NodeSpec} {parents : List NodeId} {id : NodeId}
    (hspec : spec.IsProper) (hc : e.createNode spec parents = .ok (id, e')) : Firm P e' := by
  obtain ⟨⟨created, hs⟩, hP⟩ := he
  have hmove : Move (fun _ => True) e 1 e' := createNode_move trivial hc
  exact ⟨⟨_, hs.steps hmove.steps⟩, h.createNode hs hP hspec hc⟩

private theorem firm_moves (h : Kept P) (he : Firm P e) {i : Nat} (hm : Moves Act.IsPlain e i e') :
    Firm P e' := by
  obtain ⟨⟨created, hs⟩, hP⟩ := he
  have hkept := hm.induction (I := fun created e => e.schedule.Sound created ∧ P e) ⟨hs, hP⟩ fun hI hmove =>
    ⟨hI.1.steps hmove.steps, h.plain hI.1 hI.2 hmove⟩
  exact ⟨⟨_, hkept.1⟩, hkept.2⟩

private theorem firm_removeNode (h : Kept P) (he : Firm P e) {id : NodeId} (hr : e.removeNode id = .ok e') :
    Firm P e' := by
  obtain ⟨⟨created, hs⟩, hP⟩ := he
  have hmove : Move (fun _ => True) e 0 e' := removeNode_move trivial hr
  exact ⟨⟨_, hs.steps hmove.steps⟩, h.removeNode hs hP hr⟩

private theorem firm_castBy (h : Kept P) (he : Firm P e) {id other : NodeId} {target : DataType}
    {rule? : DataType → Option CastRule} (hc : e.castBy id target rule? = .ok (other, e')) : Firm P e' := by
  obtain ⟨-, -, -, -, ⟨-, -, rfl⟩ | ⟨rule, -, -, -, hcreate⟩⟩ := castBy_eq_ok hc
  · exact he
  · exact h.firm_createNode he (NodeSpec.isProper_ofBehavior _ _) hcreate

private theorem firm_add (h : Kept P) {w : Wiring σ} (hw : Firm P w.engine) (arg : NodeId × DataType) :
    Firm P (w.add arg).engine := by
  unfold Wiring.add
  split
  · exact hw
  · split
    · exact hw
    · next hcast => exact h.firm_castBy hw hcast

private theorem firm_wire (h : Kept P) (he : Firm P e) (d : FunctionDef) (args : List NodeId) :
    Firm P (e.wire d args).engine := by
  unfold wire
  simp only
  generalize args.zip ((List.range args.length).filterMap d.paramType?) = l
  induction l using List.reverseRecOn with
  | nil => exact he
  | append_singleton l arg ih =>
    rw [List.foldl_append]
    exact h.firm_add ih arg

private theorem firm_removeAll (h : Kept P) (he : Firm P e) (ids : List NodeId) : Firm P (e.removeAll ids) := by
  unfold removeAll
  induction ids using List.reverseRecOn with
  | nil => exact he
  | append_singleton ids id ih =>
    rw [List.foldl_append, List.foldl_cons, List.foldl_nil]
    split
    · next hremove => exact h.firm_removeNode ih hremove
    · exact ih

private theorem firm_call (h : Kept P) (he : Firm P e) (group : NodeId) (args : List NodeId) :
    Firm P (e.call group args).2 := by
  have hbuild : ∀ d : FunctionDef, Firm P (e.build d args).2 := by
    intro d
    unfold build
    simp only
    split
    · next hc =>
      obtain ⟨wired, -, hnode⟩ := bind_eq_ok.1 hc
      exact h.firm_createNode (h.firm_wire he d args) (NodeSpec.isProper_ofBehavior _ _) hnode
    · exact h.firm_removeAll (h.firm_wire he d args) _
  unfold call
  cases e.resolveCall group args with
  | error _ => exact he
  | ok r =>
    obtain ⟨d, index, distance, passthrough⟩ := r
    cases passthrough <;> cases args
    · exact hbuild d
    · exact hbuild d
    · exact hbuild d
    · exact he

private theorem firm_createNamed (h : Kept P) (he : Firm P e) {scope id : NodeId} {name : String} {spec : NodeSpec}
    {parents : List NodeId} (hspec : spec.IsProper) (hc : e.createNamed scope name spec parents = .ok (id, e')) :
    P e' := by
  unfold Engine.createNamed at hc
  simp only [bind_eq_ok, pure_eq_ok, Prod.mk.injEq] at hc
  obtain ⟨_, -, ⟨id', made⟩, hcreate, g, hset, rfl, rfl⟩ := hc
  obtain ⟨⟨created, hs⟩, hP⟩ := h.firm_createNode he hspec hcreate
  have hplaced : made.setScope id' scope name = .ok { made with graph := g } := by
    unfold Engine.setScope
    rw [hset]
    rfl
  exact h.setScope hs hP hplaced

private theorem accept_cases {α : Type} {r : Except GraphError (α × Engine σ)} (he : P e)
    (h : ∀ a next, r = .ok (a, next) → P next) : P (e.accept (r.map Prod.snd)) := by
  cases r with
  | error _ => exact he
  | ok p => exact h p.1 p.2 rfl

/-- Every operation keeps what creating, placing and removing nodes and plain moves keep. -/
theorem apply (h : Kept P) (hs : e.schedule.Sound created) (hP : P e) (op : Operation σ) : P (op.apply e) := by
  have he : Firm P e := ⟨⟨created, hs⟩, hP⟩
  have hplain : (∀ a, op.Does e a → a.IsPlain) → P (op.apply e) := fun ha =>
    (h.firm_moves he ((op.moves hs).mono ha)).2
  cases op with
  | createNode spec parents =>
    exact accept_cases hP fun _ _ hc => h.createNode hs hP spec.isProper hc
  | createNamed scope name spec parents =>
    exact accept_cases hP fun _ _ hc => h.firm_createNamed he spec.isProper hc
  | createScope scope name => exact accept_cases hP fun _ _ hc => h.createScope hs hP hc
  | defineFunction scope group =>
    refine accept_cases hP fun _ _ hd => h.firm_createNamed he ?_ (defineFunction_eq_ok hs.graph.store hd)
    exact ⟨fun _ hk => NodeKind.noConfusion hk, fun hk => NodeKind.noConfusion hk⟩
  | constant v =>
    refine accept_cases hP fun id next hc => ?_
    unfold Engine.constant at hc
    split at hc
    · cases hc
      exact hP
    · simp only [bind_eq_ok] at hc
      obtain ⟨⟨id', made⟩, hcreate, hc⟩ := hc
      have hmade := h.firm_createNode he (HostSpec.constant v).isProper hcreate
      split at hc <;> cases hc
      · obtain ⟨n, hn, hk, hv, -⟩ := createConstant hs.graph.store hcreate
        exact (h.firm_moves hmade (Move.share (by simp [Act.IsPlain]) hn hk hv).moves).2
      · exact hmade.2
  | intern id =>
    refine accept_cases hP fun other next hi => ?_
    obtain ⟨n, hn, hk, ⟨-, rfl⟩ | ⟨-, -, -, -, hr⟩ | ⟨v, hv, -, -, rfl⟩⟩ := intern_eq_ok hi
    · exact hP
    · exact h.removeNode hs hP hr
    · exact (h.firm_moves he (Move.share (by simp [Act.IsPlain]) hn hk hv).moves).2
  | call group args => exact (h.firm_call he group args).2
  | implicitCast id target => exact accept_cases hP fun _ _ hc => (h.firm_castBy he hc).2
  | explicitCast id target => exact accept_cases hP fun _ _ hc => (h.firm_castBy he hc).2
  | removeNode id =>
    show P (e.accept (e.removeNode id))
    cases hr : e.removeNode id with
    | error _ => exact hP
    | ok next => exact h.removeNode hs hP hr
  | setScope id scope name =>
    show P (e.accept (e.setScope id scope name))
    cases hr : e.setScope id scope name with
    | error _ => exact hP
    | ok next => exact h.setScope hs hP hr
  | _ =>
    refine hplain fun a ha => ⟨?_, ?_, ?_, ?_⟩ <;> rintro rfl <;> simp [Operation.Does, Act.EndsPass] at ha

end Kept

end Engine

/-- What engines keep in all operations holds of every engine that a host can bring about, if it holds of a new one. -/
theorem Reachable.kept {P : Engine σ → Prop} (h : Engine.Kept P) (hnew : ∀ config host, P (.new config host))
    (hr : Reachable created e) : P e := by
  induction hr with
  | new config host => exact hnew config host
  | step op hr ih => exact h.apply hr.sound ih op

/-! ### Plain moves -/

namespace Graph

variable {g g' last : Graph} {pass : Nat} {pending : PendingSet} {visits : List Visit}

/-- Relinking a node changes neither where nodes are placed nor what values they hold. -/
theorem Relinked.same_standing {id : NodeId} {n : Node} {parents : List NodeId} (h : g.Relinked id n parents g') :
    SameUpTo Node.standing g g' := by
  intro x
  cases hm : g.node? x with
  | none => rw [h.of_none hm]
  | some m =>
    obtain ⟨cs, hcs, -⟩ := h.of_some hm
    rw [hcs]
    rfl

/-- A node stays as it is in an evaluation, or settles with an outcome that its rule gives. -/
theorem Propagates.last_cases (h : Propagates pass g pending visits last) (hg : g.Ready) (hk : g.Keyed pending)
    (x : NodeId) : last.node? x = g.node? x ∨
      ∃ n args, g.node? x = some n ∧ last.node? x = some (n.settled pass (n.outcome args)) := by
  by_cases hx : ∃ v ∈ visits, v.entry.node = x
  · obtain ⟨v, hv, rfl⟩ := hx
    obtain ⟨n, hn, ho, hlast, -⟩ := h.visited hg hk v hv
    exact .inr ⟨n, v.args, hn, ho ▸ hlast⟩
  · exact .inl (h.node?_of_not_visited hg hk fun v hv hvx => hx ⟨v, hv, hvx⟩)

end Graph

namespace Engine

/-- In a plain move a node keeps all but its links, or it settles with an outcome that its rule gives. -/
theorem Move.plain_cases {i : Nat} (hm : Move Act.IsPlain e i e') (hs : e.schedule.Sound created) (x : NodeId) :
    (e'.graph.node? x).map Node.standing = (e.graph.node? x).map Node.standing ∨
      ∃ n pass args, e.graph.node? x = some n ∧ e'.graph.node? x = some (n.settled pass (n.outcome args)) := by
  have hlinked := hs.graph.linked
  cases hm with
  | create ha => exact absurd rfl ha.1
  | addScope ha => exact absurd rfl ha.2.1
  | rename ha => exact absurd rfl ha.2.2.1
  | remove ha => exact absurd rfl ha.2.2.2
  | addChild _ ha =>
    rcases addChild_eq_ok hlinked ha with ⟨hf, -⟩ | ⟨-, n, hr, -⟩
    · cases hf
    · exact .inl (hr.same_standing x)
  | removeChild _ ha =>
    rcases removeChild_eq_ok hlinked ha with ⟨hf, -⟩ | ⟨-, n, hr, -⟩
    · cases hf
    · exact .inl (hr.same_standing x)
  | setParents _ ha =>
    obtain ⟨n, hr, -⟩ := setParents_eq_ok hlinked ha
    exact .inl (hr.same_standing x)
  | write _ hw =>
    cases hw with
    | input | withdraw | provoke | fold => exact .inl (SameUpTo.modify (fun _ => by rfl) e.graph _ x)
  | unregister id =>
    unfold removeObserver
    split <;> exact .inl rfl
  | settle =>
    have hsame : SameUpTo Node.standing e.graph e.graph.settleDepths.2 :=
      hs.graph.same_settleDepths.weaken fun n m he => (congrArg Node.standing he : n.flat.standing = m.flat.standing)
    unfold drainUpdate
    split
    · exact .inl rfl
    · exact .inl (hsame x)
  | evaluate _ hu =>
    obtain ⟨visits, last, hready, hrun, heq⟩ := evaluating_eq hs hu
    rw [heq]
    rcases hrun.last_cases hready hs.keyed x with hx | ⟨n, args, hn, hx⟩
    · exact .inl (congrArg _ hx)
    · exact .inr ⟨n, _, args, hn, hx⟩
  | reset id => exact .inl (SameUpTo.modify (fun _ => by rfl) e.graph id x)
  | share | register | takeTasks | recast | adjust => exact .inl rfl

/-- In a plain move every node stays what it is, where it is found. -/
theorem Move.same_identity {i : Nat} (hm : Move Act.IsPlain e i e') (hs : e.schedule.Sound created) :
    SameUpTo Node.identity e.graph e'.graph := by
  intro x
  have hidentity : ∀ r : Option Node, (r.map Node.standing).map Node.identity = r.map Node.identity := fun r => by
    rw [Option.map_map]
    rfl
  rcases hm.plain_cases hs x with hx | ⟨n, pass, args, hn, hx⟩
  · rw [← hidentity, hx, hidentity]
  · rw [hn, hx, Option.map_some, Option.map_some]
    cases n.outcome args <;> rfl

theorem Move.root {allowed : Act → Prop} {i : Nat} (hm : Move allowed e i e') : e'.root = e.root := by
  cases hm with
  | write _ hw => cases hw <;> rfl
  | unregister id =>
    unfold removeObserver
    split <;> rfl
  | settle =>
    unfold drainUpdate
    split <;> rfl
  | _ => rfl

end Engine

/-! ### Constants and triggers -/

namespace Node

/-- A constant holds a value, and a trigger holds none. -/
structure Sane (n : Node) : Prop where
  isSome_constant : n.kind = .constant → n.value?.isSome = true
  trigger : n.kind.isTrigger = true → n.value? = none

theorem Sane.congr {n m : Node} (h : n.Sane) (hk : m.kind.emptied = n.kind.emptied) (hv : m.value? = n.value?) :
    m.Sane := by
  refine ⟨fun hc => ?_, fun ht => ?_⟩
  · rw [hc] at hk
    rw [hv]
    refine h.isSome_constant ?_
    cases hn : n.kind <;> rw [hn] at hk <;> first | rfl | cases hk
  · rw [hv]
    exact h.trigger (by rw [← NodeKind.isTrigger_emptied, ← hk, NodeKind.isTrigger_emptied, ht])

private theorem Sane.of_anonymous {n m : Node} (h : n.Sane) (he : m.anonymous = n.anonymous) : m.Sane :=
  h.congr (congrArg Node.kind he) (congrArg Node.value? he : m.anonymous.value? = n.anonymous.value?)

/-- Evaluation leaves a node sane: a constant keeps some value, and a trigger gets none. -/
theorem Sane.settled {n : Node} (h : n.Sane) (pass : Nat) (args : List Arg) :
    (n.settled pass (n.outcome args)).Sane := by
  cases ho : n.outcome args with
  | value v =>
    refine ⟨fun _ => rfl, fun ht => ?_⟩
    change n.kind.isTrigger = true at ht
    obtain ⟨-, ⟨t, rule, hk, -⟩ | ⟨⟨t, hk⟩ | hk, -⟩⟩ := outcome_eq_value ho <;> rw [hk] at ht <;> cases ht
  | fire | unchanged | skip => exact ⟨h.isSome_constant, h.trigger⟩

end Node

namespace Engine

/-- A new node is left as it is when it is first computed, or it settles with an outcome that its rule gives. -/
theorem node?_computeFirst (g : Graph) (id x : NodeId) : (computeFirst g id).node? x = g.node? x ∨
    ∃ n args, g.node? x = some n ∧ (computeFirst g id).node? x = some (n.settled 0 (n.outcome args)) := by
  unfold computeFirst
  split
  · exact .inl rfl
  next n hn =>
  split
  · next t rule v hk ho =>
    obtain ⟨args, -, ho⟩ := Option.map_eq_some_iff.1 ho
    by_cases hx : x = id
    · subst hx
      refine .inr ⟨n, args, hn, ?_⟩
      rw [node?_modify, if_pos rfl, hn, Option.map_some, ho]
    · rw [node?_modify, if_neg hx]
      exact .inl rfl
  · exact .inl rfl

/-- That constants hold values and triggers hold none is kept by all that an operation may do. -/
theorem kept_sane : Kept fun e : Engine σ => ∀ x n, e.graph.node? x = some n → n.Sane := by
  have hrenamed : ∀ {g g' : Graph}, (∀ x n, g.node? x = some n → n.Sane) → g.Renamed g' →
      ∀ x n, g'.node? x = some n → n.Sane := by
    intro g g' hall hr x n hn
    obtain ⟨m, hm, he⟩ := hr.same.symm.exists_of_some hn
    exact (hall x m hm).of_anonymous he.symm
  have hadded : ∀ {g g' : Graph} {n : Node} {id : NodeId}, (∀ x n, g.node? x = some n → n.Sane) → n.Sane →
      g.Added n id g' → ∀ x m, g'.node? x = some m → m.Sane := by
    intro g g' n id hall hn ha x m hm
    rcases ha.some_cases hm with ⟨-, rfl⟩ | ⟨m₀, hm₀, rfl⟩
    · exact hn
    · split
      · exact (hall x m₀ hm₀).congr (by rw [Node.kind_addChild]) (by unfold Node.addChild; split <;> rfl)
      · exact hall x m₀ hm₀
  refine ⟨fun {_ e e' spec parents id} hs hall hspec hc => ?_, fun {_ e e' scope id name} hs hall hc => ?_,
    fun _ hall hset => ?_, fun hs hall hremove => ?_, fun hs hall hm x n' hn' => ?_⟩
  · obtain ⟨g, hadd, rfl⟩ := createNode_eq_ok hc
    obtain ⟨d, -, ha, -⟩ := addNode_eq_ok hs.graph.store hadd
    have hg := hadded hall ⟨fun hk => ?_, fun ht => ?_⟩ ha
    · intro x n' hn'
      rcases node?_computeFirst g id x with hx | ⟨n, args, hn, hx⟩
      · exact hg x n' (hx ▸ hn')
      · rw [hx, Option.some.injEq] at hn'
        exact hn' ▸ (hg x n hn).settled 0 args
    · change spec.kind = .constant at hk
      change (if spec.kind.isTrigger || !spec.kind.isData then none else spec.initial?).isSome = true
      simpa [hk, NodeKind.isTrigger, NodeKind.isData] using hspec.isSome_initial hk
    · change spec.kind.isTrigger = true at ht
      exact if_pos (by rw [ht, Bool.true_or])
  · unfold Engine.createScope at hc
    simp only [bind_eq_ok, pure_eq_ok, Prod.mk.injEq] at hc
    obtain ⟨_, -, g, hset, rfl, rfl⟩ := hc
    exact hrenamed (hadded hall ⟨fun hk => NodeKind.noConfusion hk, fun ht => Bool.noConfusion ht⟩
      (addScope_added hs.graph.store)) (setScope_eq_ok hset)
  · obtain ⟨g, hplace, rfl⟩ := exists_of_setScope hset
    exact hrenamed hall (setScope_eq_ok hplace)
  · obtain ⟨-, removed, g, hr, rfl⟩ := removeNode_eq_ok hremove
    obtain ⟨n, hremoved, -⟩ := Graph.removeNode_eq_ok hs.graph.store hr
    intro x m hm
    obtain ⟨-, m₀, hm₀, he⟩ := hremoved.some_cases hm
    refine ((hall x m₀ hm₀).congr ?_ ?_ : Node.Sane (if x ∈ n.parents then m₀.removeChild _ else m₀)).of_anonymous he
    · split <;> rfl
    · split <;> rfl
  · rcases hm.plain_cases hs x with hx | ⟨n, pass, args, hn, hx⟩
    · rw [hn', Option.map_some, eq_comm, Option.map_eq_some_iff] at hx
      obtain ⟨n, hn, he⟩ := hx
      have hk : n'.kind = n.kind := (congrArg Node.kind he.symm : n'.standing.kind = n.standing.kind)
      exact (hall x n hn).congr (congrArg NodeKind.emptied hk)
        (congrArg Node.value? he.symm : n'.standing.value? = n.standing.value?)
    · rw [hx, Option.some.injEq] at hn'
      exact hn' ▸ (hall x n hn).settled pass args

end Engine

/-- In every engine that a host can bring about constants hold a value, and triggers hold none. -/
theorem Reachable.sane (h : Reachable created e) {x : NodeId} {n : Node} (hn : e.graph.node? x = some n) :
    n.Sane := by
  refine h.kept Engine.kept_sane (fun config host => ?_) x n hn
  intro x n hn
  obtain ⟨-, rfl⟩ := node?_addScope_empty hn
  exact ⟨fun hk => NodeKind.noConfusion hk, fun ht => Bool.noConfusion ht⟩

end Dataflow
