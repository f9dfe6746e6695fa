import Dataflow.Proofs.Engine.Bookkeeping
import Dataflow.Proofs.Engine.InPlace

/-!
# Refused operations leave no trace

However far an operation has come step by step when it is refused, the engine is left as it was, but for the vacant
slots of the store (`Reachable.refused`).  Three things can happen after the first change: a new node cannot be named,
a conversion for a call is refused when others have been made, or the call itself is.  Then the new nodes are removed
again.

* `createNamed_ends`, `createScope_ends`, `defineFunction_ends`: a new node that cannot be named;
* `untouched_call`: a call that is refused.
-/

namespace Dataflow

open Dataflow.Graph

variable {σ α β : Type} {created : Nat} {e e' : Engine σ}

namespace Engine

/-- The engines are the same but for the vacant slots of their stores. -/
structure Untouched (e e' : Engine σ) : Prop where
  /-- The same nodes exist under the same ids, each with all that it holds, and the same depths may be stale. -/
  graph : e.graph.Alike e'.graph
  /-- What is pending for evaluation, conversions, shared constants, observers, queued work, the report and the counters
  are as they were. -/
  rest : e' = { e with graph := e'.graph }

theorem Untouched.refl (e : Engine σ) : e.Untouched e := ⟨.refl _, rfl⟩

/-! ### Taking back a node -/

private theorem memberCount_of_kind {n : Node} (hk : ∀ members, n.kind ≠ .scope members) :
    memberCount n = 0 := by
  unfold memberCount Node.members?
  split
  · next members hs => exact absurd hs (hk members)
  · rfl

/-- A node that has just been created has no name, no children and no members. -/
theorem added_of_createNode {spec : NodeSpec} {parents : List NodeId} {id : NodeId} (hs : e.graph.store.Sound)
    (h : e.createNode spec parents = .ok (id, e')) :
    ∃ n g, e' = { e with graph := g } ∧ e.graph.Added n id g ∧ n.kind = spec.kind ∧ n.parents = parents ∧
      n.name? = none ∧ n.children = [] ∧ ∃ d, g.update = e.graph.update ∨ g.update = e.graph.update.insert id d := by
  obtain ⟨g, hadd, rfl⟩ := createNode_eq_ok h
  obtain ⟨d, -, ha, hu⟩ := addNode_eq_ok hs hadd
  rcases computeFirst_cases g id with heq | ⟨v, heq⟩
  · exact ⟨_, g, by rw [heq], ha, rfl, rfl, rfl, rfl, d, hu⟩
  · exact ⟨_, g.modify id (·.settled 0 (.value v)), by rw [heq], ha.modify rfl rfl, rfl, rfl, rfl, rfl, d, hu⟩

/-- Removing a node that has just been created leaves no trace of it, if it is one that can have parents. -/
theorem removeNode_of_createNode {spec : NodeSpec} {parents : List NodeId} {id : NodeId} {f : Engine σ}
    (h : e.schedule.Sound created) (ht : e.Tidy) (hk : spec.kind.isDerived = true)
    (hc : e.createNode spec parents = .ok (id, e')) (hf : e'.Untouched f) :
    ∃ f', f.removeNode id = .ok f' ∧ e.Untouched f' := by
  obtain ⟨n, g, rfl, ha, hkind, -, hname, hchildren, d, hu⟩ := added_of_createNode h.graph.store hc
  have hdead : ∀ {x : NodeId}, (∃ m, e.graph.node? x = some m) → x ≠ id := by
    rintro x ⟨m, hm⟩
    exact ha.ne hm
  have hderived : n.kind.isDerived = true := hkind ▸ hk
  have hm : memberCount n = 0 := memberCount_of_kind fun members hs => by
    rw [hs] at hderived
    cases hderived
  obtain ⟨f', hr, hsame⟩ := ha.undone h.graph hname hchildren hm hu hf.graph
  have heval : e.eval.remove id = e.eval := PendingSet.remove_of_notMem fun hid =>
    hdead (h.keyed.exists_of_mem hid) rfl
  have hobservers : e.observers.forget id = e.observers := ht.indexed.forget_of_ne fun ho => hdead (ht.observed ho)
  have htasks : e.tasks.filter (·.node ≠ id) = e.tasks :=
    List.filter_eq_self.2 fun task hmem => decide_eq_true (hdead (ht.queued task hmem))
  have hroot : id ≠ e.root := (hdead ht.rooted).symm
  refine ⟨{ e with graph := f' }, ?_, hsame, rfl⟩
  rw [hf.rest]
  unfold removeNode
  rw [if_neg hroot]
  change f.graph.removeNode id >>= _ = _
  rw [hr]
  simp only [bind, Except.bind, pure, Except.pure, heval, hobservers, htasks]
  -- Only a constant is shared, and a constant has no parents.
  split
  · next hs _ =>
    rw [hs] at hderived
    cases hderived
  · rfl

/-! ### New nodes that cannot be named -/

/-- What has been started on an engine ends with what the operation gives, or without a trace if it is refused. -/
def Ends (e : Engine σ) (r : EStateM.Result GraphError (Engine σ) α) : Except GraphError (α × Engine σ) → Prop
  | .ok (a, next) => r = .ok a next
  | .error err => ∃ e', r = .error err e' ∧ e.Untouched e'

open Stepwise

private theorem ends_of_eq {r : EStateM.Result GraphError (Engine σ) α} {x : Except GraphError (α × Engine σ)}
    (h : r = result e x) : Ends e r x := by
  rw [h]
  cases x with
  | error err => exact ⟨e, rfl, .refl e⟩
  | ok y => rfl

/-- Nothing has been changed when a check refuses what follows. -/
theorem ends_read {f : Engine σ → Except GraphError β} {k : β → Stepwise (Engine σ) α}
    {r : β → Except GraphError (α × Engine σ)} (hk : ∀ b, Ends e ((k b).run e) (r b)) :
    Ends e ((read f >>= k).run e) (f e >>= r) := by
  cases hf : f e with
  | error err => exact ⟨e, bind_of_error (read_of_error e hf), .refl e⟩
  | ok b =>
    rw [bind_of_ok (read_of_ok e hf)]
    exact hk b

/-- A new node is named, or taken back. -/
theorem place_ends {g : Graph} {id : NodeId} (hundo : ∃ n g', g.removeNode id = .ok (n, g') ∧ e.graph.Alike g')
    (scope : NodeId) (name : String) :
    Ends e ((InPlace.place id scope name).run { e with graph := g }) (do
      let g' ← g.setScope id scope name
      return (id, { e with graph := g' })) := by
  obtain ⟨n, g', hr, hsame⟩ := hundo
  have hset := Graph.InPlace.setScope_eq g id scope name
  unfold InPlace.place
  cases hs : g.setScope id scope name with
  | error err =>
    rw [hs] at hset
    have hremove := Graph.InPlace.removeNode_eq g id
    rw [hr] at hremove
    refine ⟨{ e with graph := g' }, bind_of_error ?_, hsame, rfl⟩
    rw [tryCatch_of_error (InPlace.onGraph_of_error hset)]
    exact (bind_of_ok (InPlace.onGraph_of_ok hremove)).trans rfl
  | ok named =>
    rw [hs] at hset
    exact bind_of_ok (tryCatch_of_ok (InPlace.onGraph_of_ok hset))

private theorem createNamed_ends (h : e.schedule.Sound created) (scope : NodeId) (name : String) {spec : NodeSpec}
    (hspec : spec.kind.isData = true) (parents : List NodeId) :
    Ends e ((InPlace.createNamed scope name spec parents).run e) (e.createNamed scope name spec parents) := by
  unfold InPlace.createNamed createNamed
  refine ends_read fun _ => ?_
  have hnode := InPlace.createNode_eq h.graph.store spec parents
  cases hn : e.createNode spec parents with
  | error err =>
    rw [hn] at hnode
    exact ⟨e, bind_of_error hnode, .refl e⟩
  | ok r =>
    rw [hn] at hnode
    obtain ⟨id, next⟩ := r
    obtain ⟨n, g, rfl, ha, hkind, -, hname, hchildren, d, hu⟩ := added_of_createNode h.graph.store hn
    have hm : memberCount n = 0 := memberCount_of_kind fun members hs => by
      rw [← hkind, hs] at hspec
      cases hspec
    obtain ⟨g', hr, hsame⟩ := ha.undone h.graph hname hchildren hm hu (.refl g)
    rw [bind_of_ok hnode]
    exact place_ends ⟨n, g', hr, hsame⟩ scope name

private theorem createScope_ends (h : e.schedule.Sound created) (scope : NodeId) (name : String) :
    Ends e ((InPlace.createScope scope name).run e) (e.createScope scope name) := by
  unfold InPlace.createScope createScope
  refine ends_read fun _ => ?_
  have ha : e.graph.Added _ e.graph.addScope.1 e.graph.addScope.2 := addScope_added h.graph.store
  obtain ⟨g', hr, hsame⟩ := ha.undone (d := 0) h.graph rfl rfl rfl (.inl rfl) (.refl _)
  exact place_ends ⟨_, g', hr, hsame⟩ scope name

private theorem defineFunction_ends (h : e.schedule.Sound created) (scope : NodeId) (group : FunctionGroup) :
    Ends e ((InPlace.defineFunction scope group).run e) (e.defineFunction scope group) := by
  unfold InPlace.defineFunction defineFunction
  refine ends_read fun _ => ?_
  have hs : e.graph.store.Sound := h.graph.store
  have hnode := Graph.InPlace.addNode_eq hs (.fresh (.functionGroup group) [] none)
  cases hn : e.graph.addNode (.fresh (.functionGroup group) [] none) with
  | error err =>
    rw [hn] at hnode
    exact ⟨e, bind_of_error (InPlace.onGraph_of_error hnode), .refl e⟩
  | ok r =>
    rw [hn] at hnode
    obtain ⟨id, g⟩ := r
    obtain ⟨d, -, ha, hu⟩ := addNode_eq_ok h.graph.store hn
    obtain ⟨g', hr, hsame⟩ := ha.undone h.graph rfl rfl rfl hu (.refl g)
    rw [bind_of_ok (InPlace.onGraph_of_ok hnode)]
    exact place_ends ⟨_, g', hr, hsame⟩ scope group.name

/-! ### Calls that are refused -/

/-- Removing the conversion nodes made so far leaves no trace of them. -/
structure Revocable (e : Engine σ) (w : Wiring σ) : Prop where
  sound : ∃ created, w.engine.schedule.Sound created
  tidy : w.engine.Tidy
  revoked : ∀ {f}, w.engine.Untouched f → e.Untouched (f.removeAll w.made)

namespace Revocable

/-- As long as no argument has been converted, there is nothing to revoke. -/
theorem start (h : e.schedule.Sound created) (ht : e.Tidy) : Revocable e ⟨e, [], .ok []⟩ :=
  ⟨⟨created, h⟩, ht, fun hf => hf⟩

/-- A conversion node that has been made last can be removed without a trace, and then those made before it. -/
theorem add {w : Wiring σ} (h : Revocable e w) (arg : NodeId × DataType) : Revocable e (w.add arg) := by
  obtain ⟨⟨created, hs⟩, ht, hrevoked⟩ := h
  unfold Wiring.add
  split
  · exact ⟨⟨created, hs⟩, ht, hrevoked⟩
  split
  · exact ⟨⟨created, hs⟩, ht, hrevoked⟩
  next id next hcast =>
  obtain ⟨n, -, hn, -, ⟨-, rfl, rfl⟩ | ⟨rule, -, -, -, hc⟩⟩ := castBy_eq_ok hcast
  · rw [if_pos rfl]
    exact ⟨⟨created, hs⟩, ht, hrevoked⟩
  have hne : id ≠ arg.1 := by
    rintro rfl
    rw [node?_of_createNode hs.graph.store hc] at hn
    cases hn
  have hmove : Move (fun _ => True) w.engine 1 next := createNode_move trivial hc
  rw [if_neg hne]
  refine ⟨⟨created + 1, hs.steps hmove.steps⟩, ht.move hs hmove, fun {f} hf => ?_⟩
  -- The latest node is removed first, from an engine in which it is still the latest.
  have hk : (rule.nodeSpec arg.2).kind.isDerived = true := by
    unfold CastRule.nodeSpec NodeSpec.ofBehavior NodeKind.ofBehavior
    dsimp only
    split <;> rfl
  obtain ⟨f', hr, hf'⟩ := removeNode_of_createNode hs ht hk hc hf
  have hcons : f.removeAll (id :: w.made) = f'.removeAll w.made := by
    unfold removeAll
    rw [List.foldl_cons, hr]
  rw [hcons]
  exact hrevoked hf'

/-- All conversions of a call can be revoked. -/
theorem wire (h : e.schedule.Sound created) (ht : e.Tidy) (d : FunctionDef) (args : List NodeId) :
    Revocable e (e.wire d args) := by
  unfold Engine.wire
  simp only
  generalize args.zip ((List.range args.length).filterMap d.paramType?) = l
  induction l using List.reverseRecOn with
  | nil => exact start h ht
  | append_singleton l arg ih =>
    rw [List.foldl_append]
    exact ih.add arg

end Revocable

/-- A call that is refused gives an engine without a trace of it. -/
theorem untouched_call (h : e.schedule.Sound created) (ht : e.Tidy) {group : NodeId} {args : List NodeId}
    {err : GraphError} (hcall : (e.call group args).1 = .error err) : e.Untouched (e.call group args).2 := by
  have hbuild : ∀ {d : FunctionDef}, (e.build d args).1 = .error err → e.Untouched (e.build d args).2 := by
    intro d hd
    unfold build at hd ⊢
    simp only at hd ⊢
    split at hd
    · cases hd
    · exact (Revocable.wire h ht d args).revoked (.refl _)
  unfold call at hcall ⊢
  cases hr : e.resolveCall group args with
  | error _ => exact .refl e
  | ok r =>
    rw [hr] at hcall
    obtain ⟨d, index, distance, passthrough⟩ := r
    cases passthrough <;> cases args
    · exact hbuild hcall
    · exact hbuild hcall
    · exact hbuild hcall
    · cases hcall

/-! ### Operations -/

/-- An operation goes through moves that remove nothing, removes one node, or leaves no trace. -/
theorem apply_cases (op : Operation σ) (hs : e.schedule.Sound created) (ht : e.Tidy) :
    (∃ i, Moves (fun a => op.Does e a ∧ a ≠ .remove) e i (op.apply e)) ∨
      (∃ id, e.removeNode id = .ok (op.apply e)) ∨ e.Untouched (op.apply e) := by
  have hmoves := op.moves hs
  cases op with
  | removeNode id =>
    show _ ∨ (∃ other, e.removeNode other = .ok (e.accept (e.removeNode id))) ∨
      e.Untouched (e.accept (e.removeNode id))
    cases hr : e.removeNode id with
    | error err => exact .inr (.inr (.refl e))
    | ok next => exact .inr (.inl ⟨id, hr⟩)
  | intern id =>
    show (∃ i, Moves _ e i (e.accept ((e.intern id).map Prod.snd))) ∨
      (∃ other, e.removeNode other = .ok (e.accept ((e.intern id).map Prod.snd))) ∨
        e.Untouched (e.accept ((e.intern id).map Prod.snd))
    cases hr : e.intern id with
    | error err => exact .inr (.inr (.refl e))
    | ok r =>
      obtain ⟨other, next⟩ := r
      obtain ⟨n, hn, hk, ⟨-, rfl⟩ | ⟨v, -, -, -, hremove⟩ | ⟨v, hv, -, -, rfl⟩⟩ := intern_eq_ok hr
      · exact .inl ⟨0, .refl _⟩
      · exact .inr (.inl ⟨id, hremove⟩)
      · exact .inl ⟨0, (Move.share ⟨.inr ⟨n, rfl, hn⟩, by simp⟩ hn hk hv).moves⟩
  | call group args =>
    show (∃ i, Moves _ e i (e.call group args).2) ∨ _ ∨ e.Untouched (e.call group args).2
    cases hr : (e.call group args).1 with
    | error err => exact .inr (.inr (untouched_call hs ht hr))
    | ok made =>
      obtain ⟨i, hcreate⟩ : ∃ i, Moves (.create = ·) e i (e.call group args).2 := moves_of_call_ok hs rfl hr
      exact .inl ⟨i, hcreate.mono fun a ha => ⟨.inl ha.symm, by simp [← ha]⟩⟩
  | _ =>
    refine .inl ⟨_, hmoves.mono fun a ha => ⟨ha, ?_⟩⟩
    rintro rfl
    simp [Operation.Does, Act.EndsPass] at ha

/-- Step by step, an operation that is not refused ends with the next engine, and one that is refused ends without a
trace, for the same reason. -/
structure Traceless (e : Engine σ) (steps : Stepwise (Engine σ) Unit) (refusal? : Option GraphError)
    (next : Engine σ) : Prop where
  accepted : refusal? = none → steps.run e = .ok () next
  rejected : ∀ err, refusal? = some err → ∃ e', steps.run e = .error err e' ∧ e.Untouched e' ∧ e.Untouched next

private theorem traceless_of_eq {p : Stepwise (Engine σ) Unit} {x : Except GraphError (Engine σ)}
    (h : p.run e = result e (Prod.mk () <$> x)) : Traceless e p (Operation.refusal?.reason x) (e.accept x) := by
  cases x with
  | error err =>
    refine ⟨fun hr => (by cases hr), fun err' hr => ?_⟩
    cases hr
    exact ⟨e, h, .refl e, .refl e⟩
  | ok next => exact ⟨fun _ => h, fun err hr => by cases hr⟩

theorem Ends.traceless {p : Stepwise (Engine σ) α} {x : Except GraphError (α × Engine σ)} (h : Ends e (p.run e) x) :
    Traceless e (discard p) (Operation.refusal?.reason x) (e.accept (x.map Prod.snd)) := by
  cases x with
  | error err =>
    obtain ⟨e', hrun, hsame⟩ := h
    refine ⟨fun hr => (by cases hr), fun err' hr => ?_⟩
    cases hr
    exact ⟨e', discard_of_error hrun, hsame, .refl e⟩
  | ok y => exact ⟨fun _ => discard_of_ok h, fun err hr => by cases hr⟩

/-- A call leaves no trace when it is refused, for its conversions are revoked. -/
theorem traceless_call (h : e.schedule.Sound created) (ht : e.Tidy) (group : NodeId) (args : List NodeId) :
    Traceless e (discard (InPlace.call group args)) (Operation.refusal?.reason (e.call group args).1)
      (e.call group args).2 := by
  have hrun := InPlace.call_eq h group args
  have hsame : ∀ err, (e.call group args).1 = .error err → e.Untouched (e.call group args).2 := fun _ hr =>
    untouched_call h ht hr
  cases hc : e.call group args with
  | mk x next =>
    rw [hc] at hrun hsame
    cases x with
    | error err =>
      refine ⟨fun hr => (by cases hr), fun err' hr => ?_⟩
      cases hr
      exact ⟨next, discard_of_error hrun, hsame err rfl, hsame err rfl⟩
    | ok id => exact ⟨fun _ => discard_of_ok hrun, fun err hr => by cases hr⟩

end Engine

open Engine

/-- Every operation that is refused leaves no trace, however far it has come. -/
theorem Reachable.refused (h : Reachable created e) (op : Operation σ) :
    Traceless e op.inPlace (op.refusal? e) (op.apply e) := by
  have hs := h.sound
  have hstore : e.graph.store.Sound := hs.graph.store
  have hw : e.graph.WellLinked := hs.graph.linked
  cases op with
  | createNode spec parents => exact (ends_of_eq (InPlace.createNode_eq hstore _ _)).traceless
  | createNamed scope name spec parents =>
    exact (createNamed_ends hs scope name spec.isData parents).traceless
  | createScope scope name => exact (createScope_ends hs scope name).traceless
  | defineFunction scope group => exact (defineFunction_ends hs scope group).traceless
  | constant v => exact (ends_of_eq (InPlace.constant_eq hstore v)).traceless
  | intern id => exact (ends_of_eq (InPlace.intern_eq e id)).traceless
  | call group args => exact traceless_call hs h.tidy group args
  | implicitCast id target => exact (ends_of_eq (InPlace.implicitCast_eq hstore id target)).traceless
  | explicitCast id target => exact (ends_of_eq (InPlace.explicitCast_eq hstore id target)).traceless
  | removeNode id => exact traceless_of_eq (InPlace.removeNode_eq e id)
  | addChild parent child => exact (ends_of_eq (InPlace.addChild_eq hw parent child)).traceless
  | removeChild parent child => exact (ends_of_eq (InPlace.removeChild_eq hw parent child)).traceless
  | setParents id parents => exact traceless_of_eq (InPlace.setParents_eq hw id parents)
  | setScope id scope name => exact traceless_of_eq (InPlace.setScope_eq e id scope name)
  | setInput id v => exact (ends_of_eq (InPlace.setInput_eq e id v)).traceless
  | setConstant id v => exact (ends_of_eq (InPlace.setConstant_eq e id v)).traceless
  | provoke id => exact (ends_of_eq (InPlace.provoke_eq e id)).traceless
  | onValue id callback => exact (ends_of_eq (InPlace.onValue_eq e id callback)).traceless
  | onProvoked id callback => exact (ends_of_eq (InPlace.onProvoked_eq e id callback)).traceless
  | _ => exact ⟨fun _ => rfl, fun err hr => by cases hr⟩

/-- A truth value, a trigger, and a function of two integers, where triggers are said to be convertible to integers. -/
def castableTrigger : Engine Unit :=
  (Engine.new .default ()).run [
    .setCasts (CastRegistry.standard.register .trigger .int ⟨some 1, .map "trigger_to_int" id⟩),
    .createNode (.input .bool) [], .createNode .triggerInput [],
    .defineFunction ⟨0, 0⟩ ⟨"sum", [.value "sum" [.int, .int] .int ⟨"sum", fun _ _ => none⟩]⟩]

/-- The truth value is converted before it turns out that the trigger cannot be. -/
theorem castableTrigger_refused :
    castableTrigger.createdByCall ⟨3, 0⟩ [⟨1, 0⟩, ⟨2, 0⟩] = 1 ∧
      ∃ e', (Operation.call ⟨3, 0⟩ [⟨1, 0⟩, ⟨2, 0⟩]).inPlace.run castableTrigger =
        .error (.castRejected ⟨2, 0⟩ .int) e' ∧ castableTrigger.Untouched e' := by
  have h : Reachable _ castableTrigger := (Reachable.new .default ()).run _
  refine ⟨by decide +kernel, ?_⟩
  obtain ⟨e', hrun, hsame, -⟩ := (h.refused (.call ⟨3, 0⟩ [⟨1, 0⟩, ⟨2, 0⟩])).rejected
    (.castRejected ⟨2, 0⟩ .int) (by decide +kernel)
  exact ⟨e', hrun, hsame⟩

end Dataflow
