import Dataflow.Engine.InPlace
import Dataflow.Proofs.Engine.Moves
import Dataflow.Proofs.Graph.InPlace

/-!
# Operations in place

Step by step, an operation does to an engine what it does at once.  Nearly all operations are refused before their first
change and leave the engine as it is then (`createNode_eq`, `removeNode_eq`, …); a call may be refused later and leaves
the engine without the nodes made for it (`call_eq`).
-/

namespace Dataflow

open Dataflow.Graph

variable {σ α β : Type} {created : Nat} {e e' : Engine σ}

namespace Engine

namespace InPlace

open Stepwise

variable {p : Stepwise Graph α} {a : α} {g : Graph} {err : GraphError} {k : α → Stepwise (Engine σ) β}

/-- What succeeds on the graph succeeds in the engine, and changes nothing else of it. -/
theorem onGraph_of_ok (h : p.run e.graph = .ok a g) : (onGraph p).run e = .ok a { e with graph := g } :=
  within_of_ok h

/-- What breaks off on the graph breaks off in the engine, with as much of the graph changed. -/
theorem onGraph_of_error (h : p.run e.graph = .error err g) : (onGraph p).run e = .error err { e with graph := g } :=
  within_of_error h

/-- After an edit of the graph, the rest has to do what the rest of the operation does. -/
theorem onGraph_bind {x : Except GraphError (α × Graph)} {r : α × Graph → Except GraphError (β × Engine σ)}
    (hp : p.run e.graph = result e.graph x)
    (hk : ∀ a g, x = .ok (a, g) → (k a).run { e with graph := g } = result e (r (a, g))) :
    (onGraph p >>= k).run e = result e (x >>= r) := by
  cases x with
  | error err => exact bind_of_error (onGraph_of_error hp)
  | ok y => exact (bind_of_ok (onGraph_of_ok hp)).trans (hk y.1 y.2 rfl)

/-! ### Construction -/

/-- The first computation in place gives the graph of the one at once. -/
theorem computeFirst_eq (g : Graph) (id : NodeId) : (computeFirst id).run g = .ok () (Engine.computeFirst g id) := by
  unfold computeFirst Engine.computeFirst
  rw [get_bind]
  cases hn : g.node? id with
  | none => rfl
  | some n =>
    dsimp only
    cases n.kind with
    | formula t rule =>
      cases (g.args? 0 n.parents).map n.outcome with
      | none => rfl
      | some o =>
        cases o with
        | value v => exact Graph.InPlace.alter_of_some hn
        | _ => rfl
    | _ => rfl

/-- Creating a node step by step ends as creating it at once does, and breaks off before anything is changed. -/
theorem createNode_eq (hs : e.graph.store.Sound) (spec : NodeSpec) (parents : List NodeId) :
    (createNode spec parents).run e = result e (e.createNode spec parents) := by
  unfold createNode Engine.createNode
  refine read_bind fun _ _ => onGraph_bind (Graph.InPlace.addNode_eq hs _) fun id g _ => ?_
  exact (bind_of_ok (onGraph_of_ok (computeFirst_eq g id))).trans rfl

theorem removeNode_eq (e : Engine σ) (id : NodeId) :
    (removeNode id).run e = result e (Prod.mk () <$> e.removeNode id) := by
  unfold removeNode Engine.removeNode
  rw [get_bind]
  split
  · rfl
  rw [map_bind]
  exact onGraph_bind (Graph.InPlace.removeNode_eq e.graph id) fun removed g _ => rfl

theorem addChild_eq (hw : e.graph.WellLinked) (parent child : NodeId) :
    (addChild parent child).run e = result e (e.addChild parent child) := by
  unfold addChild Engine.addChild
  refine onGraph_bind (Graph.InPlace.addChild_eq e.graph parent child) fun added g h => ?_
  rcases addChild_eq_ok hw h with ⟨rfl, rfl⟩ | ⟨rfl, -⟩ <;> rfl

theorem removeChild_eq (hw : e.graph.WellLinked) (parent child : NodeId) :
    (removeChild parent child).run e = result e (e.removeChild parent child) := by
  unfold removeChild Engine.removeChild
  refine onGraph_bind (Graph.InPlace.removeChild_eq e.graph parent child) fun removed g h => ?_
  rcases removeChild_eq_ok hw h with ⟨rfl, rfl⟩ | ⟨rfl, -⟩ <;> rfl

theorem setParents_eq (hw : e.graph.WellLinked) (id : NodeId) (parents : List NodeId) :
    (setParents id parents).run e = result e (Prod.mk () <$> e.setParents id parents) := by
  unfold setParents Engine.setParents
  have hg := Graph.InPlace.setParents_eq hw id parents
  cases hs : e.graph.setParents id parents with
  | error err =>
    rw [hs] at hg
    exact bind_of_error (onGraph_of_error hg)
  | ok g =>
    rw [hs] at hg
    exact (bind_of_ok (onGraph_of_ok hg)).trans rfl

theorem setScope_eq (e : Engine σ) (id scope : NodeId) (name : String) :
    (setScope id scope name).run e = result e (Prod.mk () <$> e.setScope id scope name) := by
  unfold setScope Engine.setScope
  have hg := Graph.InPlace.setScope_eq e.graph id scope name
  cases hs : e.graph.setScope id scope name with
  | error err =>
    rw [hs] at hg
    exact onGraph_of_error hg
  | ok g =>
    rw [hs] at hg
    exact onGraph_of_ok hg

/-! ### Writes and constants -/

private theorem stage_of_some {id : NodeId} {n : Node} (hn : e.graph.node? id = some n) (staged? : Option Staged) :
    (stage id staged?).run e =
      .ok () { e with graph := e.graph.modify id fun n => { n with staged? := staged? } } :=
  onGraph_of_ok (Graph.InPlace.alter_of_some hn)

theorem setInput_eq (e : Engine σ) (id : NodeId) (v : Value) :
    (setInput id v).run e = result e (e.setInput id v) := by
  unfold setInput Engine.setInput
  refine read_bind fun n hn => ?_
  have hn : e.graph.node? id = some n := node_eq_ok_iff.1 hn
  cases n.kind with
  | input expected =>
    dsimp only
    split
    · rfl
    split
    · split
      · rfl
      · exact (bind_of_ok (stage_of_some hn none)).trans rfl
    split
    · rfl
    · exact (bind_of_ok (stage_of_some hn (some (.value v)))).trans rfl
  | _ => rfl

theorem provoke_eq (e : Engine σ) (id : NodeId) : (provoke id).run e = result e (e.provoke id) := by
  unfold provoke Engine.provoke
  refine read_bind fun n hn => ?_
  have hn : e.graph.node? id = some n := node_eq_ok_iff.1 hn
  cases n.kind with
  | triggerInput =>
    dsimp only
    split
    · rfl
    · exact (bind_of_ok (stage_of_some hn (some .provoke))).trans rfl
  | _ => rfl

theorem setConstant_eq (e : Engine σ) (id : NodeId) (v : Value) :
    (setConstant id v).run e = result e (e.setConstant id v) := by
  unfold setConstant Engine.setConstant
  refine read_bind fun n hn => read_bind fun _ _ => ?_
  have hn : e.graph.node? id = some n := node_eq_ok_iff.1 hn
  split
  · rfl
  · exact (bind_of_ok (stage_of_some hn (some (.value v)))).trans rfl

theorem constant_eq (hs : e.graph.store.Sound) (v : Value) :
    (constant v).run e = result e (e.constant v) := by
  unfold constant Engine.constant
  rw [get_bind]
  cases if e.config.dedupConstants then e.shared? v else none with
  | some id => rfl
  | none =>
    refine bind_result (createNode_eq hs _ _) fun id next _ => ?_
    dsimp only
    split <;> rfl

theorem intern_eq (e : Engine σ) (id : NodeId) : (intern id).run e = result e (e.intern id) := by
  unfold intern Engine.intern
  refine read_bind fun n _ => ?_
  rw [get_bind]
  cases n.kind with
  | constant =>
    cases n.value? with
    | none => rfl
    | some v =>
      dsimp only
      cases e.shared? v with
      | none => rfl
      | some other =>
        dsimp only
        split
        · rfl
        have hr := removeNode_eq e id
        cases hrem : e.removeNode id with
        | error err =>
          rw [hrem] at hr
          exact bind_of_error hr
        | ok next =>
          rw [hrem] at hr
          exact bind_of_ok hr
  | _ => rfl

/-! ### Conversions and calls -/

/-- A conversion step by step ends as the one at once, whatever rules may be used. -/
theorem castBy_eq (hs : e.graph.store.Sound) (id : NodeId) (target : DataType)
    (rule? : CastRegistry → DataType → Option CastRule) :
    (castBy id target rule?).run e = result e (e.castBy id target (rule? e.casts)) := by
  unfold castBy Engine.castBy
  refine read_bind fun source _ => ?_
  split
  · rfl
  rw [get_bind]
  cases rule? e.casts source with
  | none => rfl
  | some rule =>
    unfold convert
    dsimp only
    split
    · rfl
    · exact createNode_eq hs _ _

theorem implicitCast_eq (hs : e.graph.store.Sound) (id : NodeId) (target : DataType) :
    (implicitCast id target).run e = result e (e.implicitCast id target) := castBy_eq hs id target _

theorem explicitCast_eq (hs : e.graph.store.Sound) (id : NodeId) (target : DataType) :
    (explicitCast id target).run e = result e (e.explicitCast id target) := castBy_eq hs id target _

private theorem beside_of_ok {q : Stepwise (Engine σ) β} {b : β} (made : List NodeId) (h : q.run e = .ok b e') :
    (beside q).run (e, made) = .ok b (e', made) := within_of_ok h

private theorem beside_of_error {q : Stepwise (Engine σ) β} (made : List NodeId) (h : q.run e = .error err e') :
    (beside q).run (e, made) = .error err (e', made) := within_of_error h

private theorem listing_of_ok {q : Stepwise (Engine σ × List NodeId) β} {b : β} {made : List NodeId}
    (h : q.run (e, []) = .ok b (e', made)) : (listing q).run e = .ok b e' := by
  change within (·, []) (fun _ s => s.1) q e = _
  rw [within, h]

private theorem listing_of_error {q : Stepwise (Engine σ × List NodeId) β} {made : List NodeId}
    (h : q.run (e, []) = .error err (e', made)) : (listing q).run e = .error err e' := by
  change within (·, []) (fun _ s => s.1) q e = _
  rw [within, h]

/-- Once a conversion has been refused, no other is made. -/
private theorem foldl_add_error {w : Wiring σ} {err : GraphError} (h : w.args = .error err)
    (args : List (NodeId × DataType)) : args.foldl Wiring.add w = w := by
  induction args with
  | nil => rfl
  | cons arg args ih =>
    have hw : w.add arg = w := by
      unfold Wiring.add
      rw [h]
    rw [List.foldl_cons, hw, ih]

/-- Converting arguments step by step makes what converting them at once makes, up to the first that is refused. -/
theorem wire_eq {w : Wiring σ} {wired : List NodeId} (h : w.engine.schedule.Sound created) (hw : w.args = .ok wired)
    (args : List (NodeId × DataType)) :
    (wire wired args).run (w.engine, w.made) =
      answer ((args.foldl Wiring.add w).args, (args.foldl Wiring.add w).engine, (args.foldl Wiring.add w).made) := by
  induction args generalizing created w wired with
  | nil =>
    rw [List.foldl_nil, hw]
    rfl
  | cons arg args ih =>
    have hcast := implicitCast_eq h.graph.store arg.1 arg.2
    obtain ⟨j, hmoves, -⟩ : ∃ j, Moves (fun _ => True) w.engine j (w.add arg).engine ∧ _ :=
      add_moves h.graph.store trivial arg
    rw [List.foldl_cons]
    cases hc : w.engine.implicitCast arg.1 arg.2 with
    | error err =>
      have hadd : w.add arg = { w with args := .error err } := by
        simp only [Wiring.add, hw, hc]
      rw [hc] at hcast
      rw [foldl_add_error (congrArg Wiring.args hadd), hadd]
      exact bind_of_error (beside_of_error w.made hcast)
    | ok r =>
      have hadd : w.add arg = ⟨r.2, if r.1 = arg.1 then w.made else r.1 :: w.made, .ok (wired ++ [r.1])⟩ := by
        simp only [Wiring.add, hw, hc]
      have hrest := ih (h.steps hmoves.steps) (congrArg Wiring.args hadd)
      rw [hadd] at hrest ⊢
      rw [hc] at hcast
      refine (bind_of_ok (beside_of_ok w.made hcast)).trans ?_
      exact change_bind.trans hrest

/-- Removing nodes step by step goes on past those that cannot be removed. -/
theorem removeAll_eq (e : Engine σ) (ids : List NodeId) : (removeAll ids).run e = .ok () (e.removeAll ids) := by
  induction ids generalizing e with
  | nil => rfl
  | cons id ids ih =>
    have hr := removeNode_eq e id
    unfold Engine.removeAll
    rw [List.foldl_cons]
    cases hrem : e.removeNode id with
    | error err =>
      rw [hrem] at hr
      have hkept : (tryCatch (removeNode id) fun _ => return ()).run e = .ok () e := tryCatch_of_error hr
      refine (bind_of_ok hkept).trans ?_
      exact ih e
    | ok next =>
      rw [hrem] at hr
      refine (bind_of_ok (tryCatch_of_ok hr)).trans ?_
      exact ih next

/-- A call that fails removes what it has made, and gives the reason for which it fails. -/
theorem takeBack_eq (e : Engine σ) (made : List NodeId) (err : GraphError) :
    (takeBack err : Stepwise _ α).run (e, made) = .error err (e.removeAll made, made) := by
  unfold takeBack
  rw [get_bind]
  exact bind_of_ok (beside_of_ok made (removeAll_eq e made))

/-- Building a definition step by step ends as building it at once, and removes the same nodes again if it fails. -/
theorem build_eq (h : e.schedule.Sound created) (d : FunctionDef) (args : List NodeId) :
    (build d args).run e = answer (e.build d args) := by
  have hwire : (wire [] (args.zip ((List.range args.length).filterMap d.paramType?))).run (e, []) =
      answer ((e.wire d args).args, (e.wire d args).engine, (e.wire d args).made) :=
    wire_eq (w := ⟨e, [], .ok []⟩) h rfl _
  have hmoves : Moves (fun _ => True) e _ _ := wire_moves h trivial d args
  have hs := (h.steps hmoves.steps).graph.store
  unfold build Engine.build
  dsimp only
  generalize e.wire d args = w at hwire hs
  cases hargs : w.args with
  | error err =>
    rw [hargs] at hwire
    exact listing_of_error ((tryCatch_of_error (bind_of_error hwire)).trans (takeBack_eq w.engine w.made err))
  | ok wired =>
    rw [hargs] at hwire
    have hnode := createNode_eq hs d.nodeSpec wired
    rw [Except.bind]
    cases hc : w.engine.createNode d.nodeSpec wired with
    | error err =>
      rw [hc] at hnode
      refine listing_of_error ((tryCatch_of_error ?_).trans (takeBack_eq w.engine w.made err))
      exact (bind_of_ok hwire).trans (beside_of_error w.made hnode)
    | ok r =>
      rw [hc] at hnode
      exact listing_of_ok (tryCatch_of_ok ((bind_of_ok hwire).trans (beside_of_ok w.made hnode)))

theorem call_eq (h : e.schedule.Sound created) (group : NodeId) (args : List NodeId) :
    (call group args).run e = answer (e.call group args) := by
  unfold call Engine.call
  cases hr : e.resolveCall group args with
  | error err => exact bind_of_error (read_of_error e hr)
  | ok r =>
    refine (bind_of_ok (read_of_ok e hr)).trans ?_
    obtain ⟨d, index, distance, passthrough⟩ := r
    cases passthrough <;> cases args
    · exact build_eq h d _
    · exact build_eq h d _
    · exact build_eq h d _
    · rfl

/-! ### Observers -/

theorem onValue_eq (e : Engine σ) (id : NodeId) (callback : Callback σ) :
    (onValue id callback).run e = result e (e.onValue id callback) := by
  unfold onValue Engine.onValue
  refine read_bind fun n _ => ?_
  dsimp only
  split <;> rfl

theorem onProvoked_eq (e : Engine σ) (id : NodeId) (callback : Callback σ) :
    (onProvoked id callback).run e = result e (e.onProvoked id callback) := by
  unfold onProvoked Engine.onProvoked
  refine read_bind fun n _ => ?_
  split <;> rfl

end InPlace

end Engine

end Dataflow
