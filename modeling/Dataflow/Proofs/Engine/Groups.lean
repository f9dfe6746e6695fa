import Dataflow.Engine.Operation

/-!
# Nested groups

A script is what runs inside a group: edits, passes, and groups of its own, where edits may break off at any point and
what encloses them may go on after that.

* `Operation.apply_atLevel`: an edit does the same however many groups are open.
* `Script.exec_of_grouped`: where groups are open, a script does its edits one after the other, and the passes and
  groups in it report nothing.
* `group_flattens`: the outermost group makes the edits and runs one pass, or no pass if it breaks off.
-/

namespace Dataflow

variable {σ : Type} {e : Engine σ}

namespace Engine

/-- The engine with another number of open groups. -/
def atLevel (e : Engine σ) (level : Nat) : Engine σ := { e with groupLevel := level }

/-! ### Edits at any level -/

/-- What a function gives at another level of groups, where it does the same there. -/
private def levelled {α : Type} (level : Nat) (answer : Except GraphError (α × Engine σ)) :
    Except GraphError (α × Engine σ) := answer.map fun r => (r.1, r.2.atLevel level)

variable (level : Nat)

private theorem createNode_atLevel (spec : NodeSpec) (parents : List NodeId) :
    (e.atLevel level).createNode spec parents = levelled level (e.createNode spec parents) := by
  unfold createNode
  cases checkInitial spec with
  | error err => rfl
  | ok _ =>
    simp only [bind, Except.bind, pure, Except.pure]
    have hgraph : (e.atLevel level).graph = e.graph := rfl
    rw [hgraph]
    split <;> rfl

private theorem convert_atLevel (id : NodeId) (source target : DataType) (rule : CastRule) :
    (e.atLevel level).convert id source target rule = levelled level (e.convert id source target rule) := by
  unfold convert
  split
  · rfl
  · exact createNode_atLevel level _ _

private theorem castBy_atLevel (id : NodeId) (target : DataType) (rule? : DataType → Option CastRule) :
    (e.atLevel level).castBy id target rule? = levelled level (e.castBy id target rule?) := by
  unfold castBy
  have htype : (e.atLevel level).dataType id = e.dataType id := rfl
  rw [htype]
  cases e.dataType id with
  | error err => rfl
  | ok source =>
    simp only [bind, Except.bind, pure, Except.pure]
    split
    · rfl
    · split
      · exact convert_atLevel level _ _ _ _
      · rfl

private theorem removeNode_atLevel (id : NodeId) :
    (e.atLevel level).removeNode id = (e.removeNode id).map (·.atLevel level) := by
  unfold removeNode
  have hroot : (e.atLevel level).root = e.root := rfl
  have hgraph : (e.atLevel level).graph = e.graph := rfl
  rw [hroot, hgraph]
  split
  · rfl
  · cases e.graph.removeNode id <;> rfl

private theorem removeAll_atLevel (ids : List NodeId) :
    (e.atLevel level).removeAll ids = (e.removeAll ids).atLevel level := by
  unfold removeAll
  induction ids generalizing e with
  | nil => rfl
  | cons id ids ih =>
    simp only [List.foldl_cons, removeNode_atLevel]
    cases e.removeNode id <;> exact ih

private def Wiring.atLevel (w : Wiring σ) : Wiring σ := { w with engine := w.engine.atLevel level }

private theorem add_atLevel (w : Wiring σ) (arg : NodeId × DataType) :
    (Wiring.atLevel level w).add arg = Wiring.atLevel level (w.add arg) := by
  unfold Wiring.add
  have hargs : (Wiring.atLevel level w).args = w.args := rfl
  have hcast : (Wiring.atLevel level w).engine.implicitCast arg.1 arg.2 =
      levelled level (w.engine.implicitCast arg.1 arg.2) := castBy_atLevel level _ _ _
  rw [hargs, hcast]
  cases w.args with
  | error err => rfl
  | ok args => cases w.engine.implicitCast arg.1 arg.2 <;> rfl

private theorem wire_atLevel (d : FunctionDef) (args : List NodeId) :
    (e.atLevel level).wire d args = Wiring.atLevel level (e.wire d args) := by
  have hfold : ∀ (pairs : List (NodeId × DataType)) (w : Wiring σ),
      pairs.foldl Wiring.add (Wiring.atLevel level w) = Wiring.atLevel level (pairs.foldl Wiring.add w) := by
    intro pairs
    induction pairs with
    | nil => exact fun w => rfl
    | cons pair pairs ih =>
      intro w
      rw [List.foldl_cons, add_atLevel, ih, List.foldl_cons]
  exact hfold _ ⟨e, [], .ok []⟩

private theorem build_atLevel (d : FunctionDef) (args : List NodeId) :
    (e.atLevel level).build d args = ((e.build d args).1, (e.build d args).2.atLevel level) := by
  unfold build
  rw [wire_atLevel]
  generalize e.wire d args = w
  obtain ⟨wired, made, args⟩ := w
  cases args with
  | error err => exact Prod.ext rfl (removeAll_atLevel level made)
  | ok args =>
    simp only [Wiring.atLevel, Except.bind, createNode_atLevel]
    cases wired.createNode d.nodeSpec args with
    | error err => exact Prod.ext rfl (removeAll_atLevel level made)
    | ok built => rfl

private theorem call_atLevel (group : NodeId) (args : List NodeId) :
    (e.atLevel level).call group args = ((e.call group args).1, (e.call group args).2.atLevel level) := by
  unfold call
  have hresolve : (e.atLevel level).resolveCall group args = e.resolveCall group args := rfl
  rw [hresolve]
  split
  · rfl
  · rfl
  · exact build_atLevel level _ _

private theorem drainUpdate_atLevel :
    (e.atLevel level).drainUpdate = (e.drainUpdate.1, e.drainUpdate.2.1, e.drainUpdate.2.2.atLevel level) := by
  unfold drainUpdate
  have hgraph : (e.atLevel level).graph = e.graph := rfl
  rw [hgraph]
  split <;> rfl

private theorem drainEval_atLevel :
    (e.atLevel level).drainEval = (e.drainEval.1, e.drainEval.2.1, e.drainEval.2.2.atLevel level) := by
  unfold drainEval
  rw [drainUpdate_atLevel]
  generalize e.drainUpdate = d
  obtain ⟨changed, events, settled⟩ := d
  have heval : (settled.atLevel level).eval = settled.eval := rfl
  simp only [heval]
  split <;> rfl

private theorem setInput_atLevel (id : NodeId) (v : Value) :
    (e.atLevel level).setInput id v = levelled level (e.setInput id v) := by
  unfold setInput
  have hnode : (e.atLevel level).node id = e.node id := rfl
  rw [hnode]
  cases e.node id with
  | error err => rfl
  | ok n =>
    simp only [bind, Except.bind, pure, Except.pure]
    split
    · split
      · rfl
      · split
        · split <;> rfl
        · split <;> rfl
    · rfl

private theorem provoke_atLevel (id : NodeId) :
    (e.atLevel level).provoke id = levelled level (e.provoke id) := by
  unfold provoke
  have hnode : (e.atLevel level).node id = e.node id := rfl
  rw [hnode]
  cases e.node id with
  | error err => rfl
  | ok n =>
    simp only [bind, Except.bind, pure, Except.pure]
    split
    · split <;> rfl
    · rfl

private theorem applyEdits_atLevel (edits : List Edit) :
    (e.atLevel level).applyEdits edits = ((e.applyEdits edits).1, (e.applyEdits edits).2.atLevel level) := by
  unfold applyEdits
  generalize 0 = rejected
  induction edits generalizing rejected e with
  | nil => rfl
  | cons edit edits ih =>
    have hedit : (e.atLevel level).applyEdit edit = levelled level (e.applyEdit edit) := by
      cases edit with
      | setValue id v => exact setInput_atLevel level id v
      | provoke id => exact provoke_atLevel level id
    simp only [List.foldl_cons, hedit]
    cases e.applyEdit edit <;> exact ih _

private theorem finalize_atLevel :
    (e.atLevel level).finalize = (e.finalize.1, e.finalize.2.1, e.finalize.2.2.atLevel level) := by
  unfold finalize
  have htasks : (e.atLevel level).tasks.foldl (Finalization.perform (e.atLevel level).observers)
      ⟨(e.atLevel level).graph, (e.atLevel level).host, [], 0, []⟩ =
      e.tasks.foldl (Finalization.perform e.observers) ⟨e.graph, e.host, [], 0, []⟩ := rfl
  simp only [htasks]
  generalize e.tasks.foldl (Finalization.perform e.observers) ⟨e.graph, e.host, [], 0, []⟩ = f
  have hsettled : { e.atLevel level with graph := f.graph, host := f.host, tasks := [], report := .none } =
      { e with graph := f.graph, host := f.host, tasks := [], report := .none }.atLevel level := rfl
  rw [hsettled, applyEdits_atLevel]
  rfl

private theorem addChild_atLevel (parent child : NodeId) :
    (e.atLevel level).addChild parent child = levelled level (e.addChild parent child) := by
  unfold addChild
  have hgraph : (e.atLevel level).graph = e.graph := rfl
  rw [hgraph]
  cases e.graph.addChild parent child with
  | error err => rfl
  | ok r =>
    simp only [bind, Except.bind, pure, Except.pure]
    split <;> rfl

private theorem removeChild_atLevel (parent child : NodeId) :
    (e.atLevel level).removeChild parent child = levelled level (e.removeChild parent child) := by
  unfold removeChild
  have hgraph : (e.atLevel level).graph = e.graph := rfl
  rw [hgraph]
  cases e.graph.removeChild parent child with
  | error err => rfl
  | ok r =>
    simp only [bind, Except.bind, pure, Except.pure]
    split <;> rfl

private theorem constant_atLevel (v : Value) :
    (e.atLevel level).constant v = levelled level (e.constant v) := by
  unfold constant
  have hshared : (if (e.atLevel level).config.dedupConstants then (e.atLevel level).shared? v else none) =
      if e.config.dedupConstants then e.shared? v else none := rfl
  rw [hshared, createNode_atLevel]
  split
  · rfl
  · cases e.createNode (.constant v) [] with
    | error err => rfl
    | ok r =>
      have hconfig : (e.atLevel level).config = e.config := rfl
      simp only [levelled, Except.map, bind, Except.bind, pure, Except.pure, hconfig]
      split <;> rfl

private theorem intern_atLevel (id : NodeId) : (e.atLevel level).intern id = levelled level (e.intern id) := by
  unfold intern
  have hnode : (e.atLevel level).node id = e.node id := rfl
  rw [hnode]
  cases e.node id with
  | error err => rfl
  | ok n =>
    simp only [bind, Except.bind, pure, Except.pure]
    split
    · rfl
    · rename_i v _ _
      have hshared : (e.atLevel level).shared? v = e.shared? v := rfl
      rw [hshared, removeNode_atLevel]
      split
      · split
        · rfl
        · cases e.removeNode id <;> rfl
      · rfl
    · rfl

private theorem setConstant_atLevel (id : NodeId) (v : Value) :
    (e.atLevel level).setConstant id v = levelled level (e.setConstant id v) := by
  unfold setConstant
  have hnode : (e.atLevel level).node id = e.node id := rfl
  rw [hnode]
  cases e.node id with
  | error err => rfl
  | ok n =>
    simp only [bind, Except.bind, pure, Except.pure]
    cases checkFold id n v with
    | error err => rfl
    | ok _ =>
      simp only
      split <;> rfl

private theorem createNamed_atLevel (scope : NodeId) (name : String) (spec : NodeSpec) (parents : List NodeId) :
    (e.atLevel level).createNamed scope name spec parents = levelled level (e.createNamed scope name spec parents) := by
  unfold createNamed
  have hgraph : (e.atLevel level).graph = e.graph := rfl
  rw [hgraph, createNode_atLevel]
  cases e.graph.checkScope none scope name with
  | error err => rfl
  | ok _ =>
    cases e.createNode spec parents with
    | error err => rfl
    | ok r =>
      simp only [levelled, Except.map, bind, Except.bind, pure, Except.pure]
      have hcreated : (r.2.atLevel level).graph = r.2.graph := rfl
      rw [hcreated]
      cases r.2.graph.setScope r.1 scope name <;> rfl

private theorem createScope_atLevel (scope : NodeId) (name : String) :
    (e.atLevel level).createScope scope name = levelled level (e.createScope scope name) := by
  unfold createScope
  have hgraph : (e.atLevel level).graph = e.graph := rfl
  rw [hgraph]
  cases e.graph.checkScope none scope name with
  | error err => rfl
  | ok _ =>
    simp only [bind, Except.bind, pure, Except.pure]
    split <;> rfl

private theorem defineFunction_atLevel (scope : NodeId) (group : FunctionGroup) :
    (e.atLevel level).defineFunction scope group = levelled level (e.defineFunction scope group) := by
  unfold defineFunction
  have hgraph : (e.atLevel level).graph = e.graph := rfl
  rw [hgraph]
  cases e.graph.checkScope none scope group.name with
  | error err => rfl
  | ok _ =>
    simp only [bind, Except.bind, pure, Except.pure]
    cases e.graph.addNode (.fresh (.functionGroup group) [] none) with
    | error err => rfl
    | ok r =>
      simp only
      split <;> rfl

private theorem onValue_atLevel (id : NodeId) (callback : Callback σ) :
    (e.atLevel level).onValue id callback = levelled level (e.onValue id callback) := by
  unfold onValue
  have hnode : (e.atLevel level).node id = e.node id := rfl
  rw [hnode]
  cases e.node id with
  | error err => rfl
  | ok n =>
    simp only [bind, Except.bind, pure, Except.pure]
    split <;> rfl

private theorem onProvoked_atLevel (id : NodeId) (callback : Callback σ) :
    (e.atLevel level).onProvoked id callback = levelled level (e.onProvoked id callback) := by
  unfold onProvoked
  have hnode : (e.atLevel level).node id = e.node id := rfl
  rw [hnode]
  cases e.node id with
  | error err => rfl
  | ok n =>
    simp only [bind, Except.bind, pure, Except.pure]
    split <;> rfl

private theorem removeObserver_atLevel (id : ObserverId) :
    (e.atLevel level).removeObserver id = ((e.removeObserver id).1, (e.removeObserver id).2.atLevel level) := by
  unfold removeObserver
  have hobservers : (e.atLevel level).observers = e.observers := rfl
  rw [hobservers]
  split <;> rfl

private theorem setParents_atLevel (id : NodeId) (parents : List NodeId) :
    (e.atLevel level).setParents id parents = (e.setParents id parents).map (·.atLevel level) := by
  unfold setParents
  have hgraph : (e.atLevel level).graph = e.graph := rfl
  rw [hgraph]
  cases e.graph.setParents id parents <;> rfl

private theorem setScope_atLevel (id scope : NodeId) (name : String) :
    (e.atLevel level).setScope id scope name = (e.setScope id scope name).map (·.atLevel level) := by
  unfold setScope
  have hgraph : (e.atLevel level).graph = e.graph := rfl
  rw [hgraph]
  cases e.graph.setScope id scope name <;> rfl

private theorem accept_of_levelled {α : Type} {r s : Except GraphError (α × Engine σ)} (h : s = levelled level r) :
    (e.atLevel level).accept (s.map Prod.snd) = (e.accept (r.map Prod.snd)).atLevel level := by
  subst h
  cases r <;> rfl

private theorem accept_of_map {r s : Except GraphError (Engine σ)} (h : s = r.map (·.atLevel level)) :
    (e.atLevel level).accept s = (e.accept r).atLevel level := by
  subst h
  cases r <;> rfl

end Engine

namespace Operation

open Engine

/-- The operation changes or drains what is there, and neither asks for a pass nor opens or ends a group. -/
def isEdit : Operation σ → Bool
  | runPass | openGroup | closeGroup | abandonGroup => false
  | _ => true

/-- An edit does the same however many groups are open. -/
theorem apply_atLevel {op : Operation σ} (h : op.isEdit) (level : Nat) :
    op.apply (e.atLevel level) = (op.apply e).atLevel level := by
  cases op with
  | createNode spec parents => exact accept_of_levelled level (createNode_atLevel level _ _)
  | createNamed scope name spec parents => exact accept_of_levelled level (createNamed_atLevel level _ _ _ _)
  | createScope scope name => exact accept_of_levelled level (createScope_atLevel level _ _)
  | defineFunction scope group => exact accept_of_levelled level (defineFunction_atLevel level _ _)
  | constant v => exact accept_of_levelled level (constant_atLevel level v)
  | intern id => exact accept_of_levelled level (intern_atLevel level id)
  | call group args => exact congrArg Prod.snd (call_atLevel level group args)
  | implicitCast id target => exact accept_of_levelled level (castBy_atLevel level _ _ _)
  | explicitCast id target => exact accept_of_levelled level (castBy_atLevel level _ _ _)
  | removeNode id => exact accept_of_map level (removeNode_atLevel level id)
  | addChild parent child => exact accept_of_levelled level (addChild_atLevel level _ _)
  | removeChild parent child => exact accept_of_levelled level (removeChild_atLevel level _ _)
  | setParents id parents => exact accept_of_map level (setParents_atLevel level _ _)
  | setScope id scope name => exact accept_of_map level (setScope_atLevel level _ _ _)
  | setInput id v => exact accept_of_levelled level (setInput_atLevel level _ _)
  | setConstant id v => exact accept_of_levelled level (setConstant_atLevel level _ _)
  | provoke id => exact accept_of_levelled level (provoke_atLevel level id)
  | onValue id callback => exact accept_of_levelled level (onValue_atLevel level _ _)
  | onProvoked id callback => exact accept_of_levelled level (onProvoked_atLevel level _ _)
  | removeObserver id => exact congrArg Prod.snd (removeObserver_atLevel level id)
  | setCasts casts => rfl
  | drainUpdate => simp only [apply, drainUpdate_atLevel]
  | drainEval => simp only [apply, drainEval_atLevel]
  | finalize => simp only [apply, finalize_atLevel]
  | runPass => exact absurd h Bool.false_ne_true
  | openGroup => exact absurd h Bool.false_ne_true
  | closeGroup => exact absurd h Bool.false_ne_true
  | abandonGroup => exact absurd h Bool.false_ne_true
  | setHost host => rfl

theorem groupLevel_apply {op : Operation σ} (h : op.isEdit) : (op.apply e).groupLevel = e.groupLevel := by
  have happly : op.apply e = (op.apply e).atLevel e.groupLevel := apply_atLevel h e.groupLevel
  rw [happly]
  rfl

end Operation

namespace Engine

theorem run_atLevel {ops : List (Operation σ)} (h : ∀ op ∈ ops, op.isEdit) (level : Nat) :
    (e.atLevel level).run ops = (e.run ops).atLevel level := by
  induction ops generalizing e with
  | nil => rfl
  | cons op ops ih =>
    obtain ⟨hop, hops⟩ := List.forall_mem_cons.1 h
    unfold run
    rw [Operation.apply_atLevel hop, ih hops]

/-- Edits leave the groups open that are open. -/
theorem groupLevel_run {ops : List (Operation σ)} (h : ∀ op ∈ ops, op.isEdit) :
    (e.run ops).groupLevel = e.groupLevel := by
  have hrun : e.run ops = (e.run ops).atLevel e.groupLevel := run_atLevel h e.groupLevel
  rw [hrun]
  rfl

/-- A pass leaves the groups open that are open. -/
theorem groupLevel_runPass : e.runPass.2.2.groupLevel = e.groupLevel := by
  unfold runPass
  split
  · rfl
  · have heval : (Operation.drainEval.apply e).groupLevel = e.groupLevel := Operation.groupLevel_apply rfl
    have hend : (Operation.finalize.apply (Operation.drainEval.apply e)).groupLevel =
        (Operation.drainEval.apply e).groupLevel := Operation.groupLevel_apply rfl
    exact hend.trans heval

end Engine

/-- What runs inside a group. -/
inductive Script (σ : Type) where
  /-- Everything has been done. -/
  | done
  /-- The edits break off here. -/
  | fail
  | edit (op : Operation σ) (isEdit : op.isEdit) (rest : Script σ)
  | pass (rest : Script σ)
  /-- A group of its own.  If its edits break off, what encloses it goes on only if it catches that. -/
  | group (body : Script σ) (catches : Bool) (rest : Script σ)

/-- How a script ended. -/
structure Ending where
  /-- The script did not break off. -/
  finished : Bool
  /-- What the passes and the groups in it reported, as far as they ended. -/
  reports : List PassReport

namespace Engine

/-- Makes edits in a group.  If they break off, the group ends without a pass and without a report. -/
def attempt (e : Engine σ) (edits : Engine σ → Ending × Engine σ) : Ending × Option PassReport × Engine σ :=
  let (ending, next) := e.grouped edits
  if ending.finished then
    let (report, _, last) := next.runPass
    (ending, some report, last)
  else (ending, none, next)

/-- Edits that do not break off are made as in any group. -/
theorem attempt_eq_group {edits : Engine σ → Ending × Engine σ} (h : (e.grouped edits).1.finished = true) :
    e.attempt edits = ((e.group edits).1, some (e.group edits).2.1, (e.group edits).2.2) := by
  unfold attempt group
  simp only [h, if_true]

end Engine

namespace Script

def exec : Script σ → Engine σ → Ending × Engine σ
  | done, e => (⟨true, []⟩, e)
  | fail, e => (⟨false, []⟩, e)
  | edit op _ rest, e => rest.exec (op.apply e)
  | pass rest, e =>
    let (report, _, next) := e.runPass
    let (ending, last) := rest.exec next
    (⟨ending.finished, report :: ending.reports⟩, last)
  | group body catches rest, e =>
    let (inner, report?, next) := e.attempt body.exec
    let reports := inner.reports ++ report?.toList
    if inner.finished || catches then
      let (ending, last) := rest.exec next
      (⟨ending.finished, reports ++ ending.reports⟩, last)
    else (⟨false, reports⟩, next)

/-- The script comes to its end. -/
def finishes : Script σ → Bool
  | done => true
  | fail => false
  | edit _ _ rest => rest.finishes
  | pass rest => rest.finishes
  | group body catches rest => (body.finishes || catches) && rest.finishes

/-- The edits that are made, in order. -/
def edits : Script σ → List (Operation σ)
  | done => []
  | fail => []
  | edit op _ rest => op :: rest.edits
  | pass rest => rest.edits
  | group body catches rest => body.edits ++ if body.finishes || catches then rest.edits else []

/-- How many passes are asked for, by the groups that end as well. -/
def passes : Script σ → Nat
  | done => 0
  | fail => 0
  | edit _ _ rest => rest.passes
  | pass rest => rest.passes + 1
  | group body catches rest =>
    body.passes + body.finishes.toNat + if body.finishes || catches then rest.passes else 0

private theorem isEdit_of_mem_edits {script : Script σ} {op : Operation σ} (h : op ∈ script.edits) :
    op.isEdit := by
  induction script with
  | done => exact absurd h List.not_mem_nil
  | fail => exact absurd h List.not_mem_nil
  | edit first isEdit rest ih =>
    obtain rfl | hrest := List.mem_cons.1 h
    · exact isEdit
    · exact ih hrest
  | pass rest ih => exact ih h
  | group body catches rest ihbody ihrest =>
    obtain hbody | hrest := List.mem_append.1 h
    · exact ihbody hbody
    · split at hrest
      · exact ihrest hrest
      · exact absurd hrest List.not_mem_nil

/-- How a script ends whose passes all do nothing. -/
def ending (script : Script σ) : Ending := ⟨script.finishes, List.replicate script.passes .none⟩

end Script

namespace Engine

variable {script : Script σ} {edits : Engine σ → Ending × Engine σ}

/-- What is left of a group, by how its edits end. -/
theorem attempt_of_grouped {ending : Ending} {next : Engine σ} (h : e.grouped edits = (ending, next)) :
    e.attempt edits =
      if ending.finished then (ending, some next.runPass.1, next.runPass.2.2) else (ending, none, next) := by
  unfold attempt
  rw [h]

/-- A script that does just its edits where groups are open does so in a group of its own, too. -/
private theorem grouped_of_exec
    (h : ∀ {f : Engine σ}, 0 < f.groupLevel → script.exec f = (script.ending, f.run script.edits)) :
    e.grouped script.exec = (script.ending, e.run script.edits) := by
  have hedits : ∀ op ∈ script.edits, op.isEdit := fun op hop => Script.isEdit_of_mem_edits hop
  have hexec : script.exec (e.atLevel (e.groupLevel + 1)) =
      (script.ending, (e.run script.edits).atLevel (e.groupLevel + 1)) := by
    rw [h (Nat.succ_pos _), run_atLevel hedits]
  have hlevel : (e.run script.edits).atLevel e.groupLevel = e.run script.edits :=
    congrArg (e.run script.edits).atLevel (groupLevel_run hedits).symm
  unfold grouped
  rw [show { e with groupLevel := e.groupLevel + 1 } = e.atLevel (e.groupLevel + 1) from rfl, hexec]
  exact congrArg (Prod.mk _) hlevel

end Engine

/-- Where groups are open, a script does its edits one after the other, and what it asks for besides does nothing. -/
theorem Script.exec_of_grouped (script : Script σ) (h : 0 < e.groupLevel) :
    script.exec e = (script.ending, e.run script.edits) := by
  induction script generalizing e with
  | done => rfl
  | fail => rfl
  | edit op isEdit rest ih => exact ih (by rwa [Operation.groupLevel_apply isEdit])
  | pass rest ih =>
    have hpass : e.runPass = (.none, [], e) := if_pos h
    unfold exec
    simp only [hpass, ih h]
    rfl
  | group body catches rest ihbody ihrest =>
    have hlevel : 0 < (e.run body.edits).groupLevel := by
      rwa [Engine.groupLevel_run fun op hop => isEdit_of_mem_edits hop]
    have hpass : (e.run body.edits).runPass = (.none, [], e.run body.edits) := if_pos hlevel
    unfold exec
    rw [Engine.attempt_of_grouped (Engine.grouped_of_exec ihbody), hpass]
    cases hbody : body.finishes with
    | false =>
      cases catches with
      | false => simp [ending, finishes, passes, edits, hbody]
      | true => simp [ending, finishes, passes, edits, hbody, ihrest hlevel, Engine.run_append]
    | true =>
      have hpasses : List.replicate (body.passes + 1 + rest.passes) PassReport.none =
          List.replicate body.passes .none ++ .none :: List.replicate rest.passes .none := by
        rw [← List.replicate_succ, List.replicate_append_replicate, Nat.add_assoc, Nat.add_comm 1]
      simp [ending, finishes, passes, edits, hbody, ihrest hlevel, Engine.run_append, hpasses]

/-- A script in an outermost group comes down to its edits and one pass. -/
structure Flattens (script : Script σ) (e : Engine σ) : Prop where
  /-- The passes and the groups in the script report nothing, and the script ends as its breaks say. -/
  ending : (e.attempt script.exec).1 = ⟨script.finishes, List.replicate script.passes .none⟩
  /-- The edits are made in order, and the group reports what a pass after them reports. -/
  finished : script.finishes = true →
    (e.attempt script.exec).2 = (some (e.run script.edits).runPass.1, (e.run script.edits).runPass.2.2)
  /-- If the edits break off, those made so far stay, and there is no pass. -/
  broken : script.finishes = false → (e.attempt script.exec).2 = (none, e.run script.edits)
  level : (e.attempt script.exec).2.2.groupLevel = 0

/-- Groups within groups, to any depth and however they end, run no pass of their own and lose none: outside of groups,
a script does in a group what its edits and one pass do. -/
theorem group_flattens (script : Script σ) (h : e.groupLevel = 0) : Flattens script e := by
  have hrun : e.attempt script.exec = if script.finishes then
      (script.ending, some (e.run script.edits).runPass.1, (e.run script.edits).runPass.2.2)
      else (script.ending, none, e.run script.edits) :=
    Engine.attempt_of_grouped (Engine.grouped_of_exec script.exec_of_grouped)
  have hlevel : (e.run script.edits).groupLevel = 0 := by
    rw [Engine.groupLevel_run fun op hop => Script.isEdit_of_mem_edits hop, h]
  refine ⟨?_, fun hfinishes => ?_, fun hbreaks => ?_, ?_⟩
  · rw [hrun]
    split <;> rfl
  · rw [hrun, if_pos hfinishes]
  · rw [hrun, hbreaks]
    rfl
  · rw [hrun]
    split
    · exact Engine.groupLevel_runPass.trans hlevel
    · exact hlevel

/-- Two inputs and a formula that copies the first. -/
def groupedInputs : Engine Unit :=
  (Engine.new .default ()).run [.createNode (.inputWith (.bool true)) [], .createNode (.inputWith (.bool true)) [],
    .createNode (.formula .bool ⟨"copy", fun args _ => args.head?.bind Arg.value?⟩) [⟨1, 0⟩]]

/-- Sets one input, sets the other in a group that then breaks off, and asks for a pass in a group and outside of it. -/
def brokenScript : Script Unit :=
  .edit (.setInput ⟨1, 0⟩ (.bool false)) rfl <|
  .group (.edit (.setInput ⟨2, 0⟩ (.bool false)) rfl (.pass .fail)) true <|
  .group (.pass .done) false <|
  .pass .done

/-- The edit of the group that broke off is in the one pass. -/
theorem brokenScript_flattens :
    groupedInputs.groupLevel = 0 ∧ brokenScript.finishes = true ∧ brokenScript.passes = 4 ∧
    ((groupedInputs.run brokenScript.edits).runPass.1.changed = [⟨1, 0⟩, ⟨2, 0⟩, ⟨3, 0⟩]) ∧
    Flattens brokenScript groupedInputs :=
  ⟨rfl, rfl, rfl, rfl, group_flattens brokenScript rfl⟩

end Dataflow
