import Dataflow.Engine.Operation
import Dataflow.Proofs.Engine.Schedule

/-!
# Moves

Every operation takes an engine through a few kinds of moves (`Engine.Move`): a node is created, renamed, removed or
relinked, a write is staged or withdrawn, a constant is shared, an observer comes or goes, depths are settled, nodes
are evaluated, the queued work is done.  What each move does to the engine is said once, so that an invariant of
engines has to be shown for moves only.

* `Operation.moves`: the moves of an operation create as many nodes as the operation does;
* `Move.steps`: the schedule of an engine goes through the steps that belong to its moves.
-/

namespace Dataflow

open Dataflow.Graph

/-- Nothing is staged for the node but the value that it holds. -/
def Node.IsSteady (n : Node) : Prop := n.staged? = none ∨ n.staged? = n.value?.map .value

variable {σ : Type} {created : Nat} {e e' : Engine σ}

namespace Engine

/-! ### What moves make of an engine -/

/-- The engine with a change staged for a node. -/
def staging (e : Engine σ) (id : NodeId) (n : Node) (s : Staged) : Engine σ :=
  { e with
    graph := e.graph.modify id fun n => { n with staged? := some s }
    eval := e.eval.insert id n.depth }

/-- The engine without anything staged for a node. -/
def withdrawing (e : Engine σ) (id : NodeId) : Engine σ :=
  { e with
    graph := e.graph.modify id fun n => { n with staged? := none }
    eval := e.eval.remove id }

/-- The shared constants after a constant has taken or lost a value. -/
def unshared (e : Engine σ) (id : NodeId) (value? : Option Value) : Table Value NodeId :=
  match value? with
  | some v => e.unshare v id
  | none => e.constants

/-- The engine without a node, of which removing it left a graph. -/
def dropping (e : Engine σ) (id : NodeId) (removed : Node) (g : Graph) : Engine σ :=
  { e with
    graph := g
    eval := e.eval.remove id
    constants :=
      match removed.kind, removed.value? with
      | .constant, some v => e.unshare v id
      | _, _ => e.constants
    observers := e.observers.forget id
    tasks := e.tasks.filter (·.node ≠ id) }

/-- The engine after an evaluation of everything that is pending. -/
def evaluating (e : Engine σ) : Engine σ :=
  let (visits, graph, eval) := e.graph.propagate (e.pass + 1) e.eval
  { e with
    graph := graph
    eval := eval
    pass := e.pass + 1
    tasks := e.tasks ++ visits.flatMap e.observers.tasksAfter
    report := addVisits e.report (e.pass + 1) visits }

/-- The kinds of moves.  Of a change that is staged, and of a constant that is shared, the act tells which it is. -/
inductive Act where
  | create
  | addScope
  | rename
  | remove
  | relink
  | stage (id : NodeId) (s : Staged)
  | withdraw
  | share (n : Node)
  | register
  | unregister
  | settle
  | evaluate
  /-- Doing what was queued for the end of the pass. -/
  | work
  | recast
  | adjust

/-- A write from outside stages a change of an input, a trigger input or a constant, or withdraws that of an input. -/
inductive Write : Act → Engine σ → Engine σ → Prop
  | input {e : Engine σ} {id : NodeId} {n : Node} {v : Value} :
      e.graph.node? id = some n → n.kind = .input v.dataType → n.value? ≠ some v →
      Write (.stage id (.value v)) e (e.staging id n (.value v))
  | withdraw {e : Engine σ} {id : NodeId} {n : Node} {t : DataType} :
      e.graph.node? id = some n → n.kind = .input t → Write .withdraw e (e.withdrawing id)
  | provoke {e : Engine σ} {id : NodeId} {n : Node} :
      e.graph.node? id = some n → n.kind = .triggerInput → Write (.stage id .provoke) e (e.staging id n .provoke)
  /-- A constant that is to take another value is shared no longer. -/
  | fold {e : Engine σ} {id : NodeId} {n : Node} {v : Value} :
      e.graph.node? id = some n → n.kind = .constant → (∀ old, n.value? = some old → v.dataType = old.dataType) →
      Write (.stage id (.value v)) e { e.staging id n (.value v) with constants := e.unshared id n.value? }

/-- The moves of allowed kinds that engines go through, with the number of nodes that each creates. -/
inductive Move (allowed : Act → Prop) : Engine σ → Nat → Engine σ → Prop
  | create {e : Engine σ} {kind : NodeKind} {parents : List NodeId} {value? : Option Value} {id : NodeId}
      {g : Graph} : allowed .create → e.graph.addNode (.fresh kind parents value?) = .ok (id, g) →
      Move allowed e 1 { e with graph := computeFirst g id }
  | addScope (e : Engine σ) : allowed .addScope → Move allowed e 1 { e with graph := e.graph.addScope.2 }
  | rename {e : Engine σ} {id scope : NodeId} {name : String} {g : Graph} : allowed .rename →
      e.graph.setScope id scope name = .ok g → Move allowed e 0 { e with graph := g }
  | remove {e : Engine σ} {id : NodeId} {removed : Node} {g : Graph} : allowed .remove → id ≠ e.root →
      e.graph.removeNode id = .ok (removed, g) → Move allowed e 0 (e.dropping id removed g)
  | addChild {e : Engine σ} {parent child : NodeId} {g : Graph} : allowed .relink →
      e.graph.addChild parent child = .ok (true, g) → Move allowed e 0 ({ e with graph := g }.pendEval child)
  | removeChild {e : Engine σ} {parent child : NodeId} {g : Graph} : allowed .relink →
      e.graph.removeChild parent child = .ok (true, g) → Move allowed e 0 ({ e with graph := g }.pendEval child)
  | setParents {e : Engine σ} {id : NodeId} {parents : List NodeId} {g : Graph} : allowed .relink →
      e.graph.setParents id parents = .ok g → Move allowed e 0 ({ e with graph := g }.pendEval id)
  | write {e e' : Engine σ} {a : Act} : allowed a → Write a e e' → Move allowed e 0 e'
  | share {e : Engine σ} {id : NodeId} {n : Node} {v : Value} : allowed (.share n) → e.graph.node? id = some n →
      n.kind = .constant → n.value? = some v → Move allowed e 0 { e with constants := e.constants.insert v id }
  | register {e : Engine σ} {o : Observer σ} {n : Node} : allowed .register → e.graph.node? o.node = some n →
      Move allowed e 0 (e.register o).2
  | unregister (e : Engine σ) (id : ObserverId) : allowed .unregister → Move allowed e 0 (e.removeObserver id).2
  | settle (e : Engine σ) : allowed .settle → Move allowed e 0 e.drainUpdate.2.2
  | evaluate {e : Engine σ} : allowed .evaluate → e.graph.update = .empty → Move allowed e 0 e.evaluating
  /-- The queued work is taken up, and the report is given out. -/
  | takeTasks (e : Engine σ) : allowed .work → Move allowed e 0 { e with tasks := [], report := .none }
  | reset (e : Engine σ) (id : NodeId) : allowed .work →
      Move allowed e 0 { e with graph := e.graph.modify id fun n => { n with provoked := false } }
  | recast (e : Engine σ) (casts : CastRegistry) : allowed .recast → Move allowed e 0 { e with casts := casts }
  /-- What no node depends on is changed. -/
  | adjust (e : Engine σ) (groupLevel : Nat) (host : σ) : allowed .adjust →
      Move allowed e 0 { e with groupLevel := groupLevel, host := host }

/-- Any number of moves of allowed kinds, with the number of nodes that they create together. -/
inductive Moves (allowed : Act → Prop) : Engine σ → Nat → Engine σ → Prop
  | refl (e : Engine σ) : Moves allowed e 0 e
  | tail {e e' e'' : Engine σ} {i j : Nat} :
      Moves allowed e i e' → Move allowed e' j e'' → Moves allowed e (i + j) e''

variable {allowed : Act → Prop}

theorem Move.mono {allowed' : Act → Prop} {i : Nat} (h : Move allowed e i e') (ha : ∀ a, allowed a → allowed' a) :
    Move allowed' e i e' := by
  cases h with
  | create hc hadd => exact .create (ha _ hc) hadd
  | addScope hc => exact .addScope _ (ha _ hc)
  | rename hc hr => exact .rename (ha _ hc) hr
  | remove hc hid hr => exact .remove (ha _ hc) hid hr
  | addChild hc hr => exact .addChild (ha _ hc) hr
  | removeChild hc hr => exact .removeChild (ha _ hc) hr
  | setParents hc hr => exact .setParents (ha _ hc) hr
  | write hc hw => exact .write (ha _ hc) hw
  | share hc hn hk hv => exact .share (ha _ hc) hn hk hv
  | register hc hn => exact .register (ha _ hc) hn
  | unregister _ hc => exact .unregister _ _ (ha _ hc)
  | settle hc => exact .settle _ (ha _ hc)
  | evaluate hc hu => exact .evaluate (ha _ hc) hu
  | takeTasks hc => exact .takeTasks _ (ha _ hc)
  | reset _ hc => exact .reset _ _ (ha _ hc)
  | recast _ hc => exact .recast _ _ (ha _ hc)
  | adjust _ _ hc => exact .adjust _ _ _ (ha _ hc)

theorem Moves.mono {allowed' : Act → Prop} {i : Nat} (h : Moves allowed e i e') (ha : ∀ a, allowed a → allowed' a) :
    Moves allowed' e i e' := by
  induction h with
  | refl => exact .refl _
  | tail _ hm ih => exact ih.tail (hm.mono ha)

theorem Move.moves {i : Nat} (h : Move allowed e i e') : Moves allowed e i e' := by
  have hs := Moves.tail (.refl e) h
  rwa [Nat.zero_add] at hs

theorem Moves.trans {e'' : Engine σ} {i j : Nat} (h : Moves allowed e i e') (h' : Moves allowed e' j e'') :
    Moves allowed e (i + j) e'' := by
  induction h' with
  | refl => exact h
  | tail _ hmove ih =>
    rw [← Nat.add_assoc]
    exact ih.tail hmove

/-- What every move keeps, any number of moves keep. -/
theorem Moves.induction {I : Nat → Engine σ → Prop} {i : Nat} (h : Moves allowed e i e') (hI : I created e)
    (hmove : ∀ {created i : Nat} {e e' : Engine σ}, I created e → Move allowed e i e' → I (created + i) e') :
    I (created + i) e' := by
  induction h with
  | refl => exact hI
  | tail _ hm ih =>
    rw [← Nat.add_assoc]
    exact hmove ih hm

/-! ### Moves and steps -/

/-- A write takes the schedule of an engine through a step. -/
theorem Write.step {a : Act} (h : Write a e e') : Schedule.Step e.schedule 0 e'.schedule := by
  have hd : ∀ {n : Node}, (∃ t, n.kind = .input t) ∨ n.kind = .triggerInput ∨ n.kind = .constant →
      n.kind.isDerived = false := by
    rintro n (⟨t, hk⟩ | hk | hk) <;> rw [hk] <;> rfl
  cases h with
  | input hn hk _ => exact .write (.stage (s := e.schedule) _ hn (hd (.inl ⟨_, hk⟩)))
  | withdraw hn hk => exact .write (.withdraw (s := e.schedule) hn (hd (.inl ⟨_, hk⟩)))
  | provoke hn hk => exact .write (.stage (s := e.schedule) _ hn (hd (.inr (.inl hk))))
  | fold hn hk _ => exact .write (.stage (s := e.schedule) _ hn (hd (.inr (.inr hk))))

/-- A move takes the schedule of an engine through a step, unless it leaves the schedule as it is. -/
theorem Move.steps {i : Nat} (h : Move allowed e i e') : Schedule.Steps e.schedule i e'.schedule := by
  cases h with
  | create _ ha => exact (Schedule.Step.create (s := e.schedule) ha).steps
  | addScope => exact (Schedule.Step.addScope e.schedule).steps
  | rename _ hr => exact (Schedule.Step.rename (s := e.schedule) hr).steps
  | remove _ _ hr => exact (Schedule.Step.remove (s := e.schedule) hr).steps
  | addChild _ ha => exact (Schedule.Step.addChild (s := e.schedule) ha).steps
  | removeChild _ hr => exact (Schedule.Step.removeChild (s := e.schedule) hr).steps
  | setParents _ hp => exact (Schedule.Step.setParents (s := e.schedule) hp).steps
  | write _ hw => exact hw.step.steps
  | unregister id =>
    unfold removeObserver
    split <;> exact .refl _
  | settle =>
    unfold drainUpdate
    split
    · exact .refl _
    · exact (Schedule.Step.settle e.schedule).steps
  | evaluate _ hu => exact (Schedule.Step.evaluate (s := e.schedule) hu).steps
  | reset id => exact (Schedule.Step.reset e.schedule id).steps
  | share | register | takeTasks | recast | adjust => exact .refl _

/-- Moves take the schedule of an engine through steps that create as many nodes. -/
theorem Moves.steps {i : Nat} (h : Moves allowed e i e') : Schedule.Steps e.schedule i e'.schedule := by
  induction h with
  | refl => exact .refl _
  | tail _ hm ih => exact ih.trans hm.steps

/-! ### Creating nodes -/

/-- A new node is added to the graph and computed for the first time. -/
theorem createNode_eq_ok {spec : NodeSpec} {parents : List NodeId} {id : NodeId}
    (h : e.createNode spec parents = .ok (id, e')) :
    ∃ g, e.graph.addNode (.fresh spec.kind parents
        (if spec.kind.isTrigger || !spec.kind.isData then none else spec.initial?)) = .ok (id, g) ∧
      e' = { e with graph := computeFirst g id } := by
  unfold createNode at h
  simp only [bind_eq_ok, pure_eq_ok, Prod.mk.injEq] at h
  obtain ⟨_, -, ⟨id', g⟩, hadd, rfl, rfl⟩ := h
  exact ⟨g, hadd, rfl⟩

theorem createNode_move {spec : NodeSpec} {parents : List NodeId} {id : NodeId} (ha : allowed .create)
    (h : e.createNode spec parents = .ok (id, e')) : Move allowed e 1 e' := by
  obtain ⟨g, hadd, rfl⟩ := createNode_eq_ok h
  exact .create ha hadd

/-- A new node has an id that was not in use. -/
theorem node?_of_createNode {spec : NodeSpec} {parents : List NodeId} {id : NodeId} (hs : e.graph.store.Sound)
    (h : e.createNode spec parents = .ok (id, e')) : e.graph.node? id = none := by
  obtain ⟨g, hadd, -⟩ := createNode_eq_ok h
  obtain ⟨d, -, ha, -⟩ := addNode_eq_ok hs hadd
  exact ha.fresh

private theorem createNamed_moves {scope : NodeId} {name : String} {spec : NodeSpec} {parents : List NodeId}
    {id : NodeId} (ha : allowed .create) (hr : allowed .rename)
    (h : e.createNamed scope name spec parents = .ok (id, e')) : Moves allowed e 1 e' := by
  unfold createNamed at h
  simp only [bind_eq_ok, pure_eq_ok, Prod.mk.injEq] at h
  obtain ⟨_, -, ⟨id', created⟩, hc, g, hset, rfl, rfl⟩ := h
  exact (createNode_move ha hc).moves.tail (.rename hr hset)

private theorem createScope_moves {scope : NodeId} {name : String} {id : NodeId} (ha : allowed .addScope)
    (hr : allowed .rename) (h : e.createScope scope name = .ok (id, e')) : Moves allowed e 1 e' := by
  unfold createScope at h
  simp only [bind_eq_ok, pure_eq_ok, Prod.mk.injEq] at h
  obtain ⟨_, -, g, hset, rfl, rfl⟩ := h
  exact (Move.addScope e ha).moves.tail (.rename (e := { e with graph := e.graph.addScope.2 }) hr hset)

/-- Only a new formula is computed when it is created. -/
theorem computeFirst_of_kind {g : Graph} {id : NodeId} {n : Node} (hn : g.node? id = some n)
    (hk : ∀ t rule, n.kind ≠ .formula t rule) : computeFirst g id = g := by
  unfold computeFirst
  rw [hn]
  simp only
  split
  · next hk' _ => exact absurd hk' (hk _ _)
  · rfl

private theorem defineFunction_moves {scope : NodeId} {group : FunctionGroup} {id : NodeId} (hs : e.graph.store.Sound)
    (ha : allowed .create) (hr : allowed .rename) (h : e.defineFunction scope group = .ok (id, e')) :
    Moves allowed e 1 e' := by
  unfold defineFunction at h
  simp only [bind_eq_ok, pure_eq_ok, Prod.mk.injEq] at h
  obtain ⟨_, -, ⟨id', g⟩, hadd, g', hset, rfl, rfl⟩ := h
  obtain ⟨d, -, hadded, -⟩ := addNode_eq_ok hs hadd
  have hmove : Move allowed e 1 { e with graph := g } := by
    have hcreate : Move allowed e 1 _ := .create ha hadd
    rwa [computeFirst_of_kind hadded.self (fun _ _ hk => NodeKind.noConfusion hk)] at hcreate
  exact hmove.moves.tail (.rename (e := { e with graph := g }) hr hset)

/-! ### Editing links and names -/

theorem removeNode_eq_ok {id : NodeId} (h : e.removeNode id = .ok e') :
    id ≠ e.root ∧ ∃ removed g, e.graph.removeNode id = .ok (removed, g) ∧ e' = e.dropping id removed g := by
  unfold removeNode at h
  split at h
  · cases h
  · next hid =>
    simp only [bind_eq_ok, pure_eq_ok] at h
    obtain ⟨⟨removed, g⟩, hr, rfl⟩ := h
    exact ⟨hid, removed, g, hr, rfl⟩

theorem removeNode_move {id : NodeId} (ha : allowed .remove) (h : e.removeNode id = .ok e') :
    Move allowed e 0 e' := by
  obtain ⟨hid, removed, g, hr, rfl⟩ := removeNode_eq_ok h
  exact .remove ha hid hr

private theorem addChild_moves {parent child : NodeId} {added : Bool} (ha : allowed .relink)
    (h : e.addChild parent child = .ok (added, e')) : Moves allowed e 0 e' := by
  unfold addChild at h
  simp only [bind_eq_ok, pure_eq_ok, Prod.mk.injEq] at h
  obtain ⟨⟨added', g⟩, hadd, rfl, rfl⟩ := h
  cases added' with
  | false => exact .refl _
  | true => exact (Move.addChild ha hadd).moves

private theorem removeChild_moves {parent child : NodeId} {removed : Bool} (ha : allowed .relink)
    (h : e.removeChild parent child = .ok (removed, e')) : Moves allowed e 0 e' := by
  unfold removeChild at h
  simp only [bind_eq_ok, pure_eq_ok, Prod.mk.injEq] at h
  obtain ⟨⟨removed', g⟩, hr, rfl, rfl⟩ := h
  cases removed' with
  | false => exact .refl _
  | true => exact (Move.removeChild ha hr).moves

private theorem setParents_move {id : NodeId} {parents : List NodeId} (ha : allowed .relink)
    (h : e.setParents id parents = .ok e') : Move allowed e 0 e' := by
  unfold setParents at h
  simp only [bind_eq_ok, pure_eq_ok] at h
  obtain ⟨g, hg, rfl⟩ := h
  exact .setParents ha hg

theorem exists_of_setScope {id scope : NodeId} {name : String} (h : e.setScope id scope name = .ok e') :
    ∃ g, e.graph.setScope id scope name = .ok g ∧ e' = { e with graph := g } := by
  unfold setScope at h
  simp only [bind_eq_ok, pure_eq_ok] at h
  obtain ⟨g, hg, rfl⟩ := h
  exact ⟨g, hg, rfl⟩

private theorem setScope_move {id scope : NodeId} {name : String} (ha : allowed .rename)
    (h : e.setScope id scope name = .ok e') : Move allowed e 0 e' := by
  obtain ⟨g, hg, rfl⟩ := exists_of_setScope h
  exact .rename ha hg

/-! ### Writes from outside -/

/-- Setting an input stages the value, or withdraws what was staged if the input holds the value already. -/
theorem setInput_eq_ok {id : NodeId} {v : Value} {changed : Bool} (h : e.setInput id v = .ok (changed, e')) :
    ∃ n, e.graph.node? id = some n ∧ n.kind = .input v.dataType ∧
      ((e' = e ∧ n.staged? = if n.value? = some v then none else some (.value v)) ∨
        (n.value? = some v ∧ e' = e.withdrawing id) ∨
        (n.value? ≠ some v ∧ e' = e.staging id n (.value v))) := by
  unfold setInput at h
  simp only [bind_eq_ok, node_eq_ok_iff, Engine.node] at h
  obtain ⟨n, hn, h⟩ := h
  refine ⟨n, hn, ?_⟩
  split at h
  next t hk =>
    split at h
    · cases h
    next ht =>
    refine ⟨by simp [hk, Decidable.not_not.1 ht], ?_⟩
    split at h
    next hv =>
      split at h <;> cases h
      · exact .inl ⟨rfl, by rwa [if_pos hv]⟩
      · exact .inr (.inl ⟨hv, rfl⟩)
    next hv =>
      split at h <;> cases h
      · exact .inl ⟨rfl, by rwa [if_neg hv]⟩
      · exact .inr (.inr ⟨hv, rfl⟩)
  · cases h

/-- Provoking a trigger input stages that, once. -/
theorem provoke_eq_ok {id : NodeId} {changed : Bool} (h : e.provoke id = .ok (changed, e')) :
    ∃ n, e.graph.node? id = some n ∧ n.kind = .triggerInput ∧
      ((e' = e ∧ n.staged? ≠ none) ∨ (n.staged? = none ∧ e' = e.staging id n .provoke)) := by
  unfold provoke at h
  simp only [bind_eq_ok, node_eq_ok_iff, Engine.node] at h
  obtain ⟨n, hn, h⟩ := h
  refine ⟨n, hn, ?_⟩
  split at h
  next hk =>
    refine ⟨hk, ?_⟩
    split at h <;> cases h
    next hs => exact .inl ⟨rfl, hs⟩
    next hs => exact .inr ⟨Decidable.not_not.1 hs, rfl⟩
  · cases h

private theorem setInput_write {id : NodeId} {v : Value} {changed : Bool} (h : e.setInput id v = .ok (changed, e')) :
    e' = e ∨ ∃ a, (a = .stage id (.value v) ∨ a = .withdraw) ∧ Write a e e' := by
  obtain ⟨n, hn, hk, ⟨rfl, -⟩ | ⟨-, rfl⟩ | ⟨hv, rfl⟩⟩ := setInput_eq_ok h
  · exact .inl rfl
  · exact .inr ⟨_, .inr rfl, .withdraw hn hk⟩
  · exact .inr ⟨_, .inl rfl, .input hn hk hv⟩

private theorem provoke_write {id : NodeId} {changed : Bool} (h : e.provoke id = .ok (changed, e')) :
    e' = e ∨ ∃ a, a = .stage id .provoke ∧ Write a e e' := by
  obtain ⟨n, hn, hk, ⟨rfl, -⟩ | ⟨-, rfl⟩⟩ := provoke_eq_ok h
  · exact .inl rfl
  · exact .inr ⟨_, rfl, .provoke hn hk⟩

private theorem setConstant_write {id : NodeId} {v : Value} {changed : Bool}
    (h : e.setConstant id v = .ok (changed, e')) :
    e' = e ∨ ∃ a, a = .stage id (.value v) ∧ Write a e e' := by
  unfold setConstant at h
  simp only [bind_eq_ok, node_eq_ok_iff, Engine.node] at h
  obtain ⟨n, hn, _, hf, h⟩ := h
  obtain ⟨hk, ht⟩ : n.kind = .constant ∧ ∀ old, n.value? = some old → v.dataType = old.dataType := by
    unfold checkFold at hf
    split at hf
    · next old hk hold =>
      refine ⟨hk, fun old' hold' => ?_⟩
      rw [hold, Option.some.injEq] at hold'
      split at hf
      · next ht => rw [← hold', ht]
      · cases hf
    · next hk hnone =>
      refine ⟨hk, fun old hold => ?_⟩
      rw [hnone] at hold
      cases hold
    · cases hf
  split at h <;> cases h
  · exact .inl rfl
  · exact .inr ⟨_, rfl, .fold hn hk ht⟩

private theorem applyEdit_write {edit : Edit} {changed : Bool} (h : e.applyEdit edit = .ok (changed, e')) :
    e' = e ∨ ∃ a, ((∃ id s, a = .stage id s) ∨ a = .withdraw) ∧ Write a e e' := by
  cases edit with
  | setValue id v =>
    rcases setInput_write h with hsame | ⟨a, rfl | rfl, hw⟩
    · exact .inl hsame
    · exact .inr ⟨_, .inl ⟨_, _, rfl⟩, hw⟩
    · exact .inr ⟨_, .inr rfl, hw⟩
  | provoke id =>
    rcases provoke_write h with hsame | ⟨a, rfl, hw⟩
    · exact .inl hsame
    · exact .inr ⟨_, .inl ⟨_, _, rfl⟩, hw⟩

private theorem moves_of_write (h : e' = e ∨ ∃ a, allowed a ∧ Write a e e') : Moves allowed e 0 e' := by
  rcases h with rfl | ⟨a, ha, h⟩
  · exact .refl _
  · exact (Move.write ha h).moves

/-- The edits that observers asked for are writes. -/
private theorem applyEdits_induction {P : Engine σ → Prop} (e : Engine σ) (edits : List Edit) (h : P e)
    (hwrite : ∀ {f f' : Engine σ} {a : Act}, P f → ((∃ id s, a = .stage id s) ∨ a = .withdraw) → Write a f f' →
      P f') : P (e.applyEdits edits).2 := by
  unfold applyEdits
  induction edits using List.reverseRecOn with
  | nil => exact h
  | append_singleton edits edit ih =>
    rw [List.foldl_append, List.foldl_cons, List.foldl_nil]
    split
    · next rejected e₁ hfold =>
      rw [hfold] at ih
      split
      · next changed next happ =>
        rcases applyEdit_write happ with rfl | ⟨a, ha, hw⟩
        · exact ih
        · exact hwrite ih ha hw
      · exact ih

/-- The edits of observers are moves that stage or withdraw changes. -/
theorem applyEdits_moves (e : Engine σ) (edits : List Edit) (hs : ∀ id s, allowed (.stage id s))
    (hw : allowed .withdraw) : Moves allowed e 0 (e.applyEdits edits).2 :=
  applyEdits_induction (P := fun f => Moves allowed e 0 f) e edits (.refl e) fun hm ha hwrite => hm.tail <| by
    obtain ⟨id, s, rfl⟩ | rfl := ha
    · exact .write (hs id s) hwrite
    · exact .write hw hwrite

private theorem same_applyEdits (e : Engine σ) (edits : List Edit) :
    SameUpTo Node.evaluated e.graph (e.applyEdits edits).2.graph :=
  applyEdits_induction (P := fun f => SameUpTo Node.evaluated e.graph f.graph) e edits (.refl _ _) fun hs _ hw => by
    cases hw <;> exact hs.trans (.modify (fun _ => by rfl) _ _)

/-! ### Constants -/

/-- A constant that is not shared yet is created. -/
theorem createConstant {v : Value} {id : NodeId} (hs : e.graph.store.Sound)
    (h : e.createNode (.constant v) [] = .ok (id, e')) :
    ∃ n, e'.graph.node? id = some n ∧ n.kind = .constant ∧ n.value? = some v ∧ n.staged? = none := by
  obtain ⟨g, hadd, rfl⟩ := createNode_eq_ok h
  obtain ⟨d, -, ha, -⟩ := addNode_eq_ok hs hadd
  refine ⟨{ Node.fresh .constant [] (some v) with depth := d }, ?_, rfl, rfl, rfl⟩
  change (computeFirst g id).node? id = _
  rw [computeFirst_of_kind ha.self fun _ _ hk => NodeKind.noConfusion hk]
  exact ha.self

private theorem constant_moves {v : Value} {id : NodeId} (hs : e.graph.store.Sound) (ha : allowed .create)
    (hshare : ∀ n : Node, n.staged? = none → allowed (.share n)) (h : e.constant v = .ok (id, e')) :
    Moves allowed e (if e.config.dedupConstants && (e.shared? v).isSome then 0 else 1) e' := by
  unfold constant at h
  split at h
  · next other hother =>
    cases h
    split at hother
    · next hd => rw [hd, hother]; exact .refl _
    · cases hother
  · next hother =>
    simp only [bind_eq_ok] at h
    obtain ⟨⟨id', made⟩, hc, h⟩ := h
    have hcount : (if e.config.dedupConstants && (e.shared? v).isSome then 0 else 1) = 1 := by
      split at hother
      · simp [hother]
      · next hd => simp [hd]
    rw [hcount]
    split at h <;> cases h
    · obtain ⟨n, hn, hk, hv, hst⟩ := createConstant hs hc
      exact (createNode_move ha hc).moves.tail (.share (hshare n hst) hn hk hv)
    · exact (createNode_move ha hc).moves

/-- A constant is shared or given back, or gives way to an equal one. -/
theorem intern_eq_ok {id other : NodeId} (h : e.intern id = .ok (other, e')) :
    ∃ n, e.graph.node? id = some n ∧ n.kind = .constant ∧
      ((other = id ∧ e' = e) ∨
        (∃ v, n.value? = some v ∧ other ≠ id ∧ e.shared? v = some other ∧ e.removeNode id = .ok e') ∨
        ∃ v, n.value? = some v ∧ other = id ∧ e.shared? v = none ∧
          e' = { e with constants := e.constants.insert v id }) := by
  unfold intern at h
  simp only [bind_eq_ok, node_eq_ok_iff, Engine.node] at h
  obtain ⟨n, hn, h⟩ := h
  refine ⟨n, hn, ?_⟩
  split at h
  · next hk _ =>
    cases h
    exact ⟨hk, .inl ⟨rfl, rfl⟩⟩
  · next v hk hv =>
    refine ⟨hk, ?_⟩
    split at h
    · next shared hs =>
      split at h
      · cases h
        exact .inl ⟨rfl, rfl⟩
      · next hne =>
        simp only [bind_eq_ok, pure_eq_ok, Prod.mk.injEq] at h
        obtain ⟨e'', hr, rfl, rfl⟩ := h
        exact .inr (.inl ⟨v, hv, fun he => hne (.inl he), hs, hr⟩)
    · next hs =>
      cases h
      exact .inr (.inr ⟨v, hv, rfl, hs, rfl⟩)
  · cases h

private theorem intern_moves {id other : NodeId} (hr : allowed .remove)
    (hshare : ∀ n, e.graph.node? id = some n → allowed (.share n)) (h : e.intern id = .ok (other, e')) :
    Moves allowed e 0 e' := by
  obtain ⟨n, hn, hk, ⟨-, rfl⟩ | ⟨v, -, -, -, hremove⟩ | ⟨v, hv, rfl, -, rfl⟩⟩ := intern_eq_ok h
  · exact .refl _
  · exact (removeNode_move hr hremove).moves
  · exact (Move.share (hshare n hn) hn hk hv).moves

/-! ### Conversions and calls -/

/-- A conversion gives back the node it was given, if this is of the target type, or makes a new one by the rule found
for the two types, unless the node is a trigger. -/
theorem castBy_eq_ok {id other : NodeId} {target : DataType} {rule? : DataType → Option CastRule}
    (h : e.castBy id target rule? = .ok (other, e')) :
    ∃ n source, e.graph.node? id = some n ∧ n.dataType? = some source ∧
      ((source = target ∧ other = id ∧ e' = e) ∨
        ∃ rule, source ≠ target ∧ source ≠ .trigger ∧ rule? source = some rule ∧
          e.createNode (rule.nodeSpec target) [id] = .ok (other, e')) := by
  unfold castBy at h
  simp only [bind_eq_ok] at h
  obtain ⟨source, hsource, h⟩ := h
  unfold dataType at hsource
  simp only [bind_eq_ok, node_eq_ok_iff, Engine.node] at hsource
  obtain ⟨n, hn, hsource⟩ := hsource
  have htype : n.dataType? = some source := by
    split at hsource
    · next t ht =>
      cases hsource
      exact ht
    · cases hsource
  refine ⟨n, source, hn, htype, ?_⟩
  split at h
  · next hsame =>
    cases h
    exact .inl ⟨hsame, rfl, rfl⟩
  · next hne =>
    split at h
    · next rule hrule =>
      unfold convert at h
      split at h
      · cases h
      · next htrigger => exact .inr ⟨rule, hne, htrigger, hrule, h⟩
    · cases h

/-- What a conversion makes is a new node. -/
theorem castBy_cases {id other : NodeId} {target : DataType} {rule? : DataType → Option CastRule}
    (hs : e.graph.store.Sound) (ha : allowed .create) (h : e.castBy id target rule? = .ok (other, e')) :
    (other = id ∧ e' = e) ∨ (other ≠ id ∧ Move allowed e 1 e') := by
  obtain ⟨n, -, hn, -, ⟨-, hsame⟩ | ⟨rule, -, -, -, hc⟩⟩ := castBy_eq_ok h
  · exact .inl hsame
  · refine .inr ⟨?_, createNode_move ha hc⟩
    rintro rfl
    rw [node?_of_createNode hs hc] at hn
    cases hn

/-- Converting one more argument creates a node for each that is listed as made. -/
theorem add_moves {w : Wiring σ} (hs : w.engine.graph.store.Sound) (ha : allowed .create) (arg : NodeId × DataType) :
    ∃ j, Moves allowed w.engine j (w.add arg).engine ∧ (w.add arg).made.length = w.made.length + j := by
  unfold Wiring.add
  split
  · exact ⟨0, .refl _, rfl⟩
  · split
    · exact ⟨0, .refl _, rfl⟩
    · next id next hcast =>
      rcases castBy_cases hs ha hcast with ⟨rfl, rfl⟩ | ⟨hne, hmove⟩
      · exact ⟨0, .refl _, by rw [if_pos rfl]; rfl⟩
      · exact ⟨1, hmove.moves, by rw [if_neg hne]; rfl⟩

/-- Converting the arguments of a call creates the nodes that are listed as made. -/
theorem wire_moves (h : e.schedule.Sound created) (ha : allowed .create) (d : FunctionDef) (args : List NodeId) :
    Moves allowed e (e.wire d args).made.length (e.wire d args).engine := by
  unfold wire
  simp only
  generalize args.zip ((List.range args.length).filterMap d.paramType?) = l
  induction l using List.reverseRecOn with
  | nil => exact .refl _
  | append_singleton l arg ih =>
    rw [List.foldl_append, List.foldl_cons, List.foldl_nil]
    obtain ⟨j, hmove, hlen⟩ := add_moves (h.steps ih.steps).graph.store ha arg
    rw [hlen]
    exact ih.trans hmove

theorem removeAll_moves (e : Engine σ) (hr : allowed .remove) (ids : List NodeId) :
    Moves allowed e 0 (e.removeAll ids) := by
  unfold removeAll
  induction ids using List.reverseRecOn with
  | nil => exact .refl _
  | append_singleton ids id ih =>
    rw [List.foldl_append, List.foldl_cons, List.foldl_nil]
    split
    · next hremove => exact ih.tail (removeNode_move hr hremove)
    · exact ih

private theorem build_moves (h : e.schedule.Sound created) (ha : allowed .create) (hr : allowed .remove)
    (d : FunctionDef) (args : List NodeId) :
    Moves allowed e (e.createdByBuild d args) (e.build d args).2 := by
  have hwire : Moves allowed e _ _ := wire_moves h ha d args
  unfold createdByBuild build
  simp only
  cases hc : (e.wire d args).args.bind fun wired => (e.wire d args).engine.createNode d.nodeSpec wired with
  | error _ => exact hwire.trans (removeAll_moves _ hr _)
  | ok p =>
    obtain ⟨wired, -, hnode⟩ := bind_eq_ok.1 hc
    exact hwire.tail (createNode_move ha hnode)

/-- A call creates the nodes that it is said to create, be it refused or not. -/
theorem call_moves (h : e.schedule.Sound created) (ha : allowed .create) (hr : allowed .remove) (group : NodeId)
    (args : List NodeId) : Moves allowed e (e.createdByCall group args) (e.call group args).2 := by
  unfold call createdByCall
  cases e.resolveCall group args with
  | error _ => exact .refl _
  | ok r =>
    obtain ⟨d, index, distance, passthrough⟩ := r
    cases passthrough <;> cases args
    · exact build_moves h ha hr d _
    · exact build_moves h ha hr d _
    · exact build_moves h ha hr d _
    · exact .refl _

/-- A call that is not refused only creates nodes. -/
theorem moves_of_call_ok (h : e.schedule.Sound created) (ha : allowed .create) {group id : NodeId} {args : List NodeId}
    (hok : (e.call group args).1 = .ok id) : ∃ i, Moves allowed e i (e.call group args).2 := by
  have hbuild : ∀ {d : FunctionDef}, (e.build d args).1 = .ok id → ∃ i, Moves allowed e i (e.build d args).2 := by
    intro d hd
    have hwire : Moves allowed e _ _ := wire_moves h ha d args
    unfold build at hd ⊢
    simp only at hd ⊢
    split at hd
    · next hc =>
      obtain ⟨wired, -, hnode⟩ := bind_eq_ok.1 hc
      exact ⟨_, hwire.tail (createNode_move ha hnode)⟩
    · cases hd
  unfold call at hok ⊢
  cases hr : e.resolveCall group args with
  | error _ =>
    rw [hr] at hok
    cases hok
  | ok r =>
    rw [hr] at hok
    obtain ⟨d, index, distance, passthrough⟩ := r
    cases passthrough <;> cases args
    · exact hbuild hok
    · exact hbuild hok
    · exact hbuild hok
    · exact ⟨0, .refl e⟩

/-! ### Passes -/

theorem drainUpdate_steps (e : Engine σ) : Schedule.Steps e.schedule 0 e.drainUpdate.2.2.schedule :=
  Move.steps (Move.settle e trivial : Move (fun _ => True) e 0 _)

/-- After the depth update nothing is pending for it. -/
theorem update_drainUpdate (h : e.schedule.Sound created) : e.drainUpdate.2.2.graph.update = .empty := by
  unfold drainUpdate
  split
  · next hu => exact PendingSet.isEmpty_iff.1 hu
  · exact h.graph.settles.update_eq

/-- An evaluation settles depths, and then evaluates if anything is pending. -/
theorem drainEval_moves (h : e.schedule.Sound created) (hs : allowed .settle) (he : allowed .evaluate) :
    Moves allowed e 0 e.drainEval.2.2 := by
  have hupdate : Moves allowed e 0 e.drainUpdate.2.2 := (Move.settle e hs).moves
  have hempty := update_drainUpdate h
  unfold drainEval
  generalize e.drainUpdate = d at hupdate hempty
  obtain ⟨changes, events, e₁⟩ := d
  simp only
  split
  · exact hupdate
  · exact hupdate.tail (.evaluate he hempty)

theorem drainEval_steps (h : e.schedule.Sound created) : Schedule.Steps e.schedule 0 e.drainEval.2.2.schedule :=
  Moves.steps (drainEval_moves h trivial trivial : Moves (fun _ => True) e 0 _)

/-- Doing queued work changes no more than whether triggers are provoked. -/
theorem same_perform (observers : ObserverTable σ) (f : Finalization σ) (task : Task) :
    SameUpTo Node.evaluated f.graph (f.perform observers task).graph := by
  unfold Finalization.perform
  split
  · split
    · exact .refl _ _
    · exact .modify (fun _ => by rfl) f.graph _
  · split <;> exact .refl _ _

/-- Doing any amount of queued work changes no more than whether triggers are provoked. -/
theorem same_foldl_perform (observers : ObserverTable σ) (tasks : List Task) (f : Finalization σ) :
    SameUpTo Node.evaluated f.graph (tasks.foldl (Finalization.perform observers) f).graph := by
  induction tasks generalizing f with
  | nil => exact .refl _ _
  | cons task tasks ih => exact (same_perform observers f task).trans (ih _)

private theorem perform_moves (e : Engine σ) (hw : allowed .work) (ha : allowed .adjust) (f : Finalization σ)
    (task : Task) :
    Moves allowed { e with graph := f.graph, host := f.host } 0
      { e with graph := (f.perform e.observers task).graph, host := (f.perform e.observers task).host } := by
  unfold Finalization.perform
  split
  · split
    · exact .refl _
    · exact (Move.reset { e with graph := f.graph, host := f.host } _ hw).moves
  · split
    · exact .refl _
    · exact (Move.adjust { e with graph := f.graph, host := f.host } e.groupLevel _ ha).moves

/-- The queued work resets triggers and changes the state of the host. -/
theorem foldl_perform_moves (e : Engine σ) (hw : allowed .work) (ha : allowed .adjust) (tasks : List Task)
    (f : Finalization σ) :
    Moves allowed { e with graph := f.graph, host := f.host } 0 { e with
      graph := (tasks.foldl (Finalization.perform e.observers) f).graph
      host := (tasks.foldl (Finalization.perform e.observers) f).host } := by
  induction tasks generalizing f with
  | nil => exact .refl _
  | cons task tasks ih => exact (perform_moves e hw ha f task).trans (ih _)

/-- The acts that the end of a pass takes an engine through. -/
def Act.EndsPass (a : Act) : Prop := a = .work ∨ a = .adjust ∨ a = .withdraw ∨ ∃ id s, a = .stage id s

/-- The end of a pass takes up the queued work, resets triggers and makes the edits that observers asked for. -/
theorem finalize_moves (e : Engine σ) (ha : ∀ a, Act.EndsPass a → allowed a) : Moves allowed e 0 e.finalize.2.2 := by
  have hwork : allowed .work := ha _ (.inl rfl)
  have hadjust : allowed .adjust := ha _ (.inr (.inl rfl))
  let e₀ : Engine σ := { e with tasks := [], report := .none }
  let f := e.tasks.foldl (Finalization.perform e.observers) ⟨e.graph, e.host, [], 0, []⟩
  have hstart : Moves allowed e 0 e₀ := (Move.takeTasks e hwork).moves
  have htasks : Moves allowed e₀ 0 { e₀ with graph := f.graph, host := f.host } :=
    foldl_perform_moves e₀ hwork hadjust e.tasks ⟨e.graph, e.host, [], 0, []⟩
  refine (hstart.trans htasks).trans (applyEdits_moves _ f.edits (fun id s => ?_) ?_)
  · exact ha _ (.inr (.inr (.inr ⟨id, s, rfl⟩)))
  · exact ha _ (.inr (.inr (.inl rfl)))

/-- The end of a pass changes nothing that evaluation depends on, but for what is staged. -/
theorem same_finalize (e : Engine σ) : SameUpTo Node.evaluated e.graph e.finalize.2.2.graph :=
  (same_foldl_perform e.observers e.tasks ⟨e.graph, e.host, [], 0, []⟩).trans (same_applyEdits _ _)

/-- A pass settles depths, evaluates, and does the queued work, unless it is left to the end of a group. -/
theorem runPass_moves (h : e.schedule.Sound created) (hs : allowed .settle) (he : allowed .evaluate)
    (ha : ∀ a, Act.EndsPass a → allowed a) : Moves allowed e 0 e.runPass.2.2 := by
  unfold runPass
  split
  · exact .refl _
  · exact (drainEval_moves h hs he).trans (finalize_moves _ ha)

/-! ### Observers -/

private theorem onValue_move {id : NodeId} {callback : Callback σ} {o : ObserverId} (ha : allowed .register)
    (h : e.onValue id callback = .ok (o, e')) : Move allowed e 0 e' := by
  unfold onValue at h
  simp only [bind_eq_ok, node_eq_ok_iff, Engine.node] at h
  obtain ⟨n, hn, h⟩ := h
  split at h
  · cases h
  · cases h
    exact .register ha hn

private theorem onProvoked_move {id : NodeId} {callback : Callback σ} {o : ObserverId} (ha : allowed .register)
    (h : e.onProvoked id callback = .ok (o, e')) : Move allowed e 0 e' := by
  unfold onProvoked at h
  simp only [bind_eq_ok, node_eq_ok_iff, Engine.node] at h
  obtain ⟨n, hn, h⟩ := h
  split at h
  · cases h
    exact .register ha hn
  · cases h

/-! ### Refusals -/

private theorem moves_accept {r : Except GraphError (Engine σ)}
    (h : ∀ next, r = .ok next → Moves allowed e 0 next) : Moves allowed e 0 (e.accept r) := by
  cases r with
  | error _ => exact .refl _
  | ok next => exact h next rfl

private theorem moves_accept_map {α : Type} {r : Except GraphError (α × Engine σ)}
    (h : ∀ a next, r = .ok (a, next) → Moves allowed e 0 next) : Moves allowed e 0 (e.accept (r.map Prod.snd)) := by
  cases r with
  | error _ => exact .refl _
  | ok p => exact h p.1 p.2 rfl

private theorem moves_accept_count {α : Type} {r : Except GraphError (α × Engine σ)}
    (h : ∀ a next, r = .ok (a, next) → Moves allowed e 1 next) :
    Moves allowed e (Operation.created.count r) (e.accept (r.map Prod.snd)) := by
  cases r with
  | error _ => exact .refl _
  | ok p => exact h p.1 p.2 rfl

private theorem moves_accept_cast {id : NodeId} {r : Except GraphError (NodeId × Engine σ)}
    (h : ∀ other next, r = .ok (other, next) →
      (other = id ∧ next = e) ∨ (other ≠ id ∧ Move allowed e 1 next)) :
    Moves allowed e (Operation.created.countOther id r) (e.accept (r.map Prod.snd)) := by
  cases r with
  | error _ => exact .refl _
  | ok p =>
    obtain ⟨other, next⟩ := p
    rcases h other next rfl with ⟨rfl, rfl⟩ | ⟨hne, hmove⟩
    · simp only [Operation.created.countOther, if_pos]
      exact .refl _
    · simp only [Operation.created.countOther, if_neg hne]
      exact hmove.moves

end Engine

/-! ### All operations -/

/-- The operation shares no constant that waits for another value. -/
def Operation.IsSteady : Operation σ → Engine σ → Prop
  | intern id, e => ∀ n, e.graph.node? id = some n → n.IsSteady
  | _, _ => True

open Engine in
/-- The acts that an operation may take an engine through. -/
def Operation.Does : Operation σ → Engine σ → Act → Prop
  | createNode _ _, _, a | implicitCast _ _, _, a | explicitCast _ _, _, a => a = .create
  | createNamed _ _ _ _, _, a | defineFunction _ _, _, a => a = .create ∨ a = .rename
  | createScope _ _, _, a => a = .addScope ∨ a = .rename
  | constant _, _, a => a = .create ∨ ∃ n, a = .share n ∧ n.staged? = none
  | intern id, e, a => a = .remove ∨ ∃ n, a = .share n ∧ e.graph.node? id = some n
  | call _ _, _, a => a = .create ∨ a = .remove
  | removeNode _, _, a => a = .remove
  | addChild _ _, _, a | removeChild _ _, _, a | setParents _ _, _, a => a = .relink
  | setScope _ _ _, _, a => a = .rename
  | setInput id v, _, a => a = .stage id (.value v) ∨ a = .withdraw
  | setConstant id v, _, a => a = .stage id (.value v)
  | provoke id, _, a => a = .stage id .provoke
  | onValue _ _, _, a | onProvoked _ _, _, a => a = .register
  | removeObserver _, _, a => a = .unregister
  | setCasts _, _, a => a = .recast
  | drainUpdate, _, a => a = .settle
  | drainEval, _, a => a = .settle ∨ a = .evaluate
  | finalize, _, a => a.EndsPass
  | runPass, _, a | closeGroup, _, a => a = .settle ∨ a = .evaluate ∨ a.EndsPass
  | openGroup, _, a | abandonGroup, _, a | setHost _, _, a => a = .adjust

open Engine in
/-- Every operation takes an engine through moves that create as many nodes as it does. -/
theorem Operation.moves (op : Operation σ) (h : e.schedule.Sound created) :
    Moves (op.Does e) e (op.created e) (op.apply e) := by
  have hstore := h.graph.store
  cases op with
  | createNode spec parents => exact moves_accept_count fun _ _ hr => Move.moves (createNode_move rfl hr)
  | createNamed scope name spec parents =>
    exact moves_accept_count fun _ _ hr => createNamed_moves (.inl rfl) (.inr rfl) hr
  | createScope scope name => exact moves_accept_count fun _ _ hr => createScope_moves (.inl rfl) (.inr rfl) hr
  | defineFunction scope group =>
    exact moves_accept_count fun _ _ hr => defineFunction_moves hstore (.inl rfl) (.inr rfl) hr
  | constant v =>
    change Moves _ _ (if _ then 0 else Operation.created.count (e.constant v))
      (e.accept ((e.constant v).map Prod.snd))
    cases hc : e.constant v with
    | error _ =>
      rw [Operation.created.count, ite_self]
      exact .refl _
    | ok p => exact constant_moves hstore (.inl rfl) (fun n hn => .inr ⟨n, rfl, hn⟩) hc
  | intern id => exact moves_accept_map fun _ _ hr => intern_moves (.inl rfl) (fun n hn => .inr ⟨n, rfl, hn⟩) hr
  | call group args => exact call_moves h (.inl rfl) (.inr rfl) group args
  | implicitCast id target => exact moves_accept_cast fun _ _ hr => castBy_cases hstore rfl hr
  | explicitCast id target => exact moves_accept_cast fun _ _ hr => castBy_cases hstore rfl hr
  | removeNode id => exact moves_accept fun _ hr => Move.moves (removeNode_move rfl hr)
  | addChild parent child => exact moves_accept_map fun _ _ hr => addChild_moves rfl hr
  | removeChild parent child => exact moves_accept_map fun _ _ hr => removeChild_moves rfl hr
  | setParents id parents => exact moves_accept fun _ hr => Move.moves (setParents_move rfl hr)
  | setScope id scope name => exact moves_accept fun _ hr => Move.moves (setScope_move rfl hr)
  | setInput id v => exact moves_accept_map fun _ _ hr => moves_of_write (setInput_write hr)
  | setConstant id v => exact moves_accept_map fun _ _ hr => moves_of_write (setConstant_write hr)
  | provoke id => exact moves_accept_map fun _ _ hr => moves_of_write (provoke_write hr)
  | onValue id callback => exact moves_accept_map fun _ _ hr => Move.moves (onValue_move rfl hr)
  | onProvoked id callback => exact moves_accept_map fun _ _ hr => Move.moves (onProvoked_move rfl hr)
  | removeObserver id => exact Move.moves (.unregister e id rfl)
  | setCasts casts => exact Move.moves (.recast e casts rfl)
  | drainUpdate => exact Move.moves (.settle e rfl)
  | drainEval => exact drainEval_moves h (.inl rfl) (.inr rfl)
  | finalize => exact finalize_moves e fun _ ha => ha
  | runPass => exact runPass_moves h (.inl rfl) (.inr (.inl rfl)) fun _ ha => .inr (.inr ha)
  | openGroup => exact Move.moves (.adjust e (e.groupLevel + 1) e.host rfl)
  | closeGroup =>
    have hclose : Move (Operation.Does closeGroup e) e 0 _ :=
      .adjust e (e.groupLevel - 1) e.host (.inr (.inr (.inr (.inl rfl))))
    exact hclose.moves.trans (runPass_moves (e := { e with groupLevel := e.groupLevel - 1 }) h (.inl rfl)
      (.inr (.inl rfl)) fun _ ha => .inr (.inr ha))
  | abandonGroup => exact Move.moves (.adjust e (e.groupLevel - 1) e.host rfl)
  | setHost host => exact Move.moves (.adjust e e.groupLevel host rfl)

/-- An operation that shares no constant that waits for another value goes through no act that does. -/
theorem Operation.IsSteady.share {op : Operation σ} (h : op.IsSteady e) {n : Node} (hd : op.Does e (.share n)) :
    n.IsSteady := by
  cases op with
  | constant v =>
    rcases hd with hd | ⟨m, hd, hs⟩
    · cases hd
    · cases hd
      exact .inl hs
  | intern id =>
    rcases hd with hd | ⟨m, hd, hm⟩
    · cases hd
    · cases hd
      exact h n hm
  | _ => simp [Operation.Does, Engine.Act.EndsPass] at hd

end Dataflow
