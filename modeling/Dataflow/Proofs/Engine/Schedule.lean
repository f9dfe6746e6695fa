import Dataflow.Engine.Construction
import Dataflow.Proofs.Graph.Settling
import Dataflow.Proofs.Graph.UpToDate

/-!
# Schedules

What evaluation depends on is the graph, the nodes to be evaluated and the number of the last pass: the schedule of
an engine.  Whatever a host does with an engine takes its schedule through a few kinds of steps (`Schedule.Step`).
Each of them keeps a schedule sound (`Schedule.Sound`): the graph is sound, nodes wait for evaluation under the
depths stored for them, and all formulas that do not wait are up to date.

* `Sound.step`, `Sound.steps`: what one step keeps, any number of steps keep.
-/

namespace Dataflow

open Dataflow.Graph

/-- What evaluation depends on. -/
structure Schedule where
  graph : Graph
  /-- The nodes to be evaluated. -/
  eval : PendingSet
  /-- The number of the last pass. -/
  pass : Nat

/-- The schedule of an engine. -/
def Engine.schedule {σ : Type} (e : Engine σ) : Schedule := ⟨e.graph, e.eval, e.pass⟩

namespace Schedule

/-- Settles depths and puts the nodes to be evaluated under their new depths. -/
def settle (s : Schedule) : Schedule :=
  let (done, graph) := s.graph.settleDepths
  { s with
    graph := graph
    eval := if done.countP Settling.changed = 0 then s.eval
      else s.eval.rekey fun id => (graph.node? id).map Node.depth }

/-- Evaluates in a new pass. -/
def evaluate (s : Schedule) : Schedule :=
  let (_, graph, eval) := s.graph.propagate (s.pass + 1) s.eval
  ⟨graph, eval, s.pass + 1⟩

/-- Makes a node wait for evaluation. -/
def relinkedTo (s : Schedule) (g : Graph) (id : NodeId) : Schedule :=
  { s with graph := g, eval := s.eval.insertAll (g.withDepths [id]) }

/-- A write from outside stages a change of a node that has no rule, or withdraws it. -/
inductive Write : Schedule → Schedule → Prop
  | stage {s : Schedule} {id : NodeId} {n : Node} (staged : Staged) :
      s.graph.node? id = some n → n.kind.isDerived = false →
      Write s { s with
        graph := s.graph.modify id fun n => { n with staged? := some staged }
        eval := s.eval.insert id n.depth }
  | withdraw {s : Schedule} {id : NodeId} {n : Node} :
      s.graph.node? id = some n → n.kind.isDerived = false →
      Write s { s with
        graph := s.graph.modify id fun n => { n with staged? := none }
        eval := s.eval.remove id }

/-- The steps that schedules go through, with the number of nodes that each creates. -/
inductive Step : Schedule → Nat → Schedule → Prop
  | create {s : Schedule} {kind : NodeKind} {parents : List NodeId} {value? : Option Value} {id : NodeId}
      {g : Graph} : s.graph.addNode (.fresh kind parents value?) = .ok (id, g) →
      Step s 1 { s with graph := Engine.computeFirst g id }
  | addScope (s : Schedule) : Step s 1 { s with graph := s.graph.addScope.2 }
  | rename {s : Schedule} {id scope : NodeId} {name : String} {g : Graph} :
      s.graph.setScope id scope name = .ok g → Step s 0 { s with graph := g }
  | remove {s : Schedule} {id : NodeId} {n : Node} {g : Graph} :
      s.graph.removeNode id = .ok (n, g) → Step s 0 { s with graph := g, eval := s.eval.remove id }
  | addChild {s : Schedule} {parent child : NodeId} {g : Graph} :
      s.graph.addChild parent child = .ok (true, g) → Step s 0 (s.relinkedTo g child)
  | removeChild {s : Schedule} {parent child : NodeId} {g : Graph} :
      s.graph.removeChild parent child = .ok (true, g) → Step s 0 (s.relinkedTo g child)
  | setParents {s : Schedule} {id : NodeId} {parents : List NodeId} {g : Graph} :
      s.graph.setParents id parents = .ok g → Step s 0 (s.relinkedTo g id)
  | write {s s' : Schedule} : Write s s' → Step s 0 s'
  | settle (s : Schedule) : Step s 0 s.settle
  | evaluate {s : Schedule} : s.graph.update = .empty → Step s 0 s.evaluate
  | reset (s : Schedule) (id : NodeId) :
      Step s 0 { s with graph := s.graph.modify id fun n => { n with provoked := false } }

/-- Any number of steps, with the number of nodes that they create together. -/
inductive Steps : Schedule → Nat → Schedule → Prop
  | refl (s : Schedule) : Steps s 0 s
  | tail {s s' s'' : Schedule} {i j : Nat} : Steps s i s' → Step s' j s'' → Steps s (i + j) s''

theorem Step.steps {s s' : Schedule} {i : Nat} (h : Step s i s') : Steps s i s' := by
  have hs := Steps.tail (.refl s) h
  rwa [Nat.zero_add] at hs

theorem Steps.trans {s s' s'' : Schedule} {i j : Nat} (h : Steps s i s') (h' : Steps s' j s'') :
    Steps s (i + j) s'' := by
  induction h' with
  | refl => exact h
  | tail _ hstep ih =>
    rw [← Nat.add_assoc]
    exact ih.tail hstep

theorem Write.same {s s' : Schedule} (h : Write s s') : SameUpTo Node.evaluated s.graph s'.graph := by
  cases h with
  | stage _ _ _ => exact .modify (fun _ => by rfl) s.graph _
  | withdraw _ _ => exact .modify (fun _ => by rfl) s.graph _

/-! ### Soundness -/

/-- A sound schedule that was reached by creating so many nodes besides the first one. -/
structure Sound (created : Nat) (s : Schedule) : Prop where
  graph : s.graph.Sound
  keyed : s.graph.Keyed s.eval
  marked : ∀ x n, s.graph.node? x = some n → n.changedIn ≤ s.pass
  upToDate : s.graph.UpToDate s.eval
  size_le : s.graph.size ≤ created + 1
  depth_le : ∀ x n, s.graph.node? x = some n → n.depth ≤ created

namespace Sound

variable {created : Nat} {s : Schedule} {g g' : Graph} {id : NodeId} {n : Node}

/-- Where every node was there before, with the same depth and mark, the bounds stay. -/
private theorem bounds (h : Sound created s)
    (hcases : ∀ x m, g.node? x = some m → ∃ m₀, s.graph.node? x = some m₀ ∧ m.depth = m₀.depth ∧
      m.changedIn = m₀.changedIn) :
    (∀ x m, g.node? x = some m → m.changedIn ≤ s.pass) ∧ g.size ≤ created + 1 ∧
      ∀ x m, g.node? x = some m → m.depth ≤ created := by
  refine ⟨?_, ?_, ?_⟩
  · intro x m hm
    obtain ⟨m₀, hm₀, -, hc⟩ := hcases x m hm
    rw [hc]
    exact h.marked x m₀ hm₀
  · refine Nat.le_trans (size_le_of_some [] fun x m hm => ?_) h.size_le
    obtain ⟨m₀, hm₀, -⟩ := hcases x m hm
    exact .inr ⟨m₀, hm₀⟩
  · intro x m hm
    obtain ⟨m₀, hm₀, hd, -⟩ := hcases x m hm
    rw [hd]
    exact h.depth_le x m₀ hm₀

/-- Naming, staging and resetting change nothing that soundness is about. -/
theorem of_same {eval : PendingSet} (h : Sound created s) (hsame : SameUpTo Node.evaluated s.graph g)
    (hu : g.update = s.graph.update) (hs : s.graph.store.Sound → g.store.Sound)
    (hk : s.graph.Keyed s.eval → s.graph.Keyed eval)
    (heval : ∀ x ∈ s.eval.nodes, x ∈ eval.nodes ∨ ∀ n t rule, g.node? x = some n → n.kind ≠ .formula t rule) :
    Sound created { s with graph := g, eval := eval } := by
  have hshape : SameUpTo Node.shape s.graph g := hsame.weaken fun _ _ => Node.shape_of_evaluated
  have hdepth : SameUpTo Node.depth s.graph g := hshape.weaken fun _ _ => Node.depth_of_shape
  obtain ⟨hmarked, hsize, hle⟩ := h.bounds fun x m hm => by
    obtain ⟨m₀, hm₀, he⟩ := hsame.symm.exists_of_some hm
    exact ⟨m₀, hm₀, (Node.depth_of_shape (Node.shape_of_evaluated he)).symm, (Node.changedIn_of_evaluated he).symm⟩
  exact ⟨h.graph.congr hshape hu (hs h.graph.store), (hk h.keyed).congr hdepth, hmarked,
    h.upToDate.congr (hsame.weaken fun _ _ => Node.content_of_evaluated) heval, hsize, hle⟩

/-! ### Creating a node -/

/-- A node is added, and then perhaps evaluated. -/
private theorem added {n' : Node} (h : Sound created s) (ha : s.graph.Added n id g) (hc : n.children = [])
    (hd : s.graph.depthBelow n.parents = .ok n.depth)
    (hu : g.update = s.graph.update ∨ g.update = s.graph.update.insert id n.depth) (hn' : n'.shape = n.shape)
    (hmark : n'.changedIn = 0) (hnode : ∀ x, g'.node? x = if x = id then some n' else g.node? x)
    (hu' : g'.update = g.update) (hs' : g'.store.Sound) (hup : g'.UpToDateAt id) :
    Sound (created + 1) { s with graph := g' } := by
  have hsame : SameUpTo Node.shape g g' := by
    intro x
    rw [hnode]
    split
    · next hx => rw [hx, ha.self, Option.map_some, Option.map_some, hn']
    · rfl
  have hcases : ∀ x m, g'.node? x = some m → (x = id ∧ m = n') ∨
      ∃ m₀, s.graph.node? x = some m₀ ∧ m = if x ∈ n.parents then m₀.addChild id else m₀ := by
    intro x m hm
    rw [hnode] at hm
    split at hm
    · next hx => exact .inl ⟨hx, (Option.some.inj hm).symm⟩
    · next hx => exact .inr ((ha.some_cases hm).resolve_left fun hx' => hx hx'.1)
  refine ⟨(h.graph.added ha hc hd hu).congr hsame hu' hs', ?_, ?_, ?_, ?_, ?_⟩
  · have hg : g.Keyed s.eval := h.keyed.mono fun x m _ hm => Graph.Sound.depth_added ha x hm
    exact hg.congr (hsame.weaken fun _ _ => Node.depth_of_shape)
  · intro x m hm
    rcases hcases x m hm with ⟨-, rfl⟩ | ⟨m₀, hm₀, rfl⟩
    · rw [hmark]
      exact Nat.zero_le _
    · have hle := h.marked x m₀ hm₀
      split <;> simpa using hle
  · intro x hx
    by_cases hxid : x = id
    · exact hxid ▸ hup
    · refine (h.upToDate.added h.graph.linked ha hx hxid).congr (by rw [hnode, if_neg hxid]) fun m hm p hp => ?_
      have hpid : p ≠ id := by
        rcases ha.some_cases hm with ⟨hx', -⟩ | ⟨m₀, hm₀, rfl⟩
        · exact absurd hx' hxid
        · obtain ⟨q, hq⟩ := h.graph.linked.exists_parent (p := p) ⟨m₀, hm₀, by split at hp <;> simpa using hp⟩
          exact ha.ne hq
      rw [hnode, if_neg hpid]
  · have hsize : g'.size ≤ s.graph.size + 1 := size_le_of_some [id] fun x m hm => by
      rcases hcases x m hm with ⟨rfl, -⟩ | ⟨m₀, hm₀, -⟩
      · exact .inl (List.mem_singleton_self x)
      · exact .inr ⟨m₀, hm₀⟩
    exact Nat.le_trans hsize (Nat.succ_le_succ h.size_le)
  · intro x m hm
    rcases hcases x m hm with ⟨-, rfl⟩ | ⟨m₀, hm₀, rfl⟩
    · rw [Node.depth_of_shape hn']
      obtain ⟨hlive, -, hmax⟩ := depthBelow_eq_ok_iff.1 hd
      rcases hmax with hz | ⟨p, hp, hpd⟩
      · omega
      · obtain ⟨q, hq⟩ := hlive p hp
        have hle := h.depth_le p q hq
        rw [depthOf_eq hq] at hpd
        omega
    · have hle := h.depth_le x m₀ hm₀
      split
      · rw [Node.depth_addChild]
        omega
      · omega

/-- The first computation of a node has the outcome for its parents if the node is a formula, and leaves it as it is
otherwise. -/
private theorem computeFirst_eq {args : List Arg} (hn : g.node? id = some n) (ha : g.args? 0 n.parents = some args) :
    ∃ n', n'.shape = n.shape ∧ (n.changedIn = 0 → n'.changedIn = 0) ∧
      (∀ x, (Engine.computeFirst g id).node? x = if x = id then some n' else g.node? x) ∧
      (Engine.computeFirst g id).update = g.update ∧
      (g.store.Sound → (Engine.computeFirst g id).store.Sound) ∧
      (∀ t rule, n.kind = .formula t rule → n'.content = (n.settled 0 (n.outcome args)).content) := by
  have hself : ∀ x, g.node? x = if x = id then some n else g.node? x := by
    intro x
    split
    · next hx => rw [hx, hn]
    · rfl
  unfold Engine.computeFirst
  rw [hn]
  simp only [ha, Option.map_some]
  split
  · next t rule v hk ho =>
    rw [Option.some.injEq] at ho
    refine ⟨n.settled 0 (.value v), rfl, fun _ => rfl, ?_, rfl, fun hs => hs.modify _ _, ?_⟩
    · intro x
      rw [node?_modify]
      split
      · next hx => rw [hx, hn, Option.map_some]
      · rfl
    · intro _ _ _
      rw [ho]
  · next hother =>
    refine ⟨n, rfl, fun h0 => h0, hself, rfl, fun hs => hs, fun t rule hk => ?_⟩
    cases ho : n.outcome args with
    | value v => exact absurd (congrArg some ho) (hother t rule v hk)
    | fire => rfl
    | unchanged => rfl
    | skip => rfl

/-- Creating a node keeps a schedule sound. -/
theorem create {kind : NodeKind} {parents : List NodeId} {value? : Option Value} (h : Sound created s)
    (ha : s.graph.addNode (.fresh kind parents value?) = .ok (id, g)) :
    Sound (created + 1) { s with graph := Engine.computeFirst g id } := by
  obtain ⟨d, hd, hadd, hu⟩ := addNode_eq_ok h.graph.store ha
  have hne : ∀ p ∈ parents, p ≠ id := by
    intro p hp
    obtain ⟨m, hm, -⟩ := hadd.parents p hp
    exact hadd.ne hm
  obtain ⟨args, hargs⟩ := exists_args? 0 fun p (hp : p ∈ parents) => by
    obtain ⟨m, hm, -⟩ := hadd.parents p hp
    exact ⟨_, hadd.of_some hm⟩
  obtain ⟨n', hshape, hmark, hnode, hu', hs', hval⟩ := computeFirst_eq hadd.self hargs
  refine h.added hadd rfl hd hu hshape (hmark rfl) hnode hu' (hs' hadd.store) ?_
  intro m t rule pass args' v hm hk
  have hm' := hm
  rw [hnode, if_pos rfl, Option.some.injEq] at hm'
  have hkind : kind = .formula t rule := by
    refine NodeKind.of_emptied_eq_formula (Eq.trans ?_ (congrArg NodeKind.emptied hk))
    rw [← hm']
    exact (of_frame_eq (Node.frame_of_shape hshape)).2.2.symm
  refine upToDateAt_of_outcome (n := { Node.fresh kind parents value? with depth := d }) 0 hargs ?_
    (fun p hp => ?_) m t rule pass args' v hm hk
  · rw [hnode, if_pos rfl, Option.map_some, hval t rule hkind]
  · rw [hnode, if_neg (hne p hp)]

/-- A new scope leaves a schedule sound: it is read by nothing. -/
theorem addScope (h : Sound created s) : Sound (created + 1) { s with graph := s.graph.addScope.2 } := by
  have hadd := addScope_added h.graph.store
  refine h.added hadd rfl ?_ (.inl rfl) rfl rfl (fun x => ?_) rfl hadd.store fun m t rule pass args v hm hk => ?_
  · rfl
  · split
    · next hx => rw [hx, hadd.self]
    · rfl
  · rw [hadd.self, Option.some.injEq] at hm
    rw [← hm] at hk
    cases hk

/-! ### Other edits -/

/-- Removing a node leaves a schedule sound if the node no longer waits for evaluation. -/
theorem remove {removed : Node} (h : Sound created s) (hr : s.graph.removeNode id = .ok (removed, g)) :
    Sound created { s with graph := g, eval := s.eval.remove id } := by
  obtain ⟨n, hr, -⟩ := removeNode_eq_ok h.graph.store hr
  have hrest : ∀ m : Node, ∀ x, (if x ∈ n.parents then m.removeChild id else m).depth = m.depth ∧
      (if x ∈ n.parents then m.removeChild id else m).changedIn = m.changedIn := fun m x => by
    split <;> exact ⟨rfl, rfl⟩
  obtain ⟨hmarked, hsize, hle⟩ := h.bounds fun x m hm => by
    obtain ⟨-, m₀, hm₀, he⟩ := hr.some_cases hm
    refine ⟨m₀, hm₀, ?_, ?_⟩
    · rw [Node.depth_of_shape (Node.shape_of_anonymous he), (hrest m₀ x).1]
    · rw [Node.changedIn_of_evaluated (Node.evaluated_of_anonymous he), (hrest m₀ x).2]
  refine ⟨h.graph.removed hr, ?_, hmarked, h.upToDate.removed h.graph.linked hr, hsize, hle⟩
  refine (h.keyed.remove id).mono fun x m hx hm => ?_
  obtain ⟨m', hm', he⟩ := hr.of_some hm (PendingSet.mem_nodes_remove.1 hx).1
  exact ⟨m', hm', by rw [Node.depth_of_shape (Node.shape_of_anonymous he), (hrest m x).1]⟩

/-- Giving a node other parents, and making it wait for evaluation, keeps a schedule sound. -/
theorem relinkedTo {parents : List NodeId} (h : Sound created s) (hr : s.graph.Relinked id n parents g)
    (hw : g.WellLinked) : Sound created (s.relinkedTo g id) := by
  obtain ⟨cs, hcs, -⟩ := hr.of_some hr.node
  obtain ⟨hmarked, hsize, hle⟩ := h.bounds fun x m hm => by
    obtain ⟨m₀, cs, hm₀, rfl, -⟩ := hr.some_cases hm
    exact ⟨m₀, hm₀, rfl, rfl⟩
  refine ⟨h.graph.relinked hr hw, ?_, hmarked, h.upToDate.relinked hr ?_ fun x hx => ?_, hsize, hle⟩
  · refine Keyed.insertAll (h.keyed.mono fun x m _ hm => ?_) [id]
    obtain ⟨cs, hcs, -⟩ := hr.of_some hm
    exact ⟨_, hcs, rfl⟩
  · exact PendingSet.mem_nodes_insertAll.2 (.inr (mem_nodes_withDepths.2 ⟨List.mem_singleton_self id, _, hcs⟩))
  · exact PendingSet.mem_nodes_insertAll.2 (.inl hx)

/-! ### Staging and resetting -/

/-- A write leaves a schedule sound: what it stages waits for evaluation. -/
theorem write {s' : Schedule} (h : Sound created s) (hw : Write s s') : Sound created s' := by
  cases hw with
  | @stage id n staged hn hd =>
    have hsame : SameUpTo Node.evaluated s.graph (s.graph.modify id fun n => { n with staged? := some staged }) :=
      .modify (fun _ => by rfl) s.graph id
    refine h.of_same hsame rfl (fun hs => hs.modify _ _) (fun hk => hk.insert hn) fun x hx => ?_
    exact .inl (PendingSet.mem_nodes_insert.2 (.inr hx))
  | @withdraw id n hn hd =>
    have hsame : SameUpTo Node.evaluated s.graph (s.graph.modify id fun n => { n with staged? := none }) :=
      .modify (fun _ => by rfl) s.graph id
    refine h.of_same hsame rfl (fun hs => hs.modify _ _) (fun hk => hk.remove _) fun x hx => ?_
    -- What is withdrawn from evaluation has no rule.
    by_cases hxid : x = id
    · refine .inr fun m t rule hm hk => ?_
      rw [node?_modify, if_pos hxid, hxid, hn, Option.map_some, Option.some.injEq] at hm
      rw [← hm] at hk
      rw [show n.kind = .formula t rule from hk] at hd
      cases hd
    · exact .inl (PendingSet.mem_nodes_remove.2 ⟨hxid, hx⟩)

/-- A reset leaves a schedule sound: no value depends on it. -/
theorem reset (h : Sound created s) (id : NodeId) :
    Sound created { s with graph := s.graph.modify id fun n => { n with provoked := false } } := by
  have hsame : SameUpTo Node.evaluated s.graph (s.graph.modify id fun n => { n with provoked := false }) :=
    .modify (fun _ => by rfl) s.graph id
  exact h.of_same hsame rfl (fun hs => hs.modify _ _) (fun hk => hk) fun _ hx => .inl hx

/-! ### Settling and evaluating -/

/-- Settling depths keeps the nodes that wait for evaluation. -/
theorem mem_eval_settle (h : Sound created s) {x : NodeId} : x ∈ s.settle.eval.nodes ↔ x ∈ s.eval.nodes := by
  change x ∈ (if s.graph.settleDepths.1.countP Settling.changed = 0 then s.eval else _).nodes ↔ _
  split
  · rfl
  · rw [PendingSet.mem_nodes_iff]
    simp only [PendingSet.depth?_rekey]
    constructor
    · rintro ⟨d, hd⟩
      by_contra hx
      rw [if_neg hx] at hd
      cases hd
    · intro hx
      obtain ⟨n, hn⟩ := h.keyed.exists_of_mem hx
      obtain ⟨n', hn', -⟩ := h.graph.same_settleDepths.exists_of_some hn
      rw [if_pos hx]
      exact ⟨n'.depth, congrArg (Option.map Node.depth) hn'⟩

/-- Settling depths keeps a schedule sound. -/
theorem settle (h : Sound created s) : Sound created s.settle := by
  have hsame := h.graph.same_settleDepths
  have hrun := h.graph.settles
  refine ⟨h.graph.sound_settleDepths, ?_, ?_, ?_, Nat.le_trans hsame.size_le h.size_le, fun x m hm => ?_⟩
  · change s.graph.settleDepths.2.Keyed (if s.graph.settleDepths.1.countP Settling.changed = 0 then s.eval else _)
    split
    · next hc =>
      rw [List.countP_eq_zero] at hc
      refine h.keyed.mono fun x n _ hn => ⟨n, ?_, rfl⟩
      rw [hrun.node?_of_unchanged h.graph (fun t ht _ => by simpa using hc t ht), hn]
    · exact .rekey _ _
  · intro x m hm
    obtain ⟨m₀, hm₀, he⟩ := hsame.symm.exists_of_some hm
    have hc : m₀.flat.changedIn = m.flat.changedIn := by rw [he]
    exact Nat.le_trans (Nat.le_of_eq hc.symm) (h.marked x m₀ hm₀)
  · have hcontent : SameUpTo Node.content s.graph s.graph.settleDepths.2 := hsame.weaken fun n m he => by
      have hc : n.flat.content = m.flat.content := by rw [he]
      exact hc
    exact h.upToDate.congr hcontent fun x hx => .inl (h.mem_eval_settle.2 hx)
  -- The longest chain to a node has fewer links than there are nodes.
  · have hchain := (h.graph.isGreatest_settleDepths hm).1
    have hlt := h.graph.linked.chain_lt_size hchain
    have hle := h.size_le
    omega

/-- Evaluation in a graph with settled depths keeps a schedule sound. -/
theorem evaluate (h : Sound created s) (hu : s.graph.update = .empty) : Sound created s.evaluate := by
  have hready := h.graph.ready hu
  obtain ⟨visits, last, heq, hrun⟩ := hready.propagates h.keyed (s.pass + 1)
  have heval : s.evaluate = ⟨last, .empty, s.pass + 1⟩ := by
    unfold Schedule.evaluate
    rw [heq]
  have hsame := hrun.same hready h.keyed
  rw [heval]
  refine ⟨h.graph.congr hsame (hrun.update_eq hready h.keyed) (hrun.store hready h.keyed h.graph.store), .empty _,
    fun x m hm => ?_, hrun.upToDate hready h.keyed h.upToDate, Nat.le_trans hsame.size_le h.size_le, ?_⟩
  · exact hrun.changedIn_le hready h.keyed (fun y n hn => Nat.le_succ_of_le (h.marked y n hn)) hm
  · intro x m hm
    obtain ⟨m₀, hm₀, he⟩ := hsame.symm.exists_of_some hm
    rw [← Node.depth_of_shape he]
    exact h.depth_le x m₀ hm₀

/-! ### Steps -/

/-- Every step keeps a schedule sound. -/
theorem step {s' : Schedule} {i : Nat} (h : Sound created s) (hs : Step s i s') : Sound (created + i) s' := by
  cases hs with
  | create ha => exact h.create ha
  | addScope => exact h.addScope
  | rename hr =>
    have hr := setScope_eq_ok hr
    exact h.of_same (hr.same.weaken fun _ _ => Node.evaluated_of_anonymous) hr.update hr.store id fun _ hx => .inl hx
  | remove hr => exact h.remove hr
  | addChild ha =>
    rcases addChild_eq_ok h.graph.linked ha with ⟨hf, -⟩ | ⟨-, n, hr, hw⟩
    · cases hf
    · exact h.relinkedTo hr hw
  | removeChild ha =>
    rcases removeChild_eq_ok h.graph.linked ha with ⟨hf, -⟩ | ⟨-, n, hr, hw⟩
    · cases hf
    · exact h.relinkedTo hr hw
  | setParents ha =>
    obtain ⟨n, hr, hw⟩ := setParents_eq_ok h.graph.linked ha
    exact h.relinkedTo hr hw
  | write hw => exact h.write hw
  | settle => exact h.settle
  | evaluate hu => exact h.evaluate hu
  | reset id => exact h.reset id

/-- A schedule that goes through steps stays sound. -/
theorem steps {s' : Schedule} {i : Nat} (h : Sound created s) (hs : Steps s i s') : Sound (created + i) s' := by
  induction hs with
  | refl => exact h
  | tail _ hstep ih =>
    rw [← Nat.add_assoc]
    exact ih.step hstep

end Sound

end Schedule

end Dataflow
