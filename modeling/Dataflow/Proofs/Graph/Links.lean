import Dataflow.Proofs.Graph.Frame
import Mathlib.Data.Finset.Card
import Mathlib.Logic.Relation

/-!
# Links

The links of a graph are stored twice, as ordered lists of parents and as lists of children.  A graph is well
linked (`Graph.WellLinked`) if the two sides say the same, all links are between existing nodes of the right kinds,
and no node depends on itself.

* `acyclic_of_rewired`: giving a node new parents that it does not reach closes no cycle, although each new parent
  has been looked for in the old graph only;
* `WellLinked.added`, `WellLinked.removed`, `WellLinked.relinked`: creating, removing and relinking nodes keep a
  graph well linked;
* `WellLinked.exists_rank`: the nodes of a well linked graph can be ranked below its size so that every parent
  comes before its children.
-/

namespace Dataflow

open Relation

/-- Giving one element other predecessors, none of which it reaches, closes no cycle. -/
theorem acyclic_of_rewired {α : Type} {r r' : α → α → Prop} (id : α) (ps : α → Prop)
    (hr : ∀ p c, r' p c → (c = id ∧ ps p) ∨ r p c) (hps : ∀ p, ps p → ¬ ReflTransGen r id p)
    (h : ∀ a, ¬ TransGen r a a) (a : α) : ¬ TransGen r' a a := by
  -- A new path that uses new links only on its way into `id` continues on old links.
  have hold : ∀ {a b}, ReflTransGen r' a b → ReflTransGen r a b ∨ ReflTransGen r id b := by
    intro a b hab
    induction hab with
    | refl => exact .inl .refl
    | tail _ hbc ih =>
      rcases hr _ _ hbc with ⟨rfl, -⟩ | hbc
      · exact .inr .refl
      · exact ih.imp (·.tail hbc) (·.tail hbc)
  have hnew : ∀ {a b}, TransGen r' a b →
      TransGen r a b ∨ ∃ p, ps p ∧ ReflTransGen r' a p ∧ ReflTransGen r' id b := by
    intro a b hab
    induction hab with
    | single hab =>
      rcases hr _ _ hab with ⟨rfl, hp⟩ | hab
      · exact .inr ⟨a, hp, .refl, .refl⟩
      · exact .inl (.single hab)
    | tail hab hbc ih =>
      rcases hr _ _ hbc with ⟨rfl, hp⟩ | hbc'
      · exact .inr ⟨_, hp, hab.to_reflTransGen, .refl⟩
      · rcases ih with ih | ⟨p, hp, hap, hib⟩
        · exact .inl (ih.tail hbc')
        · exact .inr ⟨p, hp, hap, hib.tail hbc⟩
  intro haa
  rcases hnew haa with haa | ⟨p, hp, hap, hia⟩
  · exact h a haa
  · rcases hold (hia.trans hap) with hip | hip <;> exact hps p hp hip

namespace Graph

/-- The child lists the node among its parents. -/
def Feeds (g : Graph) (parent child : NodeId) : Prop := ∃ n, g.node? child = some n ∧ parent ∈ n.parents

/-- The links of the graph are sound. -/
structure WellLinked (g : Graph) : Prop where
  parents_data : ∀ {id n p}, g.node? id = some n → p ∈ n.parents → ∃ m, g.node? p = some m ∧ m.kind.isData = true
  mem_children_iff : ∀ {id n c}, g.node? id = some n → (c ∈ n.children ↔ g.Feeds id c)
  nodup_children : ∀ {id n}, g.node? id = some n → n.children.Nodup
  derived : ∀ {id n}, g.node? id = some n → n.parents ≠ [] → n.kind.isDerived = true
  acyclic : ∀ id, ¬ TransGen g.Feeds id id

/-! ### Graphs with the same links -/

theorem of_frame_eq {n m : Node} (h : n.frame = m.frame) :
    n.parents = m.parents ∧ n.children = m.children ∧ n.kind.emptied = m.kind.emptied :=
  ⟨(congrArg Node.parents h : n.frame.parents = m.frame.parents),
   (congrArg Node.children h : n.frame.children = m.frame.children),
   (congrArg Node.kind h : n.frame.kind = m.frame.kind)⟩

theorem feeds_congr {g g' : Graph} (h : SameUpTo Node.frame g g') {p c : NodeId} : g'.Feeds p c ↔ g.Feeds p c := by
  constructor
  · rintro ⟨n, hn, hp⟩
    obtain ⟨m, hm, hf⟩ := h.symm.exists_of_some hn
    exact ⟨m, hm, (of_frame_eq hf).1 ▸ hp⟩
  · rintro ⟨n, hn, hp⟩
    obtain ⟨m, hm, hf⟩ := h.exists_of_some hn
    exact ⟨m, hm, (of_frame_eq hf).1 ▸ hp⟩

theorem WellLinked.congr {g g' : Graph} (hw : g.WellLinked) (h : SameUpTo Node.frame g g') : g'.WellLinked := by
  have hf : g'.Feeds = g.Feeds := funext fun p => funext fun c => propext (feeds_congr h)
  refine ⟨fun {id n p} hn hp => ?_, fun {id n c} hn => ?_, fun {id n} hn => ?_, fun {id n} hn hne => ?_,
    hf ▸ hw.acyclic⟩
  all_goals
    obtain ⟨m, hm, he⟩ := h.symm.exists_of_some hn
    obtain ⟨hpar, hch, hk⟩ := of_frame_eq he
  · obtain ⟨q, hq, hd⟩ := hw.parents_data hm (hpar ▸ hp)
    obtain ⟨q', hq', hqe⟩ := h.exists_of_some hq
    refine ⟨q', hq', ?_⟩
    rw [← NodeKind.isData_emptied, (of_frame_eq hqe).2.2, NodeKind.isData_emptied, hd]
  · rw [hf, ← hch]
    exact hw.mem_children_iff hm
  · exact hch ▸ hw.nodup_children hm
  · rw [← NodeKind.isDerived_emptied, ← hk, NodeKind.isDerived_emptied]
    exact hw.derived hm (hpar ▸ hne)

/-- Both ends of a link exist. -/
theorem WellLinked.exists_parent {g : Graph} (hw : g.WellLinked) {p c : NodeId} (h : g.Feeds p c) :
    ∃ n, g.node? p = some n := by
  obtain ⟨n, hn, hp⟩ := h
  obtain ⟨m, hm, -⟩ := hw.parents_data hn hp
  exact ⟨m, hm⟩

/-- In a well linked graph no node feeds itself. -/
theorem WellLinked.ne_of_feeds {g : Graph} (hw : g.WellLinked) {p c : NodeId} (h : g.Feeds p c) : p ≠ c := by
  rintro rfl
  exact hw.acyclic p (.single h)

/-- A link that ends a path ends at an existing node. -/
private theorem exists_of_transGen {g : Graph} {a b : NodeId} (h : TransGen g.Feeds a b) :
    ∃ n, g.node? b = some n := by
  obtain ⟨c, -, n, hn, -⟩ := TransGen.tail'_iff.1 h
  exact ⟨n, hn⟩

theorem wellLinked_empty : empty.WellLinked := by
  have hnone : ∀ id, empty.node? id = none := fun id => by simp [empty, node?, Store.empty, Store.get?]
  refine ⟨fun {id n p} hn => ?_, fun {id n c} hn => ?_, fun {id n} hn => ?_, fun {id n} hn => ?_, fun id h => ?_⟩
  case refine_5 =>
    obtain ⟨n, hn⟩ := exists_of_transGen h
    simp [hnone] at hn
  all_goals simp [hnone] at hn

/-! ### Adding and removing a node -/

namespace WellLinked

variable {g g' : Graph} {id : NodeId} {n : Node}

/-- A new node is fed by its parents and feeds none; all other links stay. -/
theorem feeds_added (ha : g.Added n id g') {p c : NodeId} :
    g'.Feeds p c ↔ (c = id ∧ p ∈ n.parents) ∨ g.Feeds p c := by
  constructor
  · rintro ⟨m, hm, hp⟩
    rcases ha.some_cases hm with ⟨rfl, rfl⟩ | ⟨m₀, hm₀, rfl⟩
    · exact .inl ⟨rfl, hp⟩
    · exact .inr ⟨m₀, hm₀, by split at hp <;> simpa using hp⟩
  · rintro (⟨rfl, hp⟩ | ⟨m, hm, hp⟩)
    · exact ⟨n, ha.self, hp⟩
    · exact ⟨_, ha.of_some hm, by split <;> simpa using hp⟩

/-- Adding a node without children keeps the links sound. -/
theorem added (hw : g.WellLinked) (ha : g.Added n id g') (hc : n.children = []) : g'.WellLinked := by
  -- Nothing was linked to the new id before.
  have hfrom : ∀ c, ¬ g.Feeds id c := by
    intro c h
    obtain ⟨m, hm⟩ := hw.exists_parent h
    rw [ha.fresh] at hm
    cases hm
  have hself : id ∉ n.parents := by
    intro h
    obtain ⟨m, hm, -⟩ := ha.parents id h
    exact ha.ne hm rfl
  refine ⟨?_, ?_, ?_, ?_, ?_⟩
  · intro x m p hm hp
    have hpar : ∃ q, g.node? p = some q ∧ q.kind.isData = true := by
      rcases ha.some_cases hm with ⟨-, rfl⟩ | ⟨m₀, hm₀, rfl⟩
      · exact ha.parents p hp
      · exact hw.parents_data hm₀ (by split at hp <;> simpa using hp)
    obtain ⟨q, hq, hd⟩ := hpar
    exact ⟨_, ha.of_some hq, by split <;> simpa using hd⟩
  · intro x m c hm
    rw [feeds_added ha]
    rcases ha.some_cases hm with ⟨rfl, rfl⟩ | ⟨m₀, hm₀, rfl⟩
    · simp [hc, hself, hfrom]
    · rw [← hw.mem_children_iff hm₀]
      split
      · next hx => simp [Node.mem_children_addChild, hx]
      · next hx => simp [hx]
  · intro x m hm
    rcases ha.some_cases hm with ⟨-, rfl⟩ | ⟨m₀, hm₀, rfl⟩
    · simp [hc]
    · split
      · exact Node.nodup_children_addChild (hw.nodup_children hm₀)
      · exact hw.nodup_children hm₀
  · intro x m hm hne
    rcases ha.some_cases hm with ⟨-, rfl⟩ | ⟨m₀, hm₀, rfl⟩
    · exact ha.derived hne
    · have hd := hw.derived hm₀ (by split at hne <;> simpa using hne)
      split <;> simpa using hd
  · refine acyclic_of_rewired id (· ∈ n.parents) (fun p c => (feeds_added ha).1) (fun p hp h => ?_)
      hw.acyclic
    rcases ReflTransGen.cases_head h with rfl | ⟨c, hic, -⟩
    · exact hself hp
    · exact hfrom c hic

/-- A removed node is fed by none; all other links stay. -/
theorem feeds_removed (hr : g.Removed id n g') {p c : NodeId} : g'.Feeds p c ↔ c ≠ id ∧ g.Feeds p c := by
  constructor
  · rintro ⟨m, hm, hp⟩
    obtain ⟨hne, m₀, hm₀, he⟩ := hr.some_cases hm
    refine ⟨hne, m₀, hm₀, ?_⟩
    rw [(of_frame_eq (Node.frame_of_anonymous he)).1] at hp
    split at hp <;> exact hp
  · rintro ⟨hne, m, hm, hp⟩
    obtain ⟨m', hm', he⟩ := hr.of_some hm hne
    refine ⟨m', hm', ?_⟩
    rw [(of_frame_eq (Node.frame_of_anonymous he)).1]
    split <;> exact hp

/-- Removing a node without children keeps the links sound. -/
theorem removed (hw : g.WellLinked) (hr : g.Removed id n g') : g'.WellLinked := by
  have hfrom : ∀ c, ¬ g.Feeds id c := by
    intro c h
    have hc := (hw.mem_children_iff hr.node).2 h
    rw [hr.children] at hc
    cases hc
  refine ⟨?_, ?_, ?_, ?_, ?_⟩
  · intro x m p hm hp
    obtain ⟨-, m₀, hm₀, hp₀⟩ := feeds_removed hr |>.1 ⟨m, hm, hp⟩
    obtain ⟨q, hq, hd⟩ := hw.parents_data hm₀ hp₀
    obtain ⟨q', hq', he⟩ := hr.of_some hq (fun h => hfrom x ⟨m₀, hm₀, h ▸ hp₀⟩)
    refine ⟨q', hq', ?_⟩
    rw [← NodeKind.isData_emptied, (of_frame_eq (Node.frame_of_anonymous he)).2.2, NodeKind.isData_emptied]
    split <;> exact hd
  · intro x m c hm
    obtain ⟨hne, m₀, hm₀, he⟩ := hr.some_cases hm
    rw [feeds_removed hr, (of_frame_eq (Node.frame_of_anonymous he)).2.1, ← hw.mem_children_iff hm₀]
    split
    · exact Node.mem_children_removeChild
    · next hx =>
      -- The removed node is no child of a node that it does not list.
      have hid : id ∉ m₀.children := by
        intro h
        obtain ⟨n', hn', hx'⟩ := (hw.mem_children_iff hm₀).1 h
        rw [hr.node, Option.some.injEq] at hn'
        exact hx (hn' ▸ hx')
      constructor
      · exact fun h => ⟨fun hc => hid (hc ▸ h), h⟩
      · exact fun h => h.2
  · intro x m hm
    obtain ⟨-, m₀, hm₀, he⟩ := hr.some_cases hm
    rw [(of_frame_eq (Node.frame_of_anonymous he)).2.1]
    split
    · exact Node.nodup_children_removeChild (hw.nodup_children hm₀)
    · exact hw.nodup_children hm₀
  · intro x m hm hne
    obtain ⟨-, m₀, hm₀, he⟩ := hr.some_cases hm
    obtain ⟨hpar, -, hk⟩ := of_frame_eq (Node.frame_of_anonymous he)
    have hd := hw.derived hm₀ (by rw [hpar] at hne; split at hne <;> exact hne)
    rw [← NodeKind.isDerived_emptied, hk, NodeKind.isDerived_emptied]
    split <;> exact hd
  · exact fun a h => hw.acyclic a (TransGen.mono (fun p c hpc => ((feeds_removed hr).1 hpc).2) a a h)

end WellLinked

/-! ### Changing the parents of a node -/

/-- The node has been given other parents, the children of its old and new parents have been changed accordingly,
and its depth has become stale. -/
structure Relinked (g : Graph) (id : NodeId) (n : Node) (parents : List NodeId) (g' : Graph) : Prop where
  node : g.node? id = some n
  store : g.store.Sound → g'.store.Sound
  update : g'.update = g.update.insert id n.depth
  of_none : ∀ {x}, g.node? x = none → g'.node? x = none
  of_some : ∀ {x m}, g.node? x = some m → ∃ cs : List NodeId,
    g'.node? x = some { m with parents := if x = id then parents else m.parents, children := cs } ∧
      cs.Nodup ∧ ∀ c, c ∈ cs ↔ if c = id then x ∈ parents else c ∈ m.children

/-- What becomes of the node `x` when `id` is dropped from the children of some nodes and added to those of others,
and gets new parents. -/
def relinkNode (id : NodeId) (drop add parents : List NodeId) (x : NodeId) (m : Node) : Node :=
  let dropped := if x ∈ drop then m.removeChild id else m
  let added := if x ∈ add then dropped.addChild id else dropped
  { added with parents := if x = id then parents else m.parents }

/-- Changing the lists of children first and the parents then. -/
theorem node?_relink {g : Graph} {id : NodeId} {n : Node} {parents : List NodeId} {f : Node → Node}
    (drop add : List NodeId) (hn : g.node? id = some n)
    (hf : ∀ m : Node, m.parents = n.parents → f m = { m with parents := parents }) (x : NodeId) :
    (((g.unlinkChild drop id).linkChild add id).modify id f).node? x =
      (g.node? x).map (relinkNode id drop add parents x) := by
  rw [node?_modify, node?_linkChild, node?_unlinkChild]
  cases hm : g.node? x with
  | none => simp
  | some m =>
    simp only [Option.map_some, ← apply_ite some, relinkNode]
    generalize hdrop : (if x ∈ drop then m.removeChild id else m) = dropped
    generalize hadd : (if x ∈ add then dropped.addChild id else dropped) = added
    have hpar : added.parents = m.parents := by
      rw [← hadd, ← hdrop]
      split <;> split <;> simp [Node.removeChild]
    split
    · next hx =>
      rw [hx, hn, Option.some.injEq] at hm
      rw [hf added (hm ▸ hpar)]
    · rw [← hpar]

private theorem relinkNode_eq (id : NodeId) (drop add parents : List NodeId) (x : NodeId) (m : Node) :
    relinkNode id drop add parents x m =
      { m with
        parents := if x = id then parents else m.parents
        children := (relinkNode id drop add parents x m).children } := by
  unfold relinkNode Node.addChild Node.removeChild
  grind

private theorem mem_children_relinkNode {id : NodeId} {drop add parents : List NodeId} {x c : NodeId} {m : Node} :
    c ∈ (relinkNode id drop add parents x m).children ↔
      (x ∈ add ∧ c = id) ∨ (¬ (x ∈ drop ∧ c = id) ∧ c ∈ m.children) := by
  have hd : c ∈ (if x ∈ drop then m.removeChild id else m).children ↔ ¬ (x ∈ drop ∧ c = id) ∧ c ∈ m.children := by
    split <;> simp [Node.mem_children_removeChild, *]
  change c ∈ (if x ∈ add then (if x ∈ drop then m.removeChild id else m).addChild id
    else if x ∈ drop then m.removeChild id else m).children ↔ _
  generalize (if x ∈ drop then m.removeChild id else m) = m' at hd ⊢
  rw [← hd]
  split <;> simp [Node.mem_children_addChild, *]

private theorem nodup_children_relinkNode {id : NodeId} {drop add parents : List NodeId} {x : NodeId} {m : Node}
    (h : m.children.Nodup) : (relinkNode id drop add parents x m).children.Nodup := by
  have hd : (if x ∈ drop then m.removeChild id else m).children.Nodup := by
    split
    · exact Node.nodup_children_removeChild h
    · exact h
  change (if x ∈ add then (if x ∈ drop then m.removeChild id else m).addChild id
    else if x ∈ drop then m.removeChild id else m).children.Nodup
  split
  · exact Node.nodup_children_addChild hd
  · exact hd

/-- Links are changed soundly if the nodes to which the child was added, and those that had it and did not lose it,
are the new parents. -/
theorem WellLinked.relinked_of {g g' : Graph} {id : NodeId} {n : Node} {parents : List NodeId}
    (drop add : List NodeId) (hw : g.WellLinked) (hn : g.node? id = some n) (hs : g.store.Sound → g'.store.Sound)
    (hu : g'.update = g.update.insert id n.depth)
    (hnode : ∀ x, g'.node? x = (g.node? x).map (relinkNode id drop add parents x))
    (hpar : ∀ x, x ∈ parents ↔ x ∈ add ∨ (x ∈ n.parents ∧ x ∉ drop)) : g.Relinked id n parents g' := by
  refine ⟨hn, hs, hu, fun {x} hx => by rw [hnode, hx, Option.map_none], fun {x m} hm => ?_⟩
  have hid : id ∈ m.children ↔ x ∈ n.parents := by
    rw [hw.mem_children_iff hm]
    constructor
    · rintro ⟨n', hn', hx⟩
      rw [hn, Option.some.injEq] at hn'
      exact hn' ▸ hx
    · exact fun hx => ⟨n, hn, hx⟩
  refine ⟨(relinkNode id drop add parents x m).children, ?_, nodup_children_relinkNode (hw.nodup_children hm),
    fun c => ?_⟩
  · rw [hnode, hm, Option.map_some, ← relinkNode_eq]
  · rw [mem_children_relinkNode]
    by_cases hc : c = id
    · subst hc
      rw [if_pos rfl, hpar, hid]
      simp [and_comm]
    · simp [hc]

namespace Relinked

variable {g g' : Graph} {id x p c : NodeId} {n m : Node} {parents : List NodeId}

/-- A node of the relinked graph was there before, with other children and, if it is the relinked one, other parents. -/
theorem some_cases (h : g.Relinked id n parents g') (hm : g'.node? x = some m) :
    ∃ m₀ cs, g.node? x = some m₀ ∧
      m = { m₀ with parents := if x = id then parents else m₀.parents, children := cs } ∧ cs.Nodup ∧
      ∀ c, c ∈ cs ↔ if c = id then x ∈ parents else c ∈ m₀.children := by
  cases hm₀ : g.node? x with
  | none =>
    rw [h.of_none hm₀] at hm
    cases hm
  | some m₀ =>
    obtain ⟨cs, hcs, hnd, hmem⟩ := h.of_some hm₀
    rw [hm, Option.some.injEq] at hcs
    exact ⟨m₀, cs, rfl, hcs, hnd, hmem⟩

/-- The relinked node is fed by its new parents; all other links stay. -/
theorem feeds_iff (h : g.Relinked id n parents g') :
    g'.Feeds p c ↔ if c = id then p ∈ parents else g.Feeds p c := by
  constructor
  · rintro ⟨m, hm, hp⟩
    obtain ⟨m₀, cs, hm₀, rfl, -⟩ := h.some_cases hm
    split
    · next hc => simpa [hc] using hp
    · next hc => exact ⟨m₀, hm₀, by simpa [hc] using hp⟩
  · intro hf
    split at hf
    · next hc =>
      subst hc
      obtain ⟨cs, hcs, -⟩ := h.of_some h.node
      exact ⟨_, hcs, by simpa using hf⟩
    · next hc =>
      obtain ⟨m, hm, hp⟩ := hf
      obtain ⟨cs, hcs, -⟩ := h.of_some hm
      exact ⟨_, hcs, by simpa [hc] using hp⟩

end Relinked

/-- Giving a node parents of the right kind that it does not reach keeps the links sound. -/
theorem WellLinked.relinked {g g' : Graph} {id : NodeId} {n : Node} {parents : List NodeId} (hw : g.WellLinked)
    (hr : g.Relinked id n parents g') (hd : parents ≠ [] → n.kind.isDerived = true)
    (hp : ∀ p ∈ parents, ∃ m, g.node? p = some m ∧ m.kind.isData = true)
    (hac : ∀ p ∈ parents, ¬ ReflTransGen g.Feeds id p) : g'.WellLinked := by
  refine ⟨fun {x m p} hm hpm => ?_, fun {x m c} hm => ?_, fun {x m} hm => ?_, fun {x m} hm hne => ?_, ?_⟩
  all_goals try obtain ⟨m₀, cs, hm₀, rfl, hnd, hmem⟩ := hr.some_cases hm
  · have hpar : ∃ q, g.node? p = some q ∧ q.kind.isData = true := by
      by_cases hx : x = id
      · exact hp p (by simpa [hx] using hpm)
      · exact hw.parents_data hm₀ (by simpa [hx] using hpm)
    obtain ⟨q, hq, hdq⟩ := hpar
    obtain ⟨cs', hcs', -⟩ := hr.of_some hq
    exact ⟨_, hcs', hdq⟩
  · rw [hr.feeds_iff, ← hw.mem_children_iff hm₀]
    exact hmem c
  · exact hnd
  · change m₀.kind.isDerived = true
    by_cases hx : x = id
    · subst hx
      rw [hr.node, Option.some.injEq] at hm₀
      exact hm₀ ▸ hd (by simpa using hne)
    · exact hw.derived hm₀ (by simpa [hx] using hne)
  · refine acyclic_of_rewired id (· ∈ parents) (fun p c hpc => ?_) hac hw.acyclic
    rw [hr.feeds_iff] at hpc
    split at hpc
    · next hc => exact .inl ⟨hc, hpc⟩
    · exact .inr hpc

/-! ### Ranks -/

/-- The nodes of a well linked graph can be ranked, below the size of the graph, so that parents come before their
children: by the number of nodes that they depend on. -/
theorem WellLinked.exists_rank {g : Graph} (hw : g.WellLinked) :
    ∃ rank : NodeId → Nat, (∀ {p c}, g.Feeds p c → rank p < rank c) ∧
      ∀ {id n}, g.node? id = some n → rank id < g.size := by
  classical
  let above (id : NodeId) : Finset NodeId := g.store.ids.toFinset.filter fun x => TransGen g.Feeds x id
  have hlive : ∀ {id n}, g.node? id = some n → id ∈ g.store.ids.toFinset := fun hn =>
    List.mem_toFinset.2 (Store.mem_ids_iff.2 ⟨_, hn⟩)
  refine ⟨fun id => (above id).card, ?_, ?_⟩
  · intro p c hpc
    apply Finset.card_lt_card
    obtain ⟨m, hm⟩ := hw.exists_parent hpc
    have hp : p ∈ above c := Finset.mem_filter.2 ⟨hlive hm, .single hpc⟩
    have hp' : p ∉ above p := fun h => hw.acyclic p (Finset.mem_filter.1 h).2
    refine (Finset.ssubset_iff_of_subset fun x hx => ?_).2 ⟨p, hp, hp'⟩
    have hx := Finset.mem_filter.1 hx
    exact Finset.mem_filter.2 ⟨hx.1, hx.2.tail hpc⟩
  · intro id n hn
    have hsize : g.store.ids.toFinset.card = g.size := by
      rw [List.toFinset_card_of_nodup (Store.nodup_ids _), ← Store.size_eq_length_ids]
      rfl
    rw [← hsize]
    apply Finset.card_lt_card
    refine (Finset.ssubset_iff_of_subset (Finset.filter_subset _ _)).2 ⟨id, hlive hn, fun h => ?_⟩
    exact hw.acyclic id (Finset.mem_filter.1 h).2

end Graph

end Dataflow
