import Dataflow.Graph.Depth
import Dataflow.Graph.Link
import Dataflow.Graph.Propagation
import Dataflow.Proofs.Store

/-!
# What the operations on a graph do to its nodes

Every operation on a graph is described by the nodes found afterwards (`node?`) and by the set of nodes whose
depth may be stale (`update`).  Two graphs agree up to a projection of nodes (`SameUpTo`) if under every id they
hold nodes with the same image or none.  The projections are the node without its name (`Node.anonymous`) or
without its depth (`Node.flat`), the part of a node that evaluation never touches (`Node.shape`), and the part
that the depth update does not touch either (`Node.frame`).

* `bind_eq_ok`: when a sequence of steps of which each may be refused succeeds;
* `depthBelow_eq_ok_iff`: the depth computed from the parents is the least one below all of them;
* `addNode_eq_ok`, `removeNode_eq_ok`, `setScope_eq_ok`: what these operations do when they succeed.
-/

namespace Dataflow

/-- A chain of steps succeeds exactly if the first does, and the rest with what it gives. -/
theorem bind_eq_ok {ε α β : Type} {x : Except ε α} {f : α → Except ε β} {b : β} :
    (x >>= f) = .ok b ↔ ∃ a, x = .ok a ∧ f a = .ok b := by
  cases x <;> simp [bind, Except.bind]

/-- A chain of steps fails exactly if the first does, or the rest with what it gives. -/
theorem bind_eq_error {ε α β : Type} {x : Except ε α} {f : α → Except ε β} {err : ε} :
    (x >>= f) = .error err ↔ x = .error err ∨ ∃ a, x = .ok a ∧ f a = .error err := by
  cases x <;> simp [bind, Except.bind]

theorem pure_eq_ok {ε α : Type} {a b : α} : (pure a : Except ε α) = .ok b ↔ a = b := by
  simp [pure, Except.pure]

theorem forM_eq_ok_iff {ε α : Type} {f : α → Except ε Unit} {l : List α} :
    l.forM f = .ok () ↔ ∀ a ∈ l, f a = .ok () := by
  induction l with
  | nil => simp [pure_eq_ok]
  | cons a l ih =>
    change (f a >>= fun _ => l.forM f) = .ok () ↔ _
    rw [bind_eq_ok, List.forall_mem_cons, ← ih]
    exact ⟨fun ⟨_, h⟩ => h, fun h => ⟨(), h⟩⟩

/-! ### Projections of nodes -/

/-- The kind without the members of a scope. -/
def NodeKind.emptied : NodeKind → NodeKind
  | .scope _ => .scope .empty
  | kind => kind

@[simp] theorem NodeKind.isData_emptied (k : NodeKind) : k.emptied.isData = k.isData := by cases k <;> rfl

@[simp] theorem NodeKind.isDerived_emptied (k : NodeKind) : k.emptied.isDerived = k.isDerived := by
  cases k <;> rfl

@[simp] theorem NodeKind.isTrigger_emptied (k : NodeKind) : k.emptied.isTrigger = k.isTrigger := by
  cases k <;> rfl

@[simp] theorem NodeKind.emptied_emptied (k : NodeKind) : k.emptied.emptied = k.emptied := by cases k <;> rfl

theorem NodeKind.of_emptied_eq_formula {k : NodeKind} {t : DataType} {rule : ValueRule}
    (h : k.emptied = .formula t rule) : k = .formula t rule := by
  cases k <;> first | exact h | cases h

namespace Node

/-- The node without its name, its scope and its members. -/
def anonymous (n : Node) : Node := { n with kind := n.kind.emptied, name? := none, scope? := none }

/-- The part of a node that evaluation does not touch: kind, links and depth. -/
def shape (n : Node) : Node :=
  { n.anonymous with value? := none, provoked := false, staged? := none, changedIn := 0 }

/-- The part of a node that naming, staging and resetting do not touch. -/
def evaluated (n : Node) : Node := { n.anonymous with provoked := false, staged? := none }

/-- The node without its depth. -/
def flat (n : Node) : Node := { n with depth := 0 }

/-- The part of a node that neither evaluation nor the depth update touches: kind and links. -/
def frame (n : Node) : Node := n.shape.flat

@[simp] theorem anonymous_mapMembers (n : Node) (f : Directory → Directory) :
    (n.mapMembers f).anonymous = n.anonymous := by
  unfold mapMembers
  split
  · next h => simp [anonymous, h, NodeKind.emptied]
  · rfl

@[simp] theorem shape_settled (n : Node) (pass : Nat) (o : Outcome) : (n.settled pass o).shape = n.shape := by
  cases o <;> rfl

theorem shape_of_anonymous {n m : Node} (h : n.anonymous = m.anonymous) : n.shape = m.shape := by
  unfold shape
  rw [h]

theorem shape_of_evaluated {n m : Node} (h : n.evaluated = m.evaluated) : n.shape = m.shape := by
  have hs : { n.evaluated with value? := none, changedIn := 0 } =
      { m.evaluated with value? := none, changedIn := 0 } := by rw [h]
  exact hs

theorem changedIn_of_evaluated {n m : Node} (h : n.evaluated = m.evaluated) : n.changedIn = m.changedIn := by
  have hc : n.evaluated.changedIn = m.evaluated.changedIn := by rw [h]
  exact hc

theorem evaluated_of_anonymous {n m : Node} (h : n.anonymous = m.anonymous) : n.evaluated = m.evaluated := by
  unfold evaluated
  rw [h]

theorem depth_of_shape {n m : Node} (h : n.shape = m.shape) : n.depth = m.depth := by
  have hd : n.shape.depth = m.shape.depth := by rw [h]
  exact hd

theorem frame_of_shape {n m : Node} (h : n.shape = m.shape) : n.frame = m.frame := by
  unfold frame
  rw [h]

theorem frame_of_anonymous {n m : Node} (h : n.anonymous = m.anonymous) : n.frame = m.frame :=
  frame_of_shape (shape_of_anonymous h)

theorem frame_of_flat {n m : Node} (h : n.flat = m.flat) : n.frame = m.frame := congrArg shape h

theorem of_flat_eq {n m : Node} (h : n.flat = m.flat) :
    n.kind = m.kind ∧ n.parents = m.parents ∧ n.value? = m.value? ∧ n.staged? = m.staged? :=
  ⟨(congrArg Node.kind h : n.flat.kind = m.flat.kind), (congrArg Node.parents h : n.flat.parents = m.flat.parents),
    (congrArg Node.value? h : n.flat.value? = m.flat.value?), (congrArg Node.staged? h : n.flat.staged? = m.flat.staged?)⟩

@[simp] theorem parents_addChild (n : Node) (c : NodeId) : (n.addChild c).parents = n.parents := by
  unfold addChild
  split <;> rfl

@[simp] theorem kind_addChild (n : Node) (c : NodeId) : (n.addChild c).kind = n.kind := by
  unfold addChild
  split <;> rfl

@[simp] theorem depth_addChild (n : Node) (c : NodeId) : (n.addChild c).depth = n.depth := by
  unfold addChild
  split <;> rfl

@[simp] theorem changedIn_addChild (n : Node) (c : NodeId) : (n.addChild c).changedIn = n.changedIn := by
  unfold addChild
  split <;> rfl

private theorem addChild_addChild (n : Node) (c : NodeId) : (n.addChild c).addChild c = n.addChild c := by
  unfold addChild
  by_cases h : c ∈ n.children <;> simp [h]

private theorem removeChild_removeChild (n : Node) (c : NodeId) :
    (n.removeChild c).removeChild c = n.removeChild c := by
  simp [removeChild, List.filter_filter]

/-- A child that has been added can be removed again. -/
theorem removeChild_addChild {n : Node} {c : NodeId} (h : c ∉ n.children) : (n.addChild c).removeChild c = n := by
  have hkept : n.children.filter (· ≠ c) = n.children :=
    List.filter_eq_self.2 fun d hd => by simpa using fun he : d = c => h (he ▸ hd)
  unfold addChild removeChild
  rw [if_neg h]
  simp only [List.filter_append, hkept, ne_eq, not_true_eq_false, decide_false, List.filter_cons_of_neg,
    Bool.false_eq_true, not_false_eq_true, List.filter_nil, List.append_nil]

theorem mem_children_addChild {n : Node} {c d : NodeId} : d ∈ (n.addChild c).children ↔ d = c ∨ d ∈ n.children := by
  unfold addChild
  split
  · next h =>
    constructor
    · exact .inr
    · rintro (rfl | hd)
      · exact h
      · exact hd
  · simp [or_comm]

theorem mem_children_removeChild {n : Node} {c d : NodeId} :
    d ∈ (n.removeChild c).children ↔ d ≠ c ∧ d ∈ n.children := by
  simp [removeChild, and_comm]

theorem nodup_children_addChild {n : Node} {c : NodeId} (h : n.children.Nodup) : (n.addChild c).children.Nodup := by
  unfold addChild
  split
  · exact h
  · next hc =>
    rw [List.nodup_append]
    refine ⟨h, List.nodup_singleton c, fun a ha b hb => ?_⟩
    rw [List.mem_singleton] at hb
    rintro rfl
    exact hc (hb ▸ ha)

theorem nodup_children_removeChild {n : Node} {c : NodeId} (h : n.children.Nodup) :
    (n.removeChild c).children.Nodup := h.filter _

/-- A new value is one that the node does not hold yet.  It is what the rule of a formula makes of its arguments, or it
has been staged for an input or a constant. -/
theorem outcome_eq_value {n : Node} {args : List Arg} {v : Value} (h : n.outcome args = .value v) :
    n.value? ≠ some v ∧
      ((∃ t rule, n.kind = .formula t rule ∧ args.any Arg.isMissing = false ∧ rule.compute args n.value? = some v) ∨
        ((∃ t, n.kind = .input t) ∨ n.kind = .constant) ∧ n.staged? = some (.value v)) := by
  cases hk : n.kind with
  | formula t rule =>
    simp only [outcome, hk] at h
    split at h
    · cases h
    · next hmiss =>
      split at h
      · next w hw =>
        split at h
        · cases h
        · next hne =>
          cases h
          exact ⟨hne, .inl ⟨t, rule, rfl, by simpa using hmiss, hw⟩⟩
      · cases h
  | input | constant =>
    simp only [outcome, hk] at h
    split at h
    · next w hw =>
      split at h
      · cases h
      · next hne =>
        cases h
        exact ⟨hne, .inr ⟨by simp, hw⟩⟩
    · cases h
  | trigger | triggerInput =>
    simp only [outcome, hk] at h
    split at h <;> cases h
  | scope | functionGroup =>
    simp only [outcome, hk] at h
    cases h

end Node

namespace Graph

/-- Under every id the two graphs hold nodes with the same image, or none. -/
def SameUpTo {α : Type} (f : Node → α) (g g' : Graph) : Prop := ∀ id, (g'.node? id).map f = (g.node? id).map f

namespace SameUpTo

variable {α : Type} {f : Node → α} {g g' g'' : Graph}

theorem refl (f : Node → α) (g : Graph) : SameUpTo f g g := fun _ => rfl

theorem trans (h : SameUpTo f g g') (h' : SameUpTo f g' g'') : SameUpTo f g g'' :=
  fun id => (h' id).trans (h id)

theorem symm (h : SameUpTo f g g') : SameUpTo f g' g := fun id => (h id).symm

theorem weaken {β : Type} {k : Node → β} (h : SameUpTo f g g') (hk : ∀ n m, f n = f m → k n = k m) :
    SameUpTo k g g' := by
  intro id
  have hid := h id
  cases hn : g.node? id <;> cases hm : g'.node? id <;> simp only [hn, hm, Option.map] at hid ⊢
  · cases hid
  · cases hid
  · rw [Option.some.injEq] at hid ⊢
    exact hk _ _ hid

/-- A node of the one graph has its counterpart in the other. -/
theorem exists_of_some (h : SameUpTo f g g') {id : NodeId} {n : Node} (hn : g.node? id = some n) :
    ∃ n', g'.node? id = some n' ∧ f n' = f n := by
  have hid := h id
  rw [hn, Option.map_some] at hid
  exact Option.map_eq_some_iff.1 hid

theorem none_iff (h : SameUpTo f g g') {id : NodeId} : g'.node? id = none ↔ g.node? id = none := by
  rw [← Option.map_eq_none_iff (f := f), h id, Option.map_eq_none_iff]

end SameUpTo

/-- A graph with nodes under no other ids is no larger. -/
theorem size_le_of_some {g g' : Graph} (l : List NodeId)
    (h : ∀ x n, g'.node? x = some n → x ∈ l ∨ ∃ m, g.node? x = some m) : g'.size ≤ g.size + l.length :=
  Store.size_le_of_subset l h

theorem SameUpTo.size_le {α : Type} {f : Node → α} {g g' : Graph} (h : SameUpTo f g g') : g'.size ≤ g.size :=
  size_le_of_some [] fun _ _ hn => .inr ((h.symm.exists_of_some hn).imp fun _ => And.left)

/-! ### Changing nodes one at a time -/

theorem node_eq_ok_iff {g : Graph} {id : NodeId} {n : Node} : g.node id = .ok n ↔ g.node? id = some n := by
  unfold node
  cases g.node? id <;> simp

theorem node?_modify (g : Graph) (id x : NodeId) (f : Node → Node) :
    (g.modify id f).node? x = if x = id then (g.node? x).map f else g.node? x := Store.get?_modify ..

/-- Changing a node keeps all nodes. -/
theorem exists_modify {g : Graph} {x : NodeId} (id : NodeId) (f : Node → Node) (h : ∃ n, g.node? x = some n) :
    ∃ n, (g.modify id f).node? x = some n := by
  obtain ⟨n, hn⟩ := h
  rw [node?_modify, hn]
  split <;> exact ⟨_, rfl⟩

theorem exists_foldl_modify {g : Graph} {x : NodeId} (ids : List NodeId) (f : Node → Node)
    (h : ∃ n, g.node? x = some n) : ∃ n, (ids.foldl (fun g id => g.modify id f) g).node? x = some n := by
  induction ids generalizing g with
  | nil => exact h
  | cons id ids ih => exact ih (exists_modify id f h)

/-- A change that something of a node does not see leaves the graph the same up to that. -/
theorem SameUpTo.modify {α : Type} {k : Node → α} {f : Node → Node} (hf : ∀ n, k (f n) = k n) (g : Graph)
    (id : NodeId) : SameUpTo k g (g.modify id f) := by
  intro x
  rw [node?_modify]
  split
  · rw [Option.map_map]
    congr 1
    exact funext hf
  · rfl

/-- Changing several nodes by one idempotent function. -/
private theorem node?_foldl_modify {f : Node → Node} (hf : ∀ n, f (f n) = f n) (g : Graph) (ids : List NodeId)
    (x : NodeId) :
    (ids.foldl (fun g id => g.modify id f) g).node? x = if x ∈ ids then (g.node? x).map f else g.node? x := by
  induction ids generalizing g with
  | nil => simp
  | cons id ids ih =>
    rw [List.foldl_cons, ih, node?_modify]
    by_cases hx : x = id
    · subst hx
      have hff : f ∘ f = f := funext hf
      by_cases hm : x ∈ ids <;> simp [hm, Option.map_map, hff]
    · simp [hx]

private theorem store_foldl_modify (f : Node → Node) (g : Graph) (ids : List NodeId) (h : g.store.Sound) :
    (ids.foldl (fun g id => g.modify id f) g).store.Sound := by
  induction ids generalizing g with
  | nil => exact h
  | cons id ids ih => exact ih (g.modify id f) (h.modify id f)

private theorem update_foldl_modify (f : Node → Node) (g : Graph) (ids : List NodeId) :
    (ids.foldl (fun g id => g.modify id f) g).update = g.update := by
  induction ids generalizing g with
  | nil => rfl
  | cons id ids ih => exact ih (g.modify id f)

theorem node?_linkChild (g : Graph) (parents : List NodeId) (child x : NodeId) :
    (g.linkChild parents child).node? x =
      if x ∈ parents then (g.node? x).map (·.addChild child) else g.node? x :=
  node?_foldl_modify (fun n => n.addChild_addChild child) g parents x

theorem node?_unlinkChild (g : Graph) (parents : List NodeId) (child x : NodeId) :
    (g.unlinkChild parents child).node? x =
      if x ∈ parents then (g.node? x).map (·.removeChild child) else g.node? x :=
  node?_foldl_modify (fun n => n.removeChild_removeChild child) g parents x

@[simp] theorem update_linkChild (g : Graph) (parents : List NodeId) (child : NodeId) :
    (g.linkChild parents child).update = g.update := update_foldl_modify ..

@[simp] theorem update_unlinkChild (g : Graph) (parents : List NodeId) (child : NodeId) :
    (g.unlinkChild parents child).update = g.update := update_foldl_modify ..

theorem store_linkChild {g : Graph} (h : g.store.Sound) (parents : List NodeId) (child : NodeId) :
    (g.linkChild parents child).store.Sound := store_foldl_modify _ _ _ h

theorem store_unlinkChild {g : Graph} (h : g.store.Sound) (parents : List NodeId) (child : NodeId) :
    (g.unlinkChild parents child).store.Sound := store_foldl_modify _ _ _ h

/-! ### Depths read off the parents -/

theorem mem_withDepths {g : Graph} {ids : List NodeId} {e : Pending} :
    e ∈ g.withDepths ids ↔ e.node ∈ ids ∧ ∃ n, g.node? e.node = some n ∧ n.depth = e.depth := by
  obtain ⟨d, x⟩ := e
  simp only [withDepths, List.mem_filterMap, Option.map_eq_some_iff, Pending.mk.injEq]
  constructor
  · rintro ⟨id, hid, n, hn, rfl, rfl⟩
    exact ⟨hid, n, hn, rfl⟩
  · rintro ⟨hid, n, hn, rfl⟩
    exact ⟨x, hid, n, hn, rfl, rfl⟩

theorem mem_nodes_withDepths {g : Graph} {ids : List NodeId} {x : NodeId} :
    x ∈ (g.withDepths ids).map Pending.node ↔ x ∈ ids ∧ ∃ n, g.node? x = some n := by
  simp only [List.mem_map, mem_withDepths]
  constructor
  · rintro ⟨e, ⟨hid, n, hn, -⟩, rfl⟩
    exact ⟨hid, n, hn⟩
  · rintro ⟨hid, n, hn⟩
    exact ⟨⟨n.depth, x⟩, ⟨hid, n, hn, rfl⟩, rfl⟩

private theorem foldl_max_eq_iff {ds : List Nat} {k m : Nat} :
    ds.foldl (fun d x => max d (x + 1)) k = m ↔
      (k ≤ m ∧ ∀ x ∈ ds, x < m) ∧ (m = k ∨ ∃ x ∈ ds, m = x + 1) := by
  induction ds generalizing k with
  | nil =>
    simp only [List.foldl_nil, List.not_mem_nil, false_and, exists_false, or_false]
    constructor
    · rintro rfl
      exact ⟨⟨Nat.le_refl _, by simp⟩, rfl⟩
    · exact fun h => h.2.symm
  | cons y ds ih =>
    rw [List.foldl_cons, ih, List.forall_mem_cons, List.exists_mem_cons_iff]
    constructor
    · rintro ⟨⟨hk, hds⟩, hm⟩
      refine ⟨⟨by omega, by omega, hds⟩, ?_⟩
      rcases hm with hm | hm
      · by_cases hky : k ≤ y + 1
        · exact .inr (.inl (by omega))
        · exact .inl (by omega)
      · exact .inr (.inr hm)
    · rintro ⟨⟨hk, hy, hds⟩, hm⟩
      refine ⟨⟨by omega, hds⟩, ?_⟩
      rcases hm with hm | hm | hm
      · exact .inl (by omega)
      · exact .inl (by omega)
      · exact .inr hm

theorem depth_eq_ok_iff {g : Graph} {id : NodeId} {d : Nat} :
    g.depth id = .ok d ↔ ∃ n, g.node? id = some n ∧ n.depth = d := by
  unfold depth
  rw [bind_eq_ok]
  simp only [node_eq_ok_iff, pure_eq_ok]

/-- The depth stored for a node; 0 if there is none. -/
def depthOf (g : Graph) (id : NodeId) : Nat := ((g.node? id).map Node.depth).getD 0

theorem depthOf_eq {g : Graph} {id : NodeId} {n : Node} (h : g.node? id = some n) : g.depthOf id = n.depth := by
  simp [depthOf, h]

private theorem mapM_depth_eq_ok_iff {g : Graph} {parents : List NodeId} {ds : List Nat} :
    parents.mapM g.depth = .ok ds ↔ (∀ p ∈ parents, ∃ n, g.node? p = some n) ∧ ds = parents.map g.depthOf := by
  induction parents generalizing ds with
  | nil =>
    rw [List.mapM_nil, pure_eq_ok]
    simp [eq_comm]
  | cons p parents ih =>
    simp only [List.mapM_cons, bind_eq_ok, pure_eq_ok, depth_eq_ok_iff, ih, List.forall_mem_cons, List.map_cons]
    constructor
    · rintro ⟨d, ⟨n, hn, rfl⟩, ds', ⟨hl, rfl⟩, rfl⟩
      exact ⟨⟨⟨n, hn⟩, hl⟩, by rw [depthOf_eq hn]⟩
    · rintro ⟨⟨⟨n, hn⟩, hl⟩, rfl⟩
      exact ⟨n.depth, ⟨n, hn, rfl⟩, _, ⟨hl, rfl⟩, by rw [depthOf_eq hn]⟩

/-- The depth computed from the parents is the least one below all of them; they all have to exist. -/
theorem depthBelow_eq_ok_iff {g : Graph} {parents : List NodeId} {d : Nat} :
    g.depthBelow parents = .ok d ↔
      (∀ p ∈ parents, ∃ n, g.node? p = some n) ∧ (∀ p ∈ parents, g.depthOf p < d) ∧
        (d = 0 ∨ ∃ p ∈ parents, d = g.depthOf p + 1) := by
  unfold depthBelow
  simp only [bind_eq_ok, pure_eq_ok, mapM_depth_eq_ok_iff, foldl_max_eq_iff, Nat.zero_le, true_and]
  constructor
  · rintro ⟨ds, ⟨hl, rfl⟩, hd⟩
    simp only [List.mem_map, exists_exists_and_eq_and, forall_exists_index, and_imp, forall_apply_eq_imp_iff₂] at hd
    exact ⟨hl, hd⟩
  · rintro ⟨hl, hd⟩
    refine ⟨_, ⟨hl, rfl⟩, ?_⟩
    simp only [List.mem_map, exists_exists_and_eq_and, forall_exists_index, and_imp, forall_apply_eq_imp_iff₂]
    exact hd

/-- If all parents are there, there is a depth below them. -/
theorem exists_depthBelow {g : Graph} {parents : List NodeId} (h : ∀ p ∈ parents, ∃ n, g.node? p = some n) :
    ∃ d, g.depthBelow parents = .ok d := by
  unfold depthBelow
  simp only [bind_eq_ok, pure_eq_ok, mapM_depth_eq_ok_iff]
  exact ⟨_, _, ⟨h, rfl⟩, rfl⟩

/-! ### Adding a node -/

theorem checkDataParent_eq_ok_iff {g : Graph} {p : NodeId} :
    g.checkDataParent p = .ok () ↔ ∃ n, g.node? p = some n ∧ n.kind.isData = true := by
  unfold checkDataParent
  rw [bind_eq_ok]
  simp only [node_eq_ok_iff]
  constructor
  · rintro ⟨n, hn, h⟩
    refine ⟨n, hn, ?_⟩
    by_contra hk
    rw [if_neg hk] at h
    cases h
  · rintro ⟨n, hn, hk⟩
    exact ⟨n, hn, if_pos hk⟩

/-- A node has been added under an id that was not in use, and each of its parents has it as a child. -/
structure Added (g : Graph) (n : Node) (id : NodeId) (g' : Graph) : Prop where
  derived : n.parents ≠ [] → n.kind.isDerived = true
  parents : ∀ p ∈ n.parents, ∃ m, g.node? p = some m ∧ m.kind.isData = true
  fresh : g.node? id = none
  store : g'.store.Sound
  node? : ∀ x, g'.node? x = if x = id then some n
    else if x ∈ n.parents then (g.node? x).map (·.addChild id) else g.node? x

namespace Added

variable {g g' : Graph} {n m : Node} {id x : NodeId}

theorem self (h : g.Added n id g') : g'.node? id = some n := by rw [h.node?, if_pos rfl]

theorem ne (h : g.Added n id g') (hm : g.node? x = some m) : x ≠ id := by
  rintro rfl
  rw [h.fresh] at hm
  cases hm

/-- All other nodes are still there, and the parents have one more child. -/
theorem of_some (h : g.Added n id g') (hm : g.node? x = some m) :
    g'.node? x = some (if x ∈ n.parents then m.addChild id else m) := by
  rw [h.node?, if_neg (h.ne hm), hm]
  split <;> rfl

/-- What is there now is the new node or was there before. -/
theorem some_cases (h : g.Added n id g') (hm : g'.node? x = some m) :
    (x = id ∧ m = n) ∨ ∃ m₀, g.node? x = some m₀ ∧ m = if x ∈ n.parents then m₀.addChild id else m₀ := by
  by_cases hx : x = id
  · subst hx
    rw [h.self, Option.some.injEq] at hm
    exact .inl ⟨rfl, hm.symm⟩
  · cases hm₀ : g.node? x with
    | none =>
      rw [h.node?, if_neg hx, hm₀] at hm
      split at hm <;> cases hm
    | some m₀ =>
      rw [h.of_some hm₀, Option.some.injEq] at hm
      exact .inr ⟨m₀, rfl, hm.symm⟩

/-- The node may be changed once it has been added, but for its kind and its parents. -/
theorem modify {f : Node → Node} (h : g.Added n id g') (hk : (f n).kind = n.kind) (hp : (f n).parents = n.parents) :
    g.Added (f n) id (g'.modify id f) := by
  refine ⟨fun hne => hk ▸ h.derived (hp ▸ hne), fun p hmem => h.parents p (hp ▸ hmem), h.fresh, h.store.modify _ _,
    fun x => ?_⟩
  rw [node?_modify, hp]
  split
  · next hx => rw [hx, h.self, Option.map_some]
  · next hx => rw [h.node?, if_neg hx]

end Added

/-- A node is added at the depth below its parents, and its depth is stale if any other is. -/
theorem addNode_eq_ok {g g' : Graph} {n : Node} {id : NodeId} (hs : g.store.Sound)
    (h : g.addNode n = .ok (id, g')) :
    ∃ d, g.depthBelow n.parents = .ok d ∧ g.Added { n with depth := d } id g' ∧
      (g'.update = g.update ∨ g'.update = g.update.insert id d) := by
  unfold addNode at h
  split at h
  · cases h
  next hd =>
  simp only [bind_eq_ok, pure_eq_ok, Prod.mk.injEq] at h
  obtain ⟨_, hp, d, hdep, rfl, rfl⟩ := h
  have hp := fun p hm => checkDataParent_eq_ok_iff.1 (forM_eq_ok_iff.1 hp p hm)
  have hfresh := Store.get?_insert_fst hs { n with depth := d }
  have hid : (g.store.insert { n with depth := d }).1 ∉ n.parents := by
    intro hm
    obtain ⟨m, hm, -⟩ := hp _ hm
    exact absurd (hfresh.symm.trans hm) (by simp)
  have hnode : ∀ x, ({ g with store := (g.store.insert { n with depth := d }).2 }.linkChild n.parents
      (g.store.insert { n with depth := d }).1).node? x =
      if x = (g.store.insert { n with depth := d }).1 then some { n with depth := d }
      else if x ∈ n.parents then (g.node? x).map (·.addChild (g.store.insert { n with depth := d }).1)
      else g.node? x := by
    intro x
    rw [node?_linkChild]
    simp only [Graph.node?, Store.get?_insert hs]
    by_cases hx : x = (g.store.insert { n with depth := d }).1
    · rw [if_neg (hx ▸ hid), if_pos hx, if_pos hx]
    · rw [if_neg hx, if_neg hx]
  have hstore := store_linkChild (g := { g with store := (g.store.insert { n with depth := d }).2 })
    (hs.insert _) n.parents (g.store.insert { n with depth := d }).1
  refine ⟨d, hdep, ⟨?_, hp, hfresh, ?_, ?_⟩, ?_⟩
  · intro hne
    simpa [hne] using hd
  · split <;> exact hstore
  · intro x
    rw [← hnode x]
    split <;> rfl
  · split
    · exact .inl (update_linkChild ..)
    · exact .inr (by rw [pendUpdate, update_linkChild])

/-- A new scope is a new node without parents. -/
theorem addScope_added {g : Graph} (hs : g.store.Sound) :
    g.Added (.fresh (.scope .empty) [] none) g.addScope.1 g.addScope.2 :=
  ⟨fun h => absurd rfl h, fun _ h => absurd h List.not_mem_nil, Store.get?_insert_fst hs _, hs.insert _,
    fun x => Store.get?_insert hs _ x⟩

/-! ### Names and scopes -/

/-- The two graphs differ in the names of nodes and the members of scopes only. -/
structure Renamed (g g' : Graph) : Prop where
  same : SameUpTo Node.anonymous g g'
  update : g'.update = g.update
  store : g.store.Sound → g'.store.Sound

theorem Renamed.refl (g : Graph) : g.Renamed g := ⟨.refl _ g, rfl, id⟩

theorem Renamed.modify {g g' : Graph} (h : g.Renamed g') (id : NodeId) {f : Node → Node}
    (hf : ∀ n, (f n).anonymous = n.anonymous) : g.Renamed (g'.modify id f) :=
  ⟨h.same.trans (.modify hf g' id), h.update, fun hs => (h.store hs).modify id f⟩

theorem renamed_detach (g : Graph) (id : NodeId) : g.Renamed (g.detach id) := by
  unfold detach
  split
  · exact ((Renamed.refl g).modify _ fun n => n.anonymous_mapMembers _).modify _ fun _ => rfl
  · exact .refl g

theorem setScope_eq_ok {g g' : Graph} {id scope : NodeId} {name : String}
    (h : g.setScope id scope name = .ok g') : g.Renamed g' := by
  unfold setScope at h
  simp only [bind_eq_ok, pure_eq_ok] at h
  obtain ⟨-, -, rfl⟩ := h
  exact ((renamed_detach g id).modify _ fun n => n.anonymous_mapMembers _).modify _ fun _ => rfl

/-! ### Removing a node -/

/-- What removing a node does: it is found no more, each parent loses the id as a child, the names of other nodes
may change, and nothing is stale about the id any more. -/
structure Removed (g : Graph) (id : NodeId) (n : Node) (g' : Graph) : Prop where
  node : g.node? id = some n
  children : n.children = []
  store : g'.store.Sound
  others : ∀ x, (g'.node? x).map Node.anonymous = if x = id then none
    else (g.node? x).map fun m => (if x ∈ n.parents then m.removeChild id else m).anonymous
  update : g'.update = g.update.remove id

namespace Removed

variable {g g' : Graph} {n m : Node} {id x : NodeId}

theorem gone (h : g.Removed id n g') : g'.node? id = none := by
  have hid := h.others id
  rwa [if_pos rfl, Option.map_eq_none_iff] at hid

/-- All other nodes are still there, and the parents have one child less. -/
theorem of_some (h : g.Removed id n g') (hm : g.node? x = some m) (hx : x ≠ id) :
    ∃ m', g'.node? x = some m' ∧ m'.anonymous = (if x ∈ n.parents then m.removeChild id else m).anonymous := by
  have hx' := h.others x
  rw [if_neg hx, hm, Option.map_some] at hx'
  exact Option.map_eq_some_iff.1 hx'

/-- What is there now was there before, and is another node than the removed one. -/
theorem some_cases (h : g.Removed id n g') (hm : g'.node? x = some m) :
    x ≠ id ∧ ∃ m₀, g.node? x = some m₀ ∧
      m.anonymous = (if x ∈ n.parents then m₀.removeChild id else m₀).anonymous := by
  have hx : x ≠ id := by
    rintro rfl
    rw [h.gone] at hm
    cases hm
  refine ⟨hx, ?_⟩
  cases hm₀ : g.node? x with
  | none =>
    have hx' := h.others x
    rw [if_neg hx, hm, hm₀] at hx'
    simp at hx'
  | some m₀ =>
    obtain ⟨m', hm', he⟩ := h.of_some hm₀ hx
    rw [hm, Option.some.injEq] at hm'
    exact ⟨m₀, rfl, hm' ▸ he⟩

end Removed

/-- The number of members of a node; only scopes have any. -/
def memberCount (n : Node) : Nat := (n.members?.map Directory.size).getD 0

/-- Removing a node gives it back as it was, but for its name. -/
theorem removeNode_eq_ok {g g' : Graph} {id : NodeId} {removed : Node} (hs : g.store.Sound)
    (h : g.removeNode id = .ok (removed, g')) :
    ∃ n, g.Removed id n g' ∧ memberCount n = 0 ∧ removed.anonymous = n.anonymous := by
  unfold removeNode at h
  simp only [bind_eq_ok, node_eq_ok_iff] at h
  obtain ⟨n, hn, h⟩ := h
  split at h
  · cases h
  next hc =>
  split at h
  · cases h
  next hm =>
  have hd := renamed_detach g id
  split at h
  · cases h
  next m store hr =>
  simp only [pure_eq_ok, Prod.mk.injEq] at h
  obtain ⟨rfl, rfl⟩ := h
  -- The node taken out of the store is the detached one, which has the same parents.
  have hsame : m.anonymous = n.anonymous := by
    have hid := hd.same id
    rwa [show (g.detach id).node? id = some m from Store.get?_of_remove hr, hn, Option.map_some, Option.map_some,
      Option.some.injEq] at hid
  have hpar : m.parents = n.parents := (congrArg Node.parents hsame : m.anonymous.parents = n.anonymous.parents)
  refine ⟨n, ⟨hn, by simpa using hc, ?_, ?_, ?_⟩, by simpa [memberCount] using hm, hsame⟩
  · exact store_unlinkChild (g := { g.detach id with store := store }) ((hd.store hs).remove hr) _ _
  · intro x
    change ((Graph.unlinkChild { g.detach id with store := store } m.parents id).node? x).map Node.anonymous = _
    rw [node?_unlinkChild, hpar]
    change (if x ∈ n.parents then (store.get? x).map (·.removeChild id) else store.get? x).map Node.anonymous = _
    rw [Store.get?_remove hr]
    have hx := hd.same x
    by_cases hxi : x = id
    · rw [if_pos hxi, if_pos hxi]
      split <;> rfl
    · rw [if_neg hxi, if_neg hxi]
      change (if x ∈ n.parents then ((g.detach id).node? x).map (·.removeChild id)
        else (g.detach id).node? x).map Node.anonymous = _
      split
      -- Names and links are changed independently of each other.
      · rw [Option.map_map]
        have hcomm : ∀ o : Option Node, o.map (Node.anonymous ∘ (·.removeChild id)) =
            (o.map Node.anonymous).map (·.removeChild id) := fun o => by rw [Option.map_map]; rfl
        rw [hcomm, hx, Option.map_map]
        rfl
      · exact hx
  · simp [hd.update]

/-- A node is removed exactly if it exists and has neither children nor members. -/
theorem exists_removeNode_iff {g : Graph} {id : NodeId} :
    (∃ r, g.removeNode id = .ok r) ↔ ∃ n, g.node? id = some n ∧ n.children = [] ∧ memberCount n = 0 := by
  constructor
  · rintro ⟨r, h⟩
    unfold removeNode at h
    simp only [bind_eq_ok, node_eq_ok_iff] at h
    obtain ⟨n, hn, h⟩ := h
    split at h
    · cases h
    next hc =>
    split at h
    · cases h
    next hm =>
    exact ⟨n, hn, by simpa using hc, by simpa [memberCount] using hm⟩
  · rintro ⟨n, hn, hc, hm⟩
    obtain ⟨m, hm', -⟩ := (renamed_detach g id).same.exists_of_some hn
    obtain ⟨store, hr⟩ := Store.remove?_eq_some hm'
    let unlinked := Graph.unlinkChild { g.detach id with store := store } m.parents id
    refine ⟨(m, { unlinked with update := unlinked.update.remove id }), ?_⟩
    unfold memberCount at hm
    unfold removeNode
    rw [node_eq_ok_iff.2 hn]
    simp [bind, Except.bind, hc, hm, hr, pure, Except.pure, unlinked]

end Graph

end Dataflow
