import Dataflow.Graph.InPlace
import Dataflow.Proofs.Graph.Sound
import Dataflow.Proofs.PendingSet

/-!
# Edits of graphs in place

Every edit in place does what it does as an operation, and whatever can be refused is refused before the first change:
the nodes that are changed later on exist.

* `addNode_eq`, `removeNode_eq`, `setScope_eq`, `addChild_eq`, `removeChild_eq`, `setParents_eq`;
* `Added.undone`: a node that has just been added can be taken back.
-/

namespace Dataflow.Graph

namespace InPlace

open Stepwise

variable {g : Graph} {id : NodeId} {n : Node} {f : Node → Node}

theorem alter_of_some (hn : g.node? id = some n) : (alter id f).run g = .ok () (g.modify id f) :=
  bind_of_ok (read_of_ok g (node_eq_ok_iff.2 hn))

/-- Changing nodes that exist one after the other. -/
theorem forM_alter {ids : List NodeId} (h : ∀ id ∈ ids, ∃ n, g.node? id = some n) :
    (ids.forM fun id => alter id f).run g = .ok () (ids.foldl (fun g id => g.modify id f) g) := by
  induction ids generalizing g with
  | nil => rfl
  | cons id ids ih =>
    obtain ⟨n, hn⟩ := h id (List.mem_cons_self ..)
    exact (bind_of_ok (alter_of_some hn)).trans (ih fun x hx => exists_modify id f (h x (List.mem_cons_of_mem _ hx)))

private theorem store_eq (n : Node) (g : Graph) :
    (store n).run g = .ok (g.store.insert n).1 { g with store := (g.store.insert n).2 } := rfl

/-- Adding a node step by step ends as adding it at once does. -/
theorem addNode_eq (hs : g.store.Sound) (n : Node) : (addNode n).run g = result g (g.addNode n) := by
  unfold addNode Graph.addNode
  split
  · rfl
  refine read_bind fun _ hp => read_bind fun depth _ => ?_
  obtain ⟨hid, hstore⟩ := Store.modify_insert g.store n fun n => { n with depth := depth }
  let id := (g.store.insert { n with depth := depth }).1
  let stored : Graph := { g with store := (g.store.insert { n with depth := depth }).2 }
  have hself : Graph.node? { g with store := (g.store.insert n).2 } (g.store.insert n).1 = some n := by
    change (g.store.insert n).2.get? _ = _
    rw [Store.get?_insert hs, if_pos rfl]
  have hstored : Graph.modify { g with store := (g.store.insert n).2 } (g.store.insert n).1
      (fun n => { n with depth := depth }) = stored := congrArg (Graph.mk · g.update) hstore
  have hparents : ∀ p ∈ n.parents, ∃ m, stored.node? p = some m := by
    intro p hp'
    obtain ⟨m, hm, -⟩ := checkDataParent_eq_ok_iff.1 (forM_eq_ok_iff.1 hp p hp')
    exact ⟨m, Store.get?_insert_of_some hs _ hm⟩
  rw [bind_of_ok (store_eq n g), bind_of_ok (alter_of_some hself), hstored, bind_of_ok (forM_alter hparents),
    change_bind, ← hid]
  let linked := stored.linkChild n.parents id
  have hupdate : linked.update = g.update := update_linkChild ..
  change EStateM.Result.ok id (if linked.update.isEmpty then linked else linked.pendUpdate id depth) = _
  rw [hupdate]
  rfl

/-- Taking a node out of its scope is never refused. -/
theorem detach_eq (hn : g.node? id = some n) : (detach id).run g = .ok () (g.detach id) := by
  unfold detach Graph.detach
  rw [bind_of_ok (read_of_ok g (node_eq_ok_iff.2 hn)), hn]
  obtain ⟨_, _, _, _, _, _, _, _, name?, scope?⟩ := n
  cases name? with
  | none => cases scope? <;> rfl
  | some name =>
    cases scope? with
    | none => rfl
    | some scope =>
      obtain ⟨m, hm⟩ := exists_modify scope (·.mapMembers (·.erase name)) ⟨_, hn⟩
      exact change_bind.trans (alter_of_some hm)

private theorem take_eq {store : Store Node} (hr : g.store.remove? id = some (n, store)) :
    (take id).run g = .ok n { g with store := store } := by
  change take id g = _
  rw [take, hr]

private theorem exists_detach (x : NodeId) (hn : g.node? id = some n) :
    ∃ m, (g.detach x).node? id = some m := by
  obtain ⟨m, hm, -⟩ := (renamed_detach g x).same.exists_of_some hn
  exact ⟨m, hm⟩

/-- Removing a node step by step ends as removing it at once does. -/
theorem removeNode_eq (g : Graph) (id : NodeId) : (removeNode id).run g = result g (g.removeNode id) := by
  unfold removeNode Graph.removeNode
  refine read_bind fun n hn => ?_
  rw [node_eq_ok_iff] at hn
  dsimp only
  split
  · rfl
  split
  · rfl
  obtain ⟨m, hm⟩ := exists_detach id hn
  obtain ⟨store, hr⟩ := Store.remove?_eq_some hm
  rw [bind_of_ok (detach_eq hn), bind_of_ok (take_eq hr), change_bind, change_bind, hr]
  rfl

/-- A node may be placed in a scope only if both are there. -/
theorem exists_of_checkScope {scope : NodeId} {name : String} (h : g.checkScope (some id) scope name = .ok ()) :
    (∃ n, g.node? id = some n) ∧ ∃ m, g.node? scope = some m := by
  unfold checkScope at h
  split at h
  · cases h
  simp only [bind_eq_ok, node_eq_ok_iff] at h
  obtain ⟨m, hm, h⟩ := h
  split at h
  · cases h
  split at h
  · cases h
  obtain ⟨_, hid, -⟩ := bind_eq_ok.1 h
  refine ⟨?_, m, hm⟩
  cases hn : g.node id with
  | error err =>
    rw [hn] at hid
    cases hid
  | ok n => exact ⟨n, node_eq_ok_iff.1 hn⟩

/-- Moving a node to a scope step by step ends as doing so at once. -/
theorem setScope_eq (g : Graph) (id scope : NodeId) (name : String) :
    (setScope id scope name).run g = result g (Prod.mk () <$> g.setScope id scope name) := by
  unfold setScope Graph.setScope
  rw [map_bind]
  refine read_bind fun _ hc => ?_
  obtain ⟨⟨n, hn⟩, m, hm⟩ := exists_of_checkScope hc
  obtain ⟨m', hm'⟩ := exists_detach id hm
  obtain ⟨n', hn'⟩ := exists_modify scope (·.mapMembers (·.insert name id)) (exists_detach id hn)
  rw [bind_of_ok (detach_eq hn), bind_of_ok (alter_of_some hm'), alter_of_some hn']
  rfl

theorem addChild_eq (g : Graph) (parent child : NodeId) :
    (addChild parent child).run g = result g (g.addChild parent child) := by
  unfold addChild Graph.addChild
  refine read_bind fun _ hp => read_bind fun n hn => ?_
  obtain ⟨m, hm, -⟩ := checkDataParent_eq_ok_iff.1 hp
  rw [node_eq_ok_iff] at hn
  split
  · rfl
  split
  · rfl
  refine read_bind fun _ _ => ?_
  obtain ⟨n', hn'⟩ := exists_modify parent (·.addChild child) ⟨n, hn⟩
  rw [bind_of_ok (alter_of_some hm), bind_of_ok (alter_of_some hn'), change_bind]
  rfl

theorem removeChild_eq (g : Graph) (parent child : NodeId) :
    (removeChild parent child).run g = result g (g.removeChild parent child) := by
  unfold removeChild Graph.removeChild
  cases hm : g.node parent with
  | error err => exact bind_of_error (read_of_error g hm)
  | ok m =>
  rw [bind_of_ok (read_of_ok g hm)]
  refine read_bind fun n hn => ?_
  rw [node_eq_ok_iff] at hn hm
  split
  · rfl
  obtain ⟨m', hm'⟩ :=
    exists_modify child (fun n => { n with parents := n.parents.filter (· ≠ parent) }) ⟨m, hm⟩
  rw [bind_of_ok (alter_of_some hn), bind_of_ok (alter_of_some hm'), change_bind]
  rfl

/-- All parents of a node exist, the old ones as well as those that it may be given. -/
theorem setParents_eq (hw : g.WellLinked) (id : NodeId) (parents : List NodeId) :
    (setParents id parents).run g = result g (Prod.mk () <$> g.setParents id parents) := by
  unfold setParents Graph.setParents
  rw [map_bind]
  refine read_bind fun n hn => ?_
  rw [node_eq_ok_iff] at hn
  split
  · rfl
  rw [map_bind]
  refine read_bind fun _ hall => ?_
  have hold : ∀ p ∈ n.parents.filter (· ∉ parents), ∃ m, g.node? p = some m := by
    intro p hp
    obtain ⟨m, hm, -⟩ := hw.parents_data hn (List.mem_of_mem_filter hp)
    exact ⟨m, hm⟩
  let dropped := g.unlinkChild (n.parents.filter (· ∉ parents)) id
  have hnew : ∀ p ∈ parents, ∃ m, dropped.node? p = some m := by
    intro p hp
    obtain ⟨_, hdata, -⟩ := bind_eq_ok.1 (forM_eq_ok_iff.1 hall p hp)
    obtain ⟨m, hm, -⟩ := checkDataParent_eq_ok_iff.1 hdata
    exact exists_foldl_modify _ _ ⟨m, hm⟩
  have hself : ∃ m, (dropped.linkChild parents id).node? id = some m :=
    exists_foldl_modify _ _ (exists_foldl_modify _ _ ⟨n, hn⟩)
  obtain ⟨m, hm⟩ := hself
  rw [bind_of_ok (forM_alter hold)]
  refine (bind_of_ok (forM_alter hnew)).trans ?_
  refine (bind_of_ok (alter_of_some hm)).trans ?_
  rfl

end InPlace

/-! ### Taking back a node -/

/-- The two graphs have the same nodes under the same ids, and the depths of the same nodes may be stale. -/
structure Alike (g g' : Graph) : Prop where
  nodes : ∀ x, g'.node? x = g.node? x
  update : g'.update = g.update

theorem Alike.refl (g : Graph) : g.Alike g := ⟨fun _ => rfl, rfl⟩

variable {g g' f : Graph} {id : NodeId} {n : Node}

/-- A node that has neither a name nor children nor members can be removed, and the names of other nodes stay. -/
theorem removeNode_of_unnamed (hn : g.node? id = some n) (hname : n.name? = none) (hc : n.children = [])
    (hm : memberCount n = 0) :
    ∃ g', g.removeNode id = .ok (n, g') ∧
      (∀ x, g'.node? x = if x = id then none
        else if x ∈ n.parents then (g.node? x).map (·.removeChild id) else g.node? x) ∧
      g'.update = g.update.remove id := by
  have hd : g.detach id = g := by
    unfold detach
    rw [hn]
    obtain ⟨_, _, _, _, _, _, _, _, name?, _⟩ := n
    cases hname
    rfl
  obtain ⟨store, hr⟩ := Store.remove?_eq_some hn
  let unlinked := Graph.unlinkChild { g with store := store } n.parents id
  have hupdate : unlinked.update = g.update := update_unlinkChild ..
  refine ⟨{ unlinked with update := unlinked.update.remove id }, ?_, fun x => ?_, congrArg (·.remove id) hupdate⟩
  · unfold memberCount at hm
    unfold removeNode
    rw [node_eq_ok_iff.2 hn]
    simp [bind, Except.bind, hc, hm, hd, hr, pure, Except.pure, unlinked]
  · change unlinked.node? x = _
    rw [node?_unlinkChild]
    change (if x ∈ n.parents then (store.get? x).map (·.removeChild id) else store.get? x) = _
    rw [Store.get?_remove hr]
    split
    · split <;> rfl
    · rfl

/-- Removing a node that has just been added leaves the graph as it was before. -/
theorem Added.undone (h : g.Added n id g') (hg : g.Sound) (hname : n.name? = none) (hc : n.children = [])
    (hm : memberCount n = 0) {d : Nat} (hu : g'.update = g.update ∨ g'.update = g.update.insert id d)
    (hf : g'.Alike f) :
    ∃ f', f.removeNode id = .ok (n, f') ∧ g.Alike f' := by
  obtain ⟨f', hr, hnodes, hupdate⟩ := removeNode_of_unnamed ((hf.nodes id).trans h.self) hname hc hm
  refine ⟨f', hr, fun x => ?_, ?_⟩
  · rw [hnodes, hf.nodes]
    cases hx : g.node? x with
    | none =>
      rw [h.node?, hx]
      split
      · rfl
      · split <;> rfl
    | some m =>
      -- The id was not in use, so that it is a child of the node only because it has been added.
      have hchild : id ∉ m.children := by
        intro hid
        obtain ⟨n', hn', -⟩ := (hg.linked.mem_children_iff hx).1 hid
        rw [h.fresh] at hn'
        cases hn'
      rw [if_neg (h.ne hx), h.of_some hx]
      split
      · rw [Option.map_some, Node.removeChild_addChild hchild]
      · rfl
  · have hid : id ∉ g.update.nodes := by
      intro hid
      obtain ⟨n', hn'⟩ := hg.keyed.exists_of_mem hid
      rw [h.fresh] at hn'
      cases hn'
    rw [hupdate, hf.update]
    rcases hu with hu | hu
    · rw [hu, PendingSet.remove_of_notMem hid]
    · rw [hu, PendingSet.remove_insert d hid]

end Dataflow.Graph
