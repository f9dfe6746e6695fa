import Dataflow.Proofs.Graph.Links

/-!
# The search behind the refusal of cycles

Before a link is made, the descendants of the child are searched for the parent.  In a well linked graph the
search comes to an end without meeting an id that names nothing, and finds exactly what there is to find
(`WellLinked.reaches_eq`): it loses one stack entry or one unseen node at every step, and what has been seen is
either still on the stack or has had all of its children seen.  So an operation that makes links is refused for a
cycle exactly if the links would close one, and otherwise changes the links as asked:

* `addChild_eq_ok`, `removeChild_eq_ok`, `setParents_eq_ok`: what these operations do when they succeed;
* `addChild_cycle_iff`, `setParents_cycle_iff`: when they are refused for a cycle.
-/

namespace Dataflow.Graph

open Relation

/-- The state of a search for the descendants of a node: what is on the stack can be reached, and every node that
has been seen is on the stack or has been expanded, without `target` among its children. -/
structure Searched (g : Graph) (source target : NodeId) (seen stack : List NodeId) : Prop where
  reached : ∀ x ∈ stack, ReflTransGen g.Feeds source x
  expanded : ∀ x, x = source ∨ x ∈ seen → x ∈ stack ∨ ∀ c, g.Feeds x c → c ≠ target ∧ c ∈ seen

namespace Searched

variable {g : Graph} {source target id : NodeId} {seen stack : List NodeId} {n : Node}

theorem start (g : Graph) (source target : NodeId) : g.Searched source target [] [source] := by
  refine ⟨?_, ?_⟩
  · intro x hx
    rw [List.mem_singleton.1 hx]
  · intro x hx
    rcases hx with rfl | hx
    · exact .inl (List.mem_singleton_self x)
    · cases hx

/-- With an empty stack the target is no descendant of the source. -/
theorem not_transGen (h : g.Searched source target seen []) : ¬ TransGen g.Feeds source target := by
  have hclosed : ∀ {x}, x = source ∨ x ∈ seen → ∀ c, g.Feeds x c → c ≠ target ∧ c ∈ seen := fun hx =>
    (h.expanded _ hx).resolve_left List.not_mem_nil
  have hseen : ∀ {x}, ReflTransGen g.Feeds source x → x = source ∨ x ∈ seen := by
    intro x hx
    induction hx with
    | refl => exact .inl rfl
    | tail _ hbc ih => exact .inr (hclosed ih _ hbc).2
  intro ht
  obtain ⟨x, hx, hxt⟩ := TransGen.tail'_iff.1 ht
  exact (hclosed (hseen hx) target hxt).1 rfl

/-- Expanding the topmost node, if the target is not among its children. -/
theorem expand (h : g.Searched source target seen (id :: stack)) (hw : g.WellLinked) (hn : g.node? id = some n)
    (ht : target ∉ n.children) :
    g.Searched source target (n.children.filter (· ∉ seen) ++ seen)
      ((n.children.filter (· ∉ seen)).reverse ++ stack) := by
  have hid := h.reached id (List.mem_cons_self ..)
  refine ⟨?_, ?_⟩
  · intro x hx
    rcases List.mem_append.1 hx with hx | hx
    · have hx := List.mem_of_mem_filter (List.mem_reverse.1 hx)
      exact hid.tail ((hw.mem_children_iff hn).1 hx)
    · exact h.reached x (List.mem_cons_of_mem _ hx)
  · intro x hx
    by_cases hnew : x ∈ n.children.filter (· ∉ seen)
    · exact .inl (List.mem_append_left _ (List.mem_reverse.2 hnew))
    · have hx : x = source ∨ x ∈ seen := hx.imp_right fun hx => (List.mem_append.1 hx).resolve_left hnew
      rcases h.expanded x hx with hx | hx
      · rcases List.mem_cons.1 hx with rfl | hx
        · refine .inr fun c hc => ?_
          have hc := (hw.mem_children_iff hn).2 hc
          refine ⟨fun he => ht (he ▸ hc), List.mem_append.2 ?_⟩
          by_cases hs : c ∈ seen
          · exact .inr hs
          · exact .inl (List.mem_filter.2 ⟨hc, by simpa using hs⟩)
        · exact .inl (List.mem_append_right _ hx)
      · exact .inr fun c hc => ⟨(hx c hc).1, List.mem_append_right _ (hx c hc).2⟩

end Searched

/-- The existing nodes that have not been seen. -/
private def unseen (g : Graph) (seen : List NodeId) : List NodeId := g.store.ids.filter (· ∉ seen)

/-- New nodes that are seen are not unseen any more. -/
private theorem length_unseen_append {g : Graph} {new : List NodeId} (seen : List NodeId) (hnd : new.Nodup)
    (hsub : ∀ x ∈ new, x ∈ g.store.ids ∧ x ∉ seen) :
    new.length + (g.unseen (new ++ seen)).length ≤ (g.unseen seen).length := by
  rw [← List.length_append]
  refine (List.subperm_of_subset (List.nodup_append.2 ⟨hnd, (Store.nodup_ids _).filter _, ?_⟩) ?_).length_le
  · intro a ha b hb
    rintro rfl
    have hb := (List.mem_filter.1 hb).2
    simp [ha] at hb
  · intro x hx
    rcases List.mem_append.1 hx with hx | hx
    · exact List.mem_filter.2 ⟨(hsub x hx).1, by simpa using (hsub x hx).2⟩
    · obtain ⟨hx, hs⟩ := List.mem_filter.1 hx
      simp only [List.mem_append, not_or, decide_eq_true_eq] at hs
      exact List.mem_filter.2 ⟨hx, by simpa using hs.2⟩

private theorem searchBelow_eq {g : Graph} {source target : NodeId} (hw : g.WellLinked)
    (hs : ∃ n, g.node? source = some n) (fuel : Nat) (seen stack : List NodeId)
    (h : g.Searched source target seen stack) (hfuel : stack.length + (g.unseen seen).length < fuel) :
    ∃ b, g.searchBelow target fuel seen stack = .ok b ∧ (b = true ↔ TransGen g.Feeds source target) := by
  induction fuel generalizing seen stack with
  | zero => omega
  | succ fuel ih =>
    cases stack with
    | nil => exact ⟨false, rfl, by simpa using h.not_transGen⟩
    | cons id stack =>
      have hid := h.reached id (List.mem_cons_self ..)
      have hlive : ∃ n, g.node? id = some n := by
        rcases ReflTransGen.cases_tail hid with rfl | ⟨p, -, n, hn, -⟩
        · exact hs
        · exact ⟨n, hn⟩
      obtain ⟨n, hn⟩ := hlive
      have hstep : g.searchBelow target (fuel + 1) seen (id :: stack) =
          if target ∈ n.children then .ok true
          else g.searchBelow target fuel (n.children.filter (· ∉ seen) ++ seen)
            ((n.children.filter (· ∉ seen)).reverse ++ stack) := by
        rw [searchBelow, node_eq_ok_iff.2 hn]
        rfl
      rw [hstep]
      by_cases ht : target ∈ n.children
      · rw [if_pos ht]
        exact ⟨true, rfl, by simpa using TransGen.tail' hid ((hw.mem_children_iff hn).1 ht)⟩
      · rw [if_neg ht]
        refine ih _ _ (h.expand hw hn ht) ?_
        have hlen := length_unseen_append (g := g) seen ((hw.nodup_children hn).filter (· ∉ seen))
          fun x hx => by
            obtain ⟨hx, hxs⟩ := List.mem_filter.1 hx
            obtain ⟨m, hm, -⟩ := (hw.mem_children_iff hn).1 hx
            exact ⟨Store.mem_ids_iff.2 ⟨m, hm⟩, by simpa using hxs⟩
        simp only [List.length_append, List.length_reverse, List.length_cons] at hfuel ⊢
        omega

/-- The search decides whether the one node is the other or a descendant of it. -/
theorem WellLinked.reaches_eq {g : Graph} (hw : g.WellLinked) {source : NodeId}
    (hs : ∃ n, g.node? source = some n) (target : NodeId) :
    ∃ b, g.reaches source target = .ok b ∧ (b = true ↔ ReflTransGen g.Feeds source target) := by
  unfold reaches
  split
  · next h => exact ⟨true, rfl, by simp [h, ReflTransGen.refl]⟩
  · next h =>
    have hlen : (g.unseen []).length ≤ g.size := by
      rw [show g.size = g.store.ids.length from Store.size_eq_length_ids _]
      exact List.length_filter_le ..
    obtain ⟨b, hb, hbt⟩ := searchBelow_eq hw hs (g.size + 2) [] [source] (.start g source target)
      (by simp only [List.length_singleton]; omega)
    refine ⟨b, hb, hbt.trans ?_⟩
    rw [reflTransGen_iff_eq_or_transGen]
    exact ⟨.inr, fun h' => h'.resolve_left fun he => h he.symm⟩

/-! ### Operations on links -/

/-- What replacing the parents of a node asks of each new parent. -/
def checkParent (g : Graph) (id parent : NodeId) : Except GraphError Unit := do
  g.checkDataParent parent
  g.checkAcyclic parent id

section Operations

variable {g g' : Graph} (hw : g.WellLinked)
include hw

/-- A link is refused for a cycle exactly if the parent is the child or a descendant of it. -/
theorem WellLinked.checkAcyclic_cases {p c : NodeId} (hc : ∃ n, g.node? c = some n) :
    (g.checkAcyclic p c = .ok () ∧ ¬ ReflTransGen g.Feeds c p) ∨
      (g.checkAcyclic p c = .error (.graphCycle p c) ∧ ReflTransGen g.Feeds c p) := by
  obtain ⟨b, hb, hbt⟩ := hw.reaches_eq hc p
  have hcheck : g.checkAcyclic p c = if b = true then .error (.graphCycle p c) else .ok () := by
    unfold checkAcyclic
    rw [hb]
    rfl
  cases b with
  | false => exact .inl ⟨hcheck, by simpa using hbt⟩
  | true => exact .inr ⟨hcheck, by simpa using hbt⟩

private theorem WellLinked.checkAcyclic_eq_ok {p c : NodeId} (hc : ∃ n, g.node? c = some n)
    (h : g.checkAcyclic p c = .ok ()) : ¬ ReflTransGen g.Feeds c p := by
  rcases hw.checkAcyclic_cases (p := p) hc with ⟨-, hr⟩ | ⟨he, -⟩
  · exact hr
  · rw [he] at h
    cases h

/-- No node reaches one of its parents. -/
theorem WellLinked.not_reach_parent {id p : NodeId} {n : Node} (hn : g.node? id = some n) (hp : p ∈ n.parents) :
    ¬ ReflTransGen g.Feeds id p :=
  fun h => hw.acyclic id (TransGen.tail' h ⟨n, hn, hp⟩)

/-- Making a parent of a node adds it to the end of the node's parents, unless it is one already. -/
theorem addChild_eq_ok {p c : NodeId} {added : Bool} (h : g.addChild p c = .ok (added, g')) :
    (added = false ∧ g' = g) ∨
      (added = true ∧ ∃ n, g.Relinked c n (n.parents ++ [p]) g' ∧ g'.WellLinked) := by
  unfold addChild at h
  simp only [bind_eq_ok, node_eq_ok_iff] at h
  obtain ⟨_, hp, n, hn, h⟩ := h
  obtain ⟨m, hm, hmd⟩ := checkDataParent_eq_ok_iff.1 hp
  split at h
  · cases h
  next hd =>
  split at h
  · simp only [Except.ok.injEq, Prod.mk.injEq] at h
    exact .inl ⟨h.1.symm, h.2.symm⟩
  next hp =>
  simp only [bind_eq_ok, pure_eq_ok, Prod.mk.injEq] at h
  obtain ⟨_, hac, rfl, rfl⟩ := h
  have hac := hw.checkAcyclic_eq_ok ⟨n, hn⟩ hac
  have hr : g.Relinked c n (n.parents ++ [p])
      (((g.linkChild [p] c).modify c fun n => { n with parents := n.parents ++ [p] }).pendUpdate c n.depth) := by
    refine hw.relinked_of [] [p] hn (fun hs => (store_linkChild hs [p] c).modify _ _)
      (by simp [pendUpdate, Graph.modify]) (fun x => ?_) fun x => by simp [or_comm]
    exact node?_relink [] [p] hn (fun m hm => by rw [hm]) x
  refine .inr ⟨rfl, n, hr, hw.relinked hr (fun _ => by simpa using hd) (fun q hq => ?_) fun q hq => ?_⟩
  · rcases List.mem_append.1 hq with hq | hq
    · exact hw.parents_data hn hq
    · exact ⟨m, by rwa [List.mem_singleton.1 hq], hmd⟩
  · rcases List.mem_append.1 hq with hq | hq
    · exact hw.not_reach_parent hn hq
    · rwa [List.mem_singleton.1 hq]

/-- Taking a parent from a node removes every occurrence of it among the node's parents. -/
theorem removeChild_eq_ok {p c : NodeId} {removed : Bool} (h : g.removeChild p c = .ok (removed, g')) :
    (removed = false ∧ g' = g) ∨
      (removed = true ∧ ∃ n, g.Relinked c n (n.parents.filter (· ≠ p)) g' ∧ g'.WellLinked) := by
  unfold removeChild at h
  simp only [bind_eq_ok, node_eq_ok_iff] at h
  obtain ⟨_, -, n, hn, h⟩ := h
  split at h
  · simp only [Except.ok.injEq, Prod.mk.injEq] at h
    exact .inl ⟨h.1.symm, h.2.symm⟩
  simp only [pure_eq_ok, Prod.mk.injEq] at h
  obtain ⟨rfl, rfl⟩ := h
  have hr : g.Relinked c n (n.parents.filter (· ≠ p))
      (((g.modify c fun n => { n with parents := n.parents.filter (· ≠ p) }).unlinkChild [p] c).pendUpdate c
        n.depth) := by
    refine hw.relinked_of [p] [] hn
      (fun hs => store_unlinkChild (g := g.modify c _) (hs.modify c _) [p] c)
      (by simp [pendUpdate, Graph.modify]) (fun x => ?_) fun x => by simp
    change (((g.modify c fun n => { n with parents := n.parents.filter (· ≠ p) }).unlinkChild [p] c).node? x) = _
    rw [node?_unlinkChild, node?_modify]
    by_cases hx : x = c
    · subst hx
      rw [hn]
      by_cases hxp : x = p <;> simp [relinkNode, hxp, Node.removeChild]
    · by_cases hxp : x = p
      · subst hxp
        cases g.node? x <;> simp [relinkNode, hx, Node.removeChild]
      · cases g.node? x <;> simp [relinkNode, hx, hxp]
  refine .inr ⟨rfl, n, hr, hw.relinked hr (fun hne => ?_) (fun q hq => ?_) fun q hq => ?_⟩
  · exact hw.derived hn fun he => hne (by simp [he])
  · exact hw.parents_data hn (List.mem_of_mem_filter hq)
  · exact hw.not_reach_parent hn (List.mem_of_mem_filter hq)

/-- Replacing the parents of a node gives it the parents listed. -/
theorem setParents_eq_ok {id : NodeId} {parents : List NodeId} (h : g.setParents id parents = .ok g') :
    ∃ n, g.Relinked id n parents g' ∧ g'.WellLinked := by
  unfold setParents at h
  simp only [bind_eq_ok, node_eq_ok_iff] at h
  obtain ⟨n, hn, h⟩ := h
  split at h
  · cases h
  next hd =>
  simp only [bind_eq_ok, pure_eq_ok] at h
  obtain ⟨_, hall, rfl⟩ := h
  have hall : ∀ p ∈ parents, (∃ m, g.node? p = some m ∧ m.kind.isData = true) ∧ ¬ ReflTransGen g.Feeds id p := by
    intro p hp
    obtain ⟨_, hdata, hac⟩ := bind_eq_ok.1 (forM_eq_ok_iff.1 hall p hp)
    exact ⟨checkDataParent_eq_ok_iff.1 hdata, hw.checkAcyclic_eq_ok ⟨n, hn⟩ hac⟩
  have hr : g.Relinked id n parents
      ((((g.unlinkChild (n.parents.filter (· ∉ parents)) id).linkChild parents id).modify id fun n =>
        { n with parents := parents }).pendUpdate id n.depth) := by
    refine hw.relinked_of (n.parents.filter (· ∉ parents)) parents hn
      (fun hs => (store_linkChild (store_unlinkChild hs _ _) parents id).modify _ _)
      (by simp [pendUpdate, Graph.modify]) (fun x => ?_) (fun x => ?_)
    · exact node?_relink _ parents hn (fun _ _ => rfl) x
    · simp only [List.mem_filter, decide_eq_true_eq]
      constructor
      · exact .inl
      · rintro (hx | ⟨hx, hnot⟩)
        · exact hx
        · by_contra hxp
          exact hnot ⟨hx, hxp⟩
  refine ⟨n, hr, hw.relinked hr (fun hne => ?_) (fun p hp => (hall p hp).1) fun p hp => (hall p hp).2⟩
  simpa [hne] using hd

/-! ### Refusals -/

/-- Making a node a parent of another, where the kinds allow it, is refused exactly for a cycle. -/
theorem WellLinked.addChild_cases {p c : NodeId} {m n : Node} (hm : g.node? p = some m) (hd : m.kind.isData = true)
    (hn : g.node? c = some n) (hk : n.kind.isDerived = true) :
    (g.Feeds p c ∧ g.addChild p c = .ok (false, g)) ∨
      (¬ g.Feeds p c ∧ ¬ ReflTransGen g.Feeds c p ∧ ∃ g', g.addChild p c = .ok (true, g')) ∨
      (¬ g.Feeds p c ∧ ReflTransGen g.Feeds c p ∧ g.addChild p c = .error (.graphCycle p c)) := by
  have hfeeds : g.Feeds p c ↔ p ∈ n.parents := by
    constructor
    · rintro ⟨n', hn', hp⟩
      rw [hn, Option.some.injEq] at hn'
      exact hn' ▸ hp
    · exact fun hp => ⟨n, hn, hp⟩
  have hstep : g.addChild p c = if p ∈ n.parents then .ok (false, g) else do
      g.checkAcyclic p c
      let linked := (g.linkChild [p] c).modify c fun n => { n with parents := n.parents ++ [p] }
      return (true, linked.pendUpdate c n.depth) := by
    unfold addChild
    rw [checkDataParent_eq_ok_iff.2 ⟨m, hm, hd⟩, node_eq_ok_iff.2 hn]
    simp [bind, Except.bind, hk]
  rw [hfeeds, hstep]
  by_cases hp : p ∈ n.parents
  · exact .inl ⟨hp, if_pos hp⟩
  · rw [if_neg hp]
    rcases hw.checkAcyclic_cases (p := p) ⟨n, hn⟩ with ⟨hc, hr⟩ | ⟨hc, hr⟩
    · rw [hc]
      exact .inr (.inl ⟨hp, hr, _, rfl⟩)
    · rw [hc]
      exact .inr (.inr ⟨hp, hr, rfl⟩)

/-- With both nodes as they should be, a link is refused for a cycle exactly if it is new and would close one. -/
theorem WellLinked.addChild_cycle_iff {p c : NodeId} {m n : Node} (hm : g.node? p = some m)
    (hd : m.kind.isData = true) (hn : g.node? c = some n) (hk : n.kind.isDerived = true) :
    (∃ a b, g.addChild p c = .error (.graphCycle a b)) ↔ ¬ g.Feeds p c ∧ ReflTransGen g.Feeds c p := by
  rcases hw.addChild_cases hm hd hn hk with ⟨hf, h⟩ | ⟨hf, hr, g', h⟩ | ⟨hf, hr, h⟩
  · simp [h, hf]
  · simp [h, hr]
  · exact iff_of_true ⟨p, c, h⟩ ⟨hf, hr⟩

/-- The parents are looked at in turn, and the first one that would close a cycle is reported. -/
private theorem WellLinked.forM_checkParent {id : NodeId} {n : Node} (hn : g.node? id = some n)
    (parents : List NodeId) (hp : ∀ p ∈ parents, ∃ m, g.node? p = some m ∧ m.kind.isData = true) :
    (parents.forM (g.checkParent id) = .ok () ∧ ∀ p ∈ parents, ¬ ReflTransGen g.Feeds id p) ∨
      ∃ p ∈ parents, parents.forM (g.checkParent id) = .error (.graphCycle p id) ∧ ReflTransGen g.Feeds id p := by
  induction parents with
  | nil => exact .inl ⟨rfl, by simp⟩
  | cons p parents ih =>
    rw [List.forall_mem_cons] at hp
    have hstep : (p :: parents).forM (g.checkParent id) =
        (g.checkAcyclic p id >>= fun _ => parents.forM (g.checkParent id)) := by
      change (g.checkParent id p >>= fun _ => parents.forM (g.checkParent id)) = _
      unfold checkParent
      rw [checkDataParent_eq_ok_iff.2 hp.1]
      rfl
    rw [hstep]
    rcases hw.checkAcyclic_cases (p := p) ⟨n, hn⟩ with ⟨hc, hr⟩ | ⟨hc, hr⟩
    · rw [hc]
      rcases ih hp.2 with ⟨h, hall⟩ | ⟨q, hq, h, hrq⟩
      · exact .inl ⟨h, List.forall_mem_cons.2 ⟨hr, hall⟩⟩
      · exact .inr ⟨q, List.mem_cons_of_mem _ hq, h, hrq⟩
    · rw [hc]
      exact .inr ⟨p, List.mem_cons_self .., rfl, hr⟩

/-- With all nodes as they should be, new parents are refused for a cycle exactly if one of them would close one. -/
theorem WellLinked.setParents_cycle_iff {id : NodeId} {n : Node} {parents : List NodeId} (hn : g.node? id = some n)
    (hk : parents ≠ [] → n.kind.isDerived = true)
    (hp : ∀ p ∈ parents, ∃ m, g.node? p = some m ∧ m.kind.isData = true) :
    (∃ a b, g.setParents id parents = .error (.graphCycle a b)) ↔ ∃ p ∈ parents, ReflTransGen g.Feeds id p := by
  have hkind : ¬ (n.kind.isDerived = false ∧ parents ≠ []) := fun h => by simp [hk h.2] at h
  unfold setParents
  rw [node_eq_ok_iff.2 hn]
  change (∃ a b, (if n.kind.isDerived = false ∧ parents ≠ [] then .error (.wrongKind id .derivedNode)
    else parents.forM (g.checkParent id) >>= fun _ => _) = _) ↔ _
  rw [if_neg hkind]
  rcases hw.forM_checkParent hn parents hp with ⟨h, hall⟩ | ⟨p, hpm, h, hr⟩
  · rw [h]
    refine iff_of_false ?_ fun ⟨p, hpm, hr⟩ => hall p hpm hr
    rintro ⟨a, b, he⟩
    cases he
  · rw [h]
    exact iff_of_true ⟨p, id, rfl⟩ ⟨p, hpm, hr⟩

end Operations

end Dataflow.Graph
