import Dataflow.Proofs.Graph.Search

/-!
# Sound graphs

Between operations depths may be stale, but never unnoticed: a graph is sound (`Graph.Sound`) if it is well linked,
every node whose depth is not what its parents make it is pending for the depth update, and every pending node is
pending under the depth stored for it (`Graph.Keyed`).  Every operation on a graph keeps it sound:

* `Sound.congr`: changes that touch neither links nor depths;
* `Sound.added`, `Sound.removed`, `Sound.relinked`: creating, removing and relinking nodes.
-/

namespace Dataflow.Graph

/-! ### Keys -/

/-- Every pending node exists and is pending under the depth stored for it. -/
def Keyed (g : Graph) (s : PendingSet) : Prop :=
  ∀ x d, s.depth? x = some d → ∃ n, g.node? x = some n ∧ n.depth = d

namespace Keyed

variable {g g' : Graph} {s t : PendingSet} {x : NodeId} {n : Node}

theorem empty (g : Graph) : g.Keyed .empty := by
  intro x d h
  simp at h

theorem exists_of_mem (h : g.Keyed s) (hx : x ∈ s.nodes) : ∃ n, g.node? x = some n := by
  obtain ⟨d, hd⟩ := PendingSet.mem_nodes_iff.1 hx
  obtain ⟨n, hn, -⟩ := h x d hd
  exact ⟨n, hn⟩

theorem entry (h : g.Keyed s) {e : Pending} (he : e ∈ s.entries) : ∃ n, g.node? e.node = some n ∧ n.depth = e.depth :=
  h e.node e.depth (PendingSet.depth?_eq_some_iff.2 he)

/-- Keys stay right in a graph in which the pending nodes have the same depths. -/
theorem mono (h : g.Keyed s)
    (hsame : ∀ x n, x ∈ s.nodes → g.node? x = some n → ∃ n', g'.node? x = some n' ∧ n'.depth = n.depth) :
    g'.Keyed s := by
  intro x d hd
  obtain ⟨n, hn, rfl⟩ := h x d hd
  exact hsame x n (PendingSet.mem_nodes_iff.2 ⟨_, hd⟩) hn

theorem congr (h : g.Keyed s) (hsame : SameUpTo Node.depth g g') : g'.Keyed s :=
  h.mono fun _ _ _ hn => hsame.exists_of_some hn

theorem insert (h : g.Keyed s) (hn : g.node? x = some n) : g.Keyed (s.insert x n.depth) := by
  intro y d hd
  rcases PendingSet.mem_of_mem_insert (PendingSet.depth?_eq_some_iff.1 hd) with he | he
  · simp only [Pending.mk.injEq] at he
    exact ⟨n, he.2 ▸ hn, he.1.symm⟩
  · exact h.entry he

theorem insertAll (h : g.Keyed s) (ids : List NodeId) : g.Keyed (s.insertAll (g.withDepths ids)) := by
  intro y d hd
  rcases PendingSet.mem_of_mem_insertAll (PendingSet.depth?_eq_some_iff.1 hd) with he | he
  · exact h.entry he
  · exact (mem_withDepths.1 he).2

theorem remove (h : g.Keyed s) (x : NodeId) : g.Keyed (s.remove x) := by
  intro y d hd
  rw [PendingSet.depth?_remove] at hd
  split at hd
  · cases hd
  · exact h y d hd

theorem pop (h : g.Keyed s) {e : Pending} (hp : s.pop? = some (e, t)) : g.Keyed t := by
  intro y d hd
  rw [PendingSet.depth?_pop hp] at hd
  split at hd
  · cases hd
  · exact h y d hd

/-- Pending nodes that are put under stored depths are keyed. -/
theorem rekey (g : Graph) (s : PendingSet) : g.Keyed (s.rekey fun x => (g.node? x).map Node.depth) := by
  intro y d hd
  rw [PendingSet.depth?_rekey] at hd
  split at hd
  · exact Option.map_eq_some_iff.1 hd
  · cases hd

end Keyed

/-! ### Depths -/

/-- The depth of the node, if it exists, is what its parents make it. -/
def SettledAt (g : Graph) (x : NodeId) : Prop := ∀ n, g.node? x = some n → g.depthBelow n.parents = .ok n.depth

theorem depthBelow_congr {g g' : Graph} {parents : List NodeId} {d : Nat}
    (hsame : ∀ p ∈ parents, (g'.node? p).map Node.depth = (g.node? p).map Node.depth)
    (h : g.depthBelow parents = .ok d) : g'.depthBelow parents = .ok d := by
  have hof : ∀ p ∈ parents, g'.depthOf p = g.depthOf p := fun p hp => by rw [depthOf, depthOf, hsame p hp]
  obtain ⟨hlive, hlt, hd⟩ := depthBelow_eq_ok_iff.1 h
  refine depthBelow_eq_ok_iff.2 ⟨fun p hp => ?_, fun p hp => ?_, ?_⟩
  · obtain ⟨m, hm⟩ := hlive p hp
    have hp' := hsame p hp
    rw [hm, Option.map_some] at hp'
    obtain ⟨m', hm', -⟩ := Option.map_eq_some_iff.1 hp'
    exact ⟨m', hm'⟩
  · rw [hof p hp]
    exact hlt p hp
  · rcases hd with hd | ⟨p, hp, hpd⟩
    · exact .inl hd
    · exact .inr ⟨p, hp, by rw [hof p hp, hpd]⟩

theorem SettledAt.congr {g g' : Graph} {x : NodeId} {n n' : Node} (h : g.SettledAt x) (hn : g.node? x = some n)
    (hn' : g'.node? x = some n') (hp : n'.parents = n.parents) (hd : n'.depth = n.depth)
    (hsame : ∀ p ∈ n.parents, (g'.node? p).map Node.depth = (g.node? p).map Node.depth) : g'.SettledAt x := by
  intro m hm
  rw [hn', Option.some.injEq] at hm
  rw [← hm, hp, hd]
  exact depthBelow_congr hsame (h n hn)

/-- A settled node is deeper than its parents. -/
theorem SettledAt.depthOf_lt {g : Graph} {p c : NodeId} (h : g.SettledAt c) (hpc : g.Feeds p c) :
    g.depthOf p < g.depthOf c := by
  obtain ⟨n, hn, hp⟩ := hpc
  rw [depthOf_eq hn]
  exact (depthBelow_eq_ok_iff.1 (h n hn)).2.1 p hp

/-! ### Soundness -/

/-- The links are sound, every node with a stale depth is pending, and pending nodes have the right keys. -/
structure Sound (g : Graph) : Prop where
  store : g.store.Sound
  linked : g.WellLinked
  keyed : g.Keyed g.update
  settled : ∀ x, x ∉ g.update.nodes → g.SettledAt x

/-- In the empty graph there is nothing that could be wrong. -/
theorem sound_empty : empty.Sound := by
  refine ⟨Store.sound_empty, wellLinked_empty, .empty _, fun x _ n hn => ?_⟩
  simp [empty, node?, Store.empty, Store.get?] at hn

namespace Sound

variable {g g' : Graph} {id : NodeId} {n : Node}

/-- Changes that touch neither links nor depths keep a graph sound. -/
theorem congr (h : g.Sound) (hsame : SameUpTo Node.shape g g') (hu : g'.update = g.update) (hs : g'.store.Sound) :
    g'.Sound := by
  have hdepth : SameUpTo Node.depth g g' := hsame.weaken fun _ _ => Node.depth_of_shape
  refine ⟨hs, h.linked.congr (hsame.weaken fun _ _ => Node.frame_of_shape), hu ▸ h.keyed.congr hdepth,
    fun x hx m' hm' => ?_⟩
  rw [hu] at hx
  obtain ⟨m, hm, he⟩ := hsame.symm.exists_of_some hm'
  have hpar := (of_frame_eq (Node.frame_of_shape he)).1
  exact (h.settled x hx).congr hm hm' hpar.symm (Node.depth_of_shape he).symm (fun p _ => hdepth p) m' hm'

/-- Adding a node leaves the depths of all others. -/
theorem depth_added {m : Node} (ha : g.Added n id g') (x : NodeId) (hm : g.node? x = some m) :
    ∃ m', g'.node? x = some m' ∧ m'.depth = m.depth := by
  refine ⟨_, ha.of_some hm, ?_⟩
  split <;> simp

/-- Adding a node at the depth that its parents make keeps a graph sound. -/
theorem added (h : g.Sound) (ha : g.Added n id g') (hc : n.children = [])
    (hd : g.depthBelow n.parents = .ok n.depth)
    (hu : g'.update = g.update ∨ g'.update = g.update.insert id n.depth) : g'.Sound := by
  -- The nodes that are there already keep their depths, and only they are parents.
  have hpar : ∀ p m, g.node? p = some m → (g'.node? p).map Node.depth = (g.node? p).map Node.depth := by
    intro p m hm
    obtain ⟨m', hm', he⟩ := depth_added ha p hm
    rw [hm, hm', Option.map_some, Option.map_some, he]
  have hkeyed : g'.Keyed g.update := h.keyed.mono fun x m _ hm => depth_added ha x hm
  refine ⟨ha.store, h.linked.added ha hc, ?_, ?_⟩
  · rcases hu with hu | hu
    · rwa [hu]
    · rw [hu]
      exact hkeyed.insert ha.self
  · intro x hx m' hm'
    rcases ha.some_cases hm' with ⟨rfl, rfl⟩ | ⟨m, hm, hme⟩
    · refine depthBelow_congr (fun p hp => ?_) hd
      obtain ⟨q, hq, -⟩ := ha.parents p hp
      exact hpar p q hq
    · have hx : x ∉ g.update.nodes := by
        rcases hu with hu | hu
        · rwa [hu] at hx
        · rw [hu, PendingSet.mem_nodes_insert] at hx
          exact fun hmem => hx (.inr hmem)
      refine (h.settled x hx).congr hm hm' ?_ ?_ (fun p hp => ?_) m' hm'
      · rw [hme]
        split <;> simp
      · rw [hme]
        split <;> simp
      · obtain ⟨q, hq, -⟩ := h.linked.parents_data hm hp
        exact hpar p q hq

/-- Removing a node without children keeps a graph sound. -/
theorem removed (h : g.Sound) (hr : g.Removed id n g') : g'.Sound := by
  have hdepth : ∀ x m, x ≠ id → g.node? x = some m → ∃ m', g'.node? x = some m' ∧ m'.depth = m.depth := by
    intro x m hx hm
    obtain ⟨m', hm', he⟩ := hr.of_some hm hx
    refine ⟨m', hm', (Node.depth_of_shape (Node.shape_of_anonymous he)).trans ?_⟩
    split <;> rfl
  refine ⟨hr.store, h.linked.removed hr, ?_, ?_⟩
  · rw [hr.update]
    refine (h.keyed.remove id).mono fun x m hx hm => hdepth x m ?_ hm
    exact (PendingSet.mem_nodes_remove.1 hx).1
  · intro x hx m' hm'
    obtain ⟨hne, m, hm, he⟩ := hr.some_cases hm'
    have hx : x ∉ g.update.nodes := by
      rw [hr.update, PendingSet.mem_nodes_remove] at hx
      exact fun hmem => hx ⟨hne, hmem⟩
    refine (h.settled x hx).congr hm hm' ?_ ?_ (fun p hp => ?_) m' hm'
    · rw [(of_frame_eq (Node.frame_of_anonymous he)).1]
      split <;> rfl
    · rw [Node.depth_of_shape (Node.shape_of_anonymous he)]
      split <;> rfl
    -- The removed node has no children, so it is no parent of this one.
    · have hpid : p ≠ id := by
        rintro rfl
        have hc := (h.linked.mem_children_iff hr.node).2 ⟨m, hm, hp⟩
        rw [hr.children] at hc
        cases hc
      obtain ⟨q, hq, -⟩ := h.linked.parents_data hm hp
      obtain ⟨q', hq', hqe⟩ := hdepth p q hpid hq
      rw [hq, hq', Option.map_some, Option.map_some, hqe]

/-- Giving a node other parents keeps a graph sound. -/
theorem relinked {parents : List NodeId} (h : g.Sound) (hr : g.Relinked id n parents g') (hw : g'.WellLinked) :
    g'.Sound := by
  have hdepth : SameUpTo Node.depth g g' := by
    intro x
    cases hm : g.node? x with
    | none => rw [hr.of_none hm]
    | some m =>
      obtain ⟨cs, hcs, -⟩ := hr.of_some hm
      rw [hcs]
      rfl
  refine ⟨hr.store h.store, hw, ?_, ?_⟩
  · rw [hr.update]
    exact (h.keyed.insert hr.node).congr hdepth
  · intro x hx m' hm'
    obtain ⟨m, cs, hm, rfl, -⟩ := hr.some_cases hm'
    rw [hr.update, PendingSet.mem_nodes_insert, not_or] at hx
    exact (h.settled x hx.2).congr hm hm' (if_neg hx.1) rfl (fun p _ => hdepth p) _ hm'

end Sound

end Dataflow.Graph
