import Dataflow.Proofs.Graph.Sound

/-!
# Propagation

Evaluation in a graph with settled depths (`Graph.Ready`) runs until nothing is pending (`Propagates`), and comes to
every node after all of its parents:

* `Ready.visit_eq`: what evaluating one node does;
* `Ready.exists_propagates`: evaluation ends, after at most one visit for each node;
* `Propagates.pairwise`: nodes are visited in the order of depth and id, so that none is visited twice.  What a
  visited node makes pending comes after it, for it is deeper;
* `Propagates.visited`: what the rule of a node saw of its parents is what they are in the end;
* `Propagates.mem_visited_iff`: the visited nodes are those that had to be (`Affected`).
-/

namespace Dataflow.Graph

/-- The links are sound and no depth is stale. -/
structure Ready (g : Graph) : Prop where
  linked : g.WellLinked
  settled : ∀ x, g.SettledAt x

/-- A sound graph with no depths to settle is ready for evaluation. -/
theorem Sound.ready {g : Graph} (hg : g.Sound) (hu : g.update = .empty) : g.Ready :=
  ⟨hg.linked, fun x => hg.settled x (by rw [hu]; exact List.not_mem_nil)⟩

theorem Ready.congr {g g' : Graph} (h : g.Ready) (hsame : SameUpTo Node.shape g g') : g'.Ready := by
  have hdepth : SameUpTo Node.depth g g' := hsame.weaken fun _ _ => Node.depth_of_shape
  refine ⟨h.linked.congr (hsame.weaken fun _ _ => Node.frame_of_shape), fun x m' hm' => ?_⟩
  obtain ⟨m, hm, he⟩ := hsame.symm.exists_of_some hm'
  have hpar := (of_frame_eq (Node.frame_of_shape he)).1
  exact (h.settled x).congr hm hm' hpar.symm (Node.depth_of_shape he).symm (fun p _ => hdepth p) m' hm'

/-! ### Arguments -/

theorem args?_congr {g g' : Graph} {pass : Nat} {parents : List NodeId}
    (h : ∀ p ∈ parents, g'.node? p = g.node? p) : g'.args? pass parents = g.args? pass parents := by
  unfold args?
  induction parents with
  | nil => rfl
  | cons p parents ih =>
    rw [List.forall_mem_cons] at h
    rw [List.mapM_cons, List.mapM_cons, h.1, ih h.2]

theorem args?_cons_eq_some {g : Graph} {pass : Nat} {p : NodeId} {parents : List NodeId} {args : List Arg} :
    g.args? pass (p :: parents) = some args ↔
      ∃ n rest, g.node? p = some n ∧ g.args? pass parents = some rest ∧ args = n.toArg pass :: rest := by
  unfold args?
  rw [List.mapM_cons]
  cases g.node? p with
  | none => simp
  | some n => cases parents.mapM fun p => (g.node? p).map (·.toArg pass) <;> simp [eq_comm]

theorem exists_args? {g : Graph} {parents : List NodeId} (pass : Nat)
    (h : ∀ p ∈ parents, ∃ n, g.node? p = some n) : ∃ args, g.args? pass parents = some args := by
  unfold args?
  induction parents with
  | nil => exact ⟨[], rfl⟩
  | cons p parents ih =>
    rw [List.forall_mem_cons] at h
    obtain ⟨n, hn⟩ := h.1
    obtain ⟨args, hargs⟩ := ih h.2
    exact ⟨n.toArg pass :: args, by rw [List.mapM_cons, hn, hargs]; rfl⟩

/-! ### One visit -/

/-- What evaluating one node does: the outcome for it happens, and if that is a change, its children become
pending. -/
structure VisitDone (pass : Nat) (g : Graph) (e : Pending) (rest : PendingSet) (n : Node) (v : Visit) (g' : Graph)
    (woken : PendingSet) : Prop where
  node : g.node? e.node = some n
  key : n.depth = e.depth
  entry : v.entry = e
  args : g.args? pass n.parents = some v.args
  outcome : v.outcome = n.outcome v.args
  node? : ∀ x, g'.node? x = if x = e.node then some (n.settled pass v.outcome) else g.node? x
  store : g.store.Sound → g'.store.Sound
  update : g'.update = g.update
  pending : woken = rest.insertAll (if v.outcome.isChange then g'.withDepths n.children else [])

/-- In a graph that is ready, what is taken out is visited, and the visit has done what it should. -/
theorem Ready.visit_eq {g : Graph} (h : g.Ready) {pending rest : PendingSet} {e : Pending} (hk : g.Keyed pending)
    (hp : pending.pop? = some (e, rest)) (pass : Nat) :
    ∃ n v g' woken, g.visit? pass rest e = some (v, g', woken) ∧ VisitDone pass g e rest n v g' woken := by
  obtain ⟨n, hn, hkey⟩ := hk e.node e.depth (PendingSet.depth?_of_pop hp)
  obtain ⟨args, hargs⟩ := exists_args? pass fun p hp => by
    obtain ⟨m, hm, -⟩ := h.linked.parents_data hn hp
    exact ⟨m, hm⟩
  let g' := g.modify e.node (·.settled pass (n.outcome args))
  refine ⟨n, ⟨e, args, n.outcome args, g'.describe e.node⟩, g',
    rest.insertAll (if (n.outcome args).isChange then g'.withDepths n.children else []), ?_,
    hn, hkey, rfl, hargs, rfl, ?_, fun hs => hs.modify _ _, rfl, rfl⟩
  · unfold visit?
    rw [hn]
    simp only [Option.bind_eq_bind, Option.bind_some, hargs]
    rfl
  · intro x
    change (g.modify e.node (·.settled pass (n.outcome args))).node? x = _
    rw [node?_modify]
    split
    · next hx => rw [hx, hn, Option.map_some]
    · rfl

theorem Ready.visitDone {g next : Graph} (h : g.Ready) {pending rest woken : PendingSet} {e : Pending} {pass : Nat}
    {v : Visit} (hk : g.Keyed pending) (hp : pending.pop? = some (e, rest))
    (hv : g.visit? pass rest e = some (v, next, woken)) : ∃ n, VisitDone pass g e rest n v next woken := by
  obtain ⟨n, v', g', woken', hv', hd⟩ := h.visit_eq hk hp pass
  rw [hv, Option.some.injEq, Prod.mk.injEq, Prod.mk.injEq] at hv'
  obtain ⟨rfl, rfl, rfl⟩ := hv'
  exact ⟨n, hd⟩

namespace VisitDone

variable {pass : Nat} {g g' : Graph} {e : Pending} {pending rest woken : PendingSet} {n : Node} {v : Visit}

theorem same (h : VisitDone pass g e rest n v g' woken) : SameUpTo Node.shape g g' := by
  intro x
  rw [h.node?]
  split
  · next hx => rw [hx, h.node, Option.map_some, Option.map_some, Node.shape_settled]
  · rfl

theorem keyed (h : VisitDone pass g e rest n v g' woken) (hk : g.Keyed pending)
    (hp : pending.pop? = some (e, rest)) : g'.Keyed woken := by
  have hrest : g'.Keyed rest := (hk.pop hp).congr (h.same.weaken fun _ _ => Node.depth_of_shape)
  rw [h.pending]
  split
  · exact hrest.insertAll _
  · exact hrest

/-- What becomes pending comes after the node that has been visited. -/
theorem lt_of_mem (h : VisitDone pass g e rest n v g' woken) (hg : g.Ready) (hp : pending.pop? = some (e, rest))
    {f : Pending} (hf : f ∈ woken.entries) : e < f := by
  rw [h.pending] at hf
  rcases PendingSet.mem_of_mem_insertAll hf with hf | hf
  · exact PendingSet.lt_of_mem_pop hp hf
  · split at hf
    · obtain ⟨hc, m, hm, hmd⟩ := mem_withDepths.1 hf
      have hfeeds := (hg.linked.mem_children_iff h.node).1 hc
      have hlt := (hg.settled f.node).depthOf_lt hfeeds
      rw [h.node?, if_neg (hg.linked.ne_of_feeds hfeeds).symm] at hm
      rw [depthOf_eq hm, depthOf_eq h.node, hmd, h.key] at hlt
      exact .inl hlt
    · cases hf

/-- A node that changes or fires makes its children pending. -/
theorem mem_woken_of_child (h : VisitDone pass g e rest n v g' woken) (hg : g.Ready) (hc : v.outcome.isChange = true)
    {c : NodeId} (hm : c ∈ n.children) : c ∈ woken.nodes := by
  rw [h.pending, if_pos hc, PendingSet.mem_nodes_insertAll, mem_nodes_withDepths]
  obtain ⟨m, hm', -⟩ := (hg.linked.mem_children_iff h.node).1 hm
  obtain ⟨m', hm'', -⟩ := h.same.exists_of_some hm'
  exact .inr ⟨hm, m', hm''⟩

end VisitDone

/-! ### Complete runs -/

/-- Evaluation run until nothing is pending. -/
inductive Propagates (pass : Nat) : Graph → PendingSet → List Visit → Graph → Prop
  | drained {g : Graph} : Propagates pass g .empty [] g
  | visit {g next last : Graph} {pending rest woken : PendingSet} {e : Pending} {v : Visit} {visits : List Visit} :
      pending.pop? = some (e, rest) → g.visit? pass rest e = some (v, next, woken) →
      Propagates pass next woken visits last → Propagates pass g pending (v :: visits) last

/-- Evaluation ends after at most one visit for each node on a list of all nodes that do not come before the first
pending one. -/
private theorem Ready.exists_propagates_of_mem (pass : Nat) {g : Graph} (hg : g.Ready) {pending : PendingSet}
    (hk : g.Keyed pending) (l : List NodeId)
    (hl : ∀ x n, g.node? x = some n → (∃ f ∈ pending.entries, ¬ (⟨n.depth, x⟩ : Pending) < f) → x ∈ l) :
    ∃ visits last, Propagates pass g pending visits last ∧ visits.length ≤ l.length := by
  induction hlen : l.length using Nat.strongRecOn generalizing g pending l with
  | ind k ih =>
    cases hp : pending.pop? with
    | none =>
      rw [PendingSet.pop?_eq_none_iff.1 hp]
      exact ⟨[], g, .drained, Nat.zero_le _⟩
    | some p =>
      obtain ⟨e, rest⟩ := p
      obtain ⟨n, v, g', woken, hv, hd⟩ := hg.visit_eq hk hp pass
      have hmem : e ∈ pending.entries := by
        rw [PendingSet.entries_of_pop hp]
        exact List.mem_cons_self ..
      -- The nodes that come after the visited one are fewer, and the nodes to be visited are among them.
      let later := l.filter fun x => e < ⟨g.depthOf x, x⟩
      have hkey : (⟨g.depthOf e.node, e.node⟩ : Pending) = e := by rw [depthOf_eq hd.node, hd.key]
      have hlt : later.length < k := by
        rw [← hlen]
        refine List.length_filter_lt_length_iff_exists.2 ⟨e.node, ?_, ?_⟩
        · refine hl e.node n hd.node ⟨e, hmem, ?_⟩
          rw [hd.key]
          exact Pending.lt_irrefl e
        · rw [hkey]
          simpa using Pending.lt_irrefl e
      have hlater : ∀ x m', g'.node? x = some m' →
          (∃ f ∈ woken.entries, ¬ (⟨m'.depth, x⟩ : Pending) < f) → x ∈ later := by
        rintro x m' hm' ⟨f, hf, hnot⟩
        have hef := hd.lt_of_mem hg hp hf
        obtain ⟨m, hm, he⟩ := hd.same.symm.exists_of_some hm'
        have hxf : e < ⟨m'.depth, x⟩ := by
          by_cases hx : f.node = x
          · obtain ⟨m'', hm'', hfd⟩ := (hd.keyed hk hp).entry hf
            rw [hx, hm', Option.some.injEq] at hm''
            rw [← hx, hm'', hfd]
            exact hef
          · exact Pending.lt_trans hef (Pending.lt_of_not_lt hnot fun he => hx (congrArg Pending.node he).symm)
        rw [← Node.depth_of_shape he] at hxf hnot
        refine List.mem_filter.2 ⟨hl x m hm ⟨e, hmem, fun hlt => ?_⟩, ?_⟩
        · exact Pending.lt_irrefl _ (Pending.lt_trans hlt hxf)
        · rw [depthOf_eq hm]
          simpa using hxf
      obtain ⟨visits, last, hrun, hle⟩ := ih _ hlt (hg.congr hd.same) (hd.keyed hk hp) later hlater rfl
      exact ⟨v :: visits, last, .visit hp hv hrun, by rw [List.length_cons]; omega⟩

/-- Evaluation ends, after at most one visit for each node. -/
theorem Ready.exists_propagates {g : Graph} (hg : g.Ready) {pending : PendingSet} (hk : g.Keyed pending)
    (pass : Nat) : ∃ visits last, Propagates pass g pending visits last ∧ visits.length ≤ g.size := by
  rw [show g.size = g.store.ids.length from Store.size_eq_length_ids _]
  exact hg.exists_propagates_of_mem pass hk g.store.ids fun x n hn _ => Store.mem_ids_iff.2 ⟨n, hn⟩

namespace Propagates

variable {pass : Nat} {g last : Graph} {pending : PendingSet} {visits : List Visit}

/-- A complete run is what evaluation does if it may make enough visits. -/
theorem propagateWithin_eq (h : Propagates pass g pending visits last) (k : Nat) :
    propagateWithin pass (visits.length + k) g pending = (visits, last, .empty) := by
  induction h with
  | drained =>
    cases k with
    | zero => rfl
    | succ k => rfl
  | visit hp hv _ ih =>
    rw [List.length_cons, Nat.add_right_comm, propagateWithin, hp]
    simp only [hv, ih]

/-- With nothing pending evaluation leaves the graph as it is. -/
theorem eq_of_empty (h : Propagates pass g .empty visits last) : visits = [] ∧ last = g := by
  have heq := h.propagateWithin_eq 0
  have hstop : ∀ k, propagateWithin pass k g .empty = ([], g, .empty) := by
    intro k
    cases k <;> rfl
  rw [hstop, Prod.mk.injEq, Prod.mk.injEq] at heq
  exact ⟨heq.1.symm, heq.2.1.symm⟩

section Evaluation

variable (h : Propagates pass g pending visits last) (hg : g.Ready) (hk : g.Keyed pending)
include h hg hk

theorem same : SameUpTo Node.shape g last := by
  induction h with
  | drained => exact .refl _ _
  | visit hp hv _ ih =>
    obtain ⟨n, hd⟩ := hg.visitDone hk hp hv
    exact hd.same.trans (ih (hg.congr hd.same) (hd.keyed hk hp))

theorem store (hs : g.store.Sound) : last.store.Sound := by
  induction h with
  | drained => exact hs
  | visit hp hv _ ih =>
    obtain ⟨n, hd⟩ := hg.visitDone hk hp hv
    exact ih (hg.congr hd.same) (hd.keyed hk hp) (hd.store hs)

theorem update_eq : last.update = g.update := by
  induction h with
  | drained => rfl
  | visit hp hv _ ih =>
    obtain ⟨n, hd⟩ := hg.visitDone hk hp hv
    rw [ih (hg.congr hd.same) (hd.keyed hk hp), hd.update]

/-- What comes before all that is pending comes before all visits. -/
theorem lt_of_mem {b : Pending} (hb : ∀ f ∈ pending.entries, b < f) : ∀ v ∈ visits, b < v.entry := by
  induction h with
  | drained => simp
  | visit hp hv _ ih =>
    obtain ⟨n, hd⟩ := hg.visitDone hk hp hv
    have hbe := hb _ (by rw [PendingSet.entries_of_pop hp]; exact List.mem_cons_self ..)
    rw [List.forall_mem_cons, hd.entry]
    refine ⟨hbe, ih (hg.congr hd.same) (hd.keyed hk hp) fun f hf => ?_⟩
    exact Pending.lt_trans hbe (hd.lt_of_mem hg hp hf)

/-- Nodes are visited in the order of depth and id. -/
theorem pairwise : visits.Pairwise fun v w => v.entry < w.entry := by
  induction h with
  | drained => exact .nil
  | visit hp hv hrun ih =>
    obtain ⟨n, hd⟩ := hg.visitDone hk hp hv
    have hg' := hg.congr hd.same
    have hk' := hd.keyed hk hp
    rw [List.pairwise_cons, hd.entry]
    exact ⟨hrun.lt_of_mem hg' hk' fun f hf => hd.lt_of_mem hg hp hf, ih hg' hk'⟩

/-- A visited node was pending under its depth. -/
theorem entry_eq : ∀ v ∈ visits, ∃ n, g.node? v.entry.node = some n ∧ n.depth = v.entry.depth := by
  induction h with
  | drained => simp
  | visit hp hv _ ih =>
    obtain ⟨n, hd⟩ := hg.visitDone hk hp hv
    rw [List.forall_mem_cons, hd.entry]
    refine ⟨⟨n, hd.node, hd.key⟩, fun w hw => ?_⟩
    obtain ⟨m', hm', hmd⟩ := ih (hg.congr hd.same) (hd.keyed hk hp) w hw
    obtain ⟨m, hm, he⟩ := hd.same.symm.exists_of_some hm'
    exact ⟨m, hm, (Node.depth_of_shape he).trans hmd⟩

/-- No node is visited twice. -/
theorem nodup_nodes : (visits.map fun v => v.entry.node).Nodup := by
  rw [List.Nodup, List.pairwise_map]
  refine (h.pairwise hg hk).imp_of_mem fun {v w} hv hw hlt hnode => ?_
  obtain ⟨n, hn, hd⟩ := h.entry_eq hg hk v hv
  obtain ⟨m, hm, hd'⟩ := h.entry_eq hg hk w hw
  rw [hnode, hm, Option.some.injEq] at hn
  rcases hlt with hlt | ⟨-, hlt⟩
  · have hdepth : v.entry.depth = w.entry.depth := by rw [← hd, ← hd', hn]
    omega
  · rw [hnode] at hlt
    exact NodeId.lt_irrefl _ hlt

/-- A node that is not visited stays as it is. -/
theorem node?_of_not_visited {x : NodeId} (hx : ∀ v ∈ visits, v.entry.node ≠ x) : last.node? x = g.node? x := by
  induction h with
  | drained => rfl
  | visit hp hv _ ih =>
    obtain ⟨n, hd⟩ := hg.visitDone hk hp hv
    rw [List.forall_mem_cons, hd.entry] at hx
    rw [ih (hg.congr hd.same) (hd.keyed hk hp) hx.2, hd.node?, if_neg (Ne.symm hx.1)]

/-- What is pending is visited. -/
theorem visited_of_pending {x : NodeId} (hx : x ∈ pending.nodes) : ∃ v ∈ visits, v.entry.node = x := by
  induction h with
  | drained => cases hx
  | visit hp hv _ ih =>
    obtain ⟨n, hd⟩ := hg.visitDone hk hp hv
    rcases (PendingSet.mem_nodes_pop hp).1 hx with rfl | hx
    · exact ⟨_, List.mem_cons_self .., congrArg Pending.node hd.entry⟩
    · have hw := hd.pending ▸ PendingSet.mem_nodes_insertAll.2 (.inl hx)
      obtain ⟨w, hw, hwx⟩ := ih (hg.congr hd.same) (hd.keyed hk hp) hw
      exact ⟨w, List.mem_cons_of_mem _ hw, hwx⟩

end Evaluation

end Propagates

/-- The nodes up to an entry in the order of evaluation are not visited after it. -/
private theorem Propagates.node_ne {pass : Nat} {g last : Graph} {pending : PendingSet} {visits : List Visit}
    (h : Propagates pass g pending visits last) (hg : g.Ready) (hk : g.Keyed pending) {b : Pending}
    (hb : ∀ f ∈ pending.entries, b < f) {x : NodeId} {n : Node} (hn : g.node? x = some n)
    (hx : ¬ b < ⟨n.depth, x⟩) : ∀ v ∈ visits, v.entry.node ≠ x := by
  rintro v hv rfl
  obtain ⟨m, hm, hmd⟩ := h.entry_eq hg hk v hv
  rw [hn, Option.some.injEq] at hm
  rw [hm, hmd] at hx
  exact hx (h.lt_of_mem hg hk hb v hv)

/-- A visited node had the outcome that its rule gives for what its parents are in the end, and stays as that left
it. -/
theorem Propagates.visited {pass : Nat} {g last : Graph} {pending : PendingSet} {visits : List Visit}
    (h : Propagates pass g pending visits last) (hg : g.Ready) (hk : g.Keyed pending) :
    ∀ v ∈ visits, ∃ n, g.node? v.entry.node = some n ∧ v.outcome = n.outcome v.args ∧
      last.node? v.entry.node = some (n.settled pass v.outcome) ∧ last.args? pass n.parents = some v.args := by
  induction h with
  | drained => simp
  | @visit g next last pending rest woken e v visits hp hv hrun ih =>
    obtain ⟨n, hd⟩ := hg.visitDone hk hp hv
    have hg' := hg.congr hd.same
    have hk' := hd.keyed hk hp
    have hafter : ∀ f ∈ woken.entries, e < f := fun f hf => hd.lt_of_mem hg hp hf
    have hagain : ∀ w ∈ visits, w.entry.node ≠ e.node := by
      refine hrun.node_ne hg' hk' hafter (by rw [hd.node?, if_pos rfl]) ?_
      rw [(Node.depth_of_shape (Node.shape_settled ..)).trans hd.key]
      exact Pending.lt_irrefl e
    have hself : last.node? e.node = some (n.settled pass v.outcome) := by
      rw [hrun.node?_of_not_visited hg' hk' hagain, hd.node?, if_pos rfl]
    rw [List.forall_mem_cons, hd.entry]
    constructor
    · refine ⟨n, hd.node, hd.outcome, hself, ?_⟩
      rw [← hd.args]
      refine args?_congr fun p hpn => ?_
      -- A parent is not as deep, so that it is not visited any more.
      have hfeeds : g.Feeds p e.node := ⟨n, hd.node, hpn⟩
      obtain ⟨m, hm⟩ := hg.linked.exists_parent hfeeds
      have hlt := (hg.settled e.node).depthOf_lt hfeeds
      rw [depthOf_eq hm, depthOf_eq hd.node, hd.key] at hlt
      have hm' : next.node? p = some m := by rw [hd.node?, if_neg (hg.linked.ne_of_feeds hfeeds), hm]
      rw [hm, ← hm']
      refine hrun.node?_of_not_visited hg' hk' (hrun.node_ne hg' hk' hafter hm' fun hep => ?_)
      change e.depth < m.depth ∨ e.depth = m.depth ∧ _ at hep
      omega
    · intro w hw
      obtain ⟨m, hm, ho, hl, ha⟩ := ih hg' hk' w hw
      rw [hd.node?, if_neg (hagain w hw)] at hm
      exact ⟨m, hm, ho, hl, ha⟩

/-- However far evaluation has come, the graph and the pending nodes are ready for more of it. -/
theorem Ready.propagateWithin {g last : Graph} (hg : g.Ready) {pending left : PendingSet} (hk : g.Keyed pending)
    {pass k : Nat} {visits : List Visit} (h : Graph.propagateWithin pass k g pending = (visits, last, left)) :
    last.Ready ∧ last.Keyed left := by
  induction k generalizing g pending visits with
  | zero =>
    cases h
    exact ⟨hg, hk⟩
  | succ k ih =>
    unfold Graph.propagateWithin at h
    split at h
    · cases h
      exact ⟨hg, hk⟩
    · next e rest hp =>
      obtain ⟨n, v, next, woken, hv, hd⟩ := hg.visit_eq hk hp pass
      rw [hv] at h
      exact ih (hg.congr hd.same) (hd.keyed hk hp) (Prod.ext rfl (Prod.mk.inj h).2)

/-- No bound cuts evaluation short. -/
theorem Ready.propagates {g : Graph} (hg : g.Ready) {pending : PendingSet} (hk : g.Keyed pending) (pass : Nat) :
    ∃ visits last, g.propagate pass pending = (visits, last, .empty) ∧ Propagates pass g pending visits last := by
  obtain ⟨visits, last, hrun, hlen⟩ := hg.exists_propagates hk pass
  refine ⟨visits, last, ?_, hrun⟩
  have heq := hrun.propagateWithin_eq (pending.size + g.size + 1 - visits.length)
  rwa [Nat.add_sub_cancel' (by omega)] at heq

/-! ### What has to be visited -/

/-- The nodes that an evaluation has to come to, as its result shows: those pending at first, and with every node
that changed or fired in the pass its children. -/
inductive Affected (last : Graph) (pass : Nat) (pending : PendingSet) : NodeId → Prop
  | pending {x : NodeId} : x ∈ pending.nodes → Affected last pass pending x
  | child {p c : NodeId} {n : Node} : Affected last pass pending p → last.node? p = some n →
      n.firedIn pass = true → c ∈ n.children → Affected last pass pending c

namespace Propagates

variable {pass : Nat} {g last : Graph} {pending : PendingSet} {visits : List Visit}

private theorem firedIn_settled {n : Node} (hpass : n.changedIn < pass) (o : Outcome) :
    (n.settled pass o).firedIn pass = o.isChange := by
  have h0 : pass ≠ 0 := by omega
  have hne : n.changedIn ≠ pass := by omega
  cases o <;> simp [Node.settled, Node.firedIn, Outcome.isChange, h0, hne]

/-- Evaluation marks nodes with its own pass only. -/
theorem changedIn_le (h : Propagates pass g pending visits last) (hg : g.Ready) (hk : g.Keyed pending)
    (hpass : ∀ x n, g.node? x = some n → n.changedIn ≤ pass) {x : NodeId} {n : Node} (hn : last.node? x = some n) :
    n.changedIn ≤ pass := by
  by_cases hx : ∃ v ∈ visits, v.entry.node = x
  · obtain ⟨v, hv, rfl⟩ := hx
    obtain ⟨m, hm, -, hl, -⟩ := h.visited hg hk v hv
    rw [hn, Option.some.injEq] at hl
    have hle := hpass _ m hm
    rw [hl]
    cases v.outcome <;> simp [Node.settled, hle]
  · rw [h.node?_of_not_visited hg hk fun v hv hvx => hx ⟨v, hv, hvx⟩] at hn
    exact hpass x n hn

/-- A visited node is marked with the pass exactly if it changed or fired. -/
theorem firedIn_visited (h : Propagates pass g pending visits last) (hg : g.Ready) (hk : g.Keyed pending)
    (hpass : ∀ x n, g.node? x = some n → n.changedIn < pass) :
    ∀ v ∈ visits, ∀ n, last.node? v.entry.node = some n → n.firedIn pass = v.outcome.isChange := by
  intro v hv n hn
  obtain ⟨m, hm, -, hl, -⟩ := h.visited hg hk v hv
  rw [hn, Option.some.injEq] at hl
  rw [hl]
  exact firedIn_settled (hpass _ m hm) _

/-- The children of a node that changed or fired are visited. -/
private theorem visited_of_child (h : Propagates pass g pending visits last) (hg : g.Ready) (hk : g.Keyed pending) :
    ∀ v ∈ visits, v.outcome.isChange = true → ∀ n, last.node? v.entry.node = some n → ∀ c ∈ n.children,
      ∃ w ∈ visits, w.entry.node = c := by
  induction h with
  | drained => simp
  | @visit g next last pending rest woken e v visits hp hv hrun ih =>
    obtain ⟨n, hd⟩ := hg.visitDone hk hp hv
    have hg' := hg.congr hd.same
    have hk' := hd.keyed hk hp
    rw [List.forall_mem_cons]
    constructor
    · intro hc m hm c hcm
      rw [hd.entry] at hm
      obtain ⟨m', hm', he⟩ := (hd.same.trans (hrun.same hg' hk')).symm.exists_of_some hm
      rw [hd.node, Option.some.injEq] at hm'
      rw [← (of_frame_eq (Node.frame_of_shape he)).2.1, ← hm'] at hcm
      obtain ⟨w, hw, hwc⟩ := hrun.visited_of_pending hg' hk' (hd.mem_woken_of_child hg hc hcm)
      exact ⟨w, List.mem_cons_of_mem _ hw, hwc⟩
    · intro w hw hc m hm c hcm
      obtain ⟨w', hw', hwc⟩ := ih hg' hk' w hw hc m hm c hcm
      exact ⟨w', List.mem_cons_of_mem _ hw', hwc⟩

/-- What has the pending nodes, and the children of the visited ones it has that changed, has all visited nodes. -/
private theorem visited_subset (h : Propagates pass g pending visits last) (hg : g.Ready) (hk : g.Keyed pending)
    {S : NodeId → Prop} (hpend : ∀ x ∈ pending.nodes, S x)
    (hchild : ∀ v ∈ visits, S v.entry.node → v.outcome.isChange = true → ∀ n, last.node? v.entry.node = some n →
      ∀ c ∈ n.children, S c) : ∀ v ∈ visits, S v.entry.node := by
  induction h with
  | drained => simp
  | @visit g next last pending rest woken e v visits hp hv hrun ih =>
    obtain ⟨n, hd⟩ := hg.visitDone hk hp hv
    have hg' := hg.congr hd.same
    have hk' := hd.keyed hk hp
    rw [List.forall_mem_cons] at hchild ⊢
    have hself : S v.entry.node := by
      rw [hd.entry]
      exact hpend _ ((PendingSet.mem_nodes_pop hp).2 (.inl rfl))
    refine ⟨hself, ih hg' hk' (fun x hx => ?_) hchild.2⟩
    rw [hd.pending, PendingSet.mem_nodes_insertAll] at hx
    rcases hx with hx | hx
    · exact hpend x ((PendingSet.mem_nodes_pop hp).2 (.inr hx))
    · split at hx
      · next hc =>
        obtain ⟨m, hm, he⟩ := (hd.same.trans (hrun.same hg' hk')).exists_of_some hd.node
        refine hchild.1 hself hc m (hd.entry ▸ hm) x ?_
        rw [(of_frame_eq (Node.frame_of_shape he)).2.1]
        exact (mem_nodes_withDepths.1 hx).1
      · cases hx

/-- The visited nodes are those that had to be. -/
theorem mem_visited_iff (h : Propagates pass g pending visits last) (hg : g.Ready) (hk : g.Keyed pending)
    (hpass : ∀ x n, g.node? x = some n → n.changedIn < pass) {x : NodeId} :
    (∃ v ∈ visits, v.entry.node = x) ↔ Affected last pass pending x := by
  constructor
  · rintro ⟨v, hv, rfl⟩
    refine h.visited_subset hg hk (fun x hx => .pending hx) (fun w hw hS hc n hn c hcn => ?_) v hv
    exact .child hS hn ((h.firedIn_visited hg hk hpass w hw n hn).trans hc) hcn
  · intro hx
    induction hx with
    | pending hx => exact h.visited_of_pending hg hk hx
    | child _ hn hf hc ih =>
      obtain ⟨v, hv, rfl⟩ := ih
      rw [h.firedIn_visited hg hk hpass v hv _ hn] at hf
      exact h.visited_of_child hg hk v hv hf _ hn _ hc

end Propagates

end Dataflow.Graph
