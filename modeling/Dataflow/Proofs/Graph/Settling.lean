import Dataflow.Proofs.Graph.Sound
import Dataflow.Proofs.PendingSet
import Mathlib.Order.Bounds.Defs

/-!
# Settling depths

In a sound graph the depth update runs until nothing is pending (`Settles`), and it settles every depth.

* `Sound.settle_eq`: what settling one entry does;
* `Sound.exists_settles`: the update ends.  An entry stands for a power of the size of the graph that falls with
  the rank of its node, so that all the children it may make pending together stand for less;
* `Settles.pairwise`: entries come out in the order of their depths.  A child that becomes pending was settled below
  the depth that its parent had until then;
* `Sound.store_settleWithin`: the update changes nothing but depths;
* `Sound.isGreatest_settleDepths`: after it, depths are lengths of longest chains.
-/

namespace Dataflow.Graph

/-! ### Chains of links -/

/-- There is a chain of so many links that ends at the node. -/
inductive Chain (g : Graph) : Nat → NodeId → Prop
  | start {id : NodeId} {n : Node} : g.node? id = some n → Chain g 0 id
  | link {k : Nat} {p c : NodeId} : Chain g k p → g.Feeds p c → Chain g (k + 1) c

private theorem chain_congr {g g' : Graph} (h : SameUpTo Node.frame g g') {k : Nat} {id : NodeId} :
    g'.Chain k id ↔ g.Chain k id := by
  constructor
  · intro hc
    induction hc with
    | start hn =>
      obtain ⟨m, hm, -⟩ := h.symm.exists_of_some hn
      exact .start hm
    | link _ hf ih => exact ih.link ((feeds_congr h).1 hf)
  · intro hc
    induction hc with
    | start hn =>
      obtain ⟨m, hm, -⟩ := h.exists_of_some hn
      exact .start hm
    | link _ hf ih => exact ih.link ((feeds_congr h).2 hf)

/-- Where all depths are what the parents make them, they are the lengths of the longest chains. -/
theorem isGreatest_depth {g : Graph} (h : ∀ x, g.SettledAt x) {id : NodeId} {n : Node} (hn : g.node? id = some n) :
    IsGreatest { k | g.Chain k id } n.depth := by
  constructor
  · suffices ∀ d id n, g.node? id = some n → n.depth = d → g.Chain d id from this _ _ _ hn rfl
    intro d
    induction d with
    | zero => exact fun id n hn _ => .start hn
    | succ d ih =>
      intro id n hn hd
      obtain ⟨hlive, -, hmax⟩ := depthBelow_eq_ok_iff.1 (h id n hn)
      obtain ⟨p, hp, hpd⟩ := hmax.resolve_left (by omega)
      obtain ⟨m, hm⟩ := hlive p hp
      rw [depthOf_eq hm] at hpd
      exact (ih p m hm (by omega)).link ⟨n, hn, hp⟩
  · intro k hk
    rw [← depthOf_eq hn]
    clear hn
    induction hk with
    | start => exact Nat.zero_le _
    | link _ hf ih => exact Nat.lt_of_le_of_lt ih ((h _).depthOf_lt hf)

/-! ### One entry -/

/-- What settling one entry does: the depth of its node becomes what the parents make it, and if that is a change,
its children become pending. -/
structure EntrySettled (g : Graph) (e : Pending) (rest : PendingSet) (n : Node) (d : Nat) (g' : Graph) : Prop where
  node : g.node? e.node = some n
  key : n.depth = e.depth
  depth : g.depthBelow n.parents = .ok d
  node? : ∀ x, g'.node? x = if x = e.node then some { n with depth := d } else g.node? x
  store : g'.store.map Node.flat = g.store.map Node.flat
  sound : g.store.Sound → g'.store.Sound
  update : g'.update = if d = n.depth then rest else rest.insertAll (g'.withDepths n.children)

theorem Sound.settle_eq {g : Graph} (h : g.Sound) {e : Pending} {rest : PendingSet}
    (hp : g.update.pop? = some (e, rest)) :
    ∃ n d, ({ g with update := rest }.settle e).1 = ⟨e, some d, decide (d ≠ n.depth)⟩ ∧
      g.EntrySettled e rest n d ({ g with update := rest }.settle e).2 := by
  obtain ⟨n, hn, hkey⟩ := h.keyed e.node e.depth (PendingSet.depth?_of_pop hp)
  obtain ⟨d, hd⟩ := exists_depthBelow fun p hp => by
    obtain ⟨m, hm, -⟩ := h.linked.parents_data hn hp
    exact ⟨m, hm⟩
  have hn' : { g with update := rest }.node? e.node = some n := hn
  have hd' : { g with update := rest }.depthBelow n.parents = .ok d := hd
  refine ⟨n, d, ?_⟩
  unfold settle
  rw [hn']
  simp only [hd']
  by_cases hdn : d = n.depth
  · rw [if_pos hdn]
    refine ⟨by simp [hdn], hn, hkey, hd, fun x => ?_, rfl, id, (if_pos hdn).symm⟩
    split
    · next hx => rw [hx, hdn]; exact hn
    · rfl
  · rw [if_neg hdn]
    refine ⟨by simp [hdn], hn, hkey, hd, ?_, ?_, ?_, (if_neg hdn).symm⟩
    · intro x
      change ({ g with update := rest }.modify e.node fun n => { n with depth := d }).node? x = _
      rw [node?_modify]
      split
      · next hx => rw [hx, hn', Option.map_some]
      · rfl
    · exact Store.map_modify (f := Node.flat) (k := fun n => { n with depth := d }) (fun _ => rfl) g.store e.node
    · intro hs
      exact hs.modify e.node _

namespace EntrySettled

variable {g g' : Graph} {e : Pending} {rest : PendingSet} {n : Node} {d : Nat}

theorem same (h : g.EntrySettled e rest n d g') : SameUpTo Node.flat g g' := by
  intro x
  rw [h.node?]
  split
  · next hx => rw [hx, h.node]; rfl
  · rfl

/-- What waits no longer is in none of the other entries, and is no child of a node that moved. -/
theorem not_mem_update (h : g.EntrySettled e rest n d g') {x : NodeId} (hx : x ∉ g'.update.nodes) :
    x ∉ rest.nodes ∧ (d = n.depth ∨ x ∉ n.children ∨ g.node? x = none) := by
  rw [h.update] at hx
  split at hx
  · next hd => exact ⟨hx, .inl hd⟩
  · rw [PendingSet.mem_nodes_insertAll, mem_nodes_withDepths, not_or] at hx
    refine ⟨hx.1, .inr ?_⟩
    by_cases hc : x ∈ n.children
    · refine .inr ?_
      rw [← h.same.none_iff, Option.eq_none_iff_forall_ne_some]
      exact fun m hm => hx.2 ⟨hc, m, hm⟩
    · exact .inl hc

/-- Settling an entry keeps a graph sound. -/
theorem sound_of (h : g.EntrySettled e rest n d g') (hp : g.update.pop? = some (e, rest)) (hg : g.Sound) :
    g'.Sound := by
  have hframe : SameUpTo Node.frame g g' := h.same.weaken fun _ _ => Node.frame_of_flat
  -- Only the depth of the settled node may have changed, and where it has, its children are pending.
  have hsame : ∀ x, x ≠ e.node → g'.node? x = g.node? x := fun x hx => by rw [h.node?, if_neg hx]
  refine ⟨h.sound hg.store, hg.linked.congr hframe, ?_, ?_⟩
  · have hrest : g'.Keyed rest := by
      refine (hg.keyed.pop hp).mono fun x m hx hm => ⟨m, ?_, rfl⟩
      rw [hsame x fun he => PendingSet.not_mem_nodes_pop hp (he ▸ hx), hm]
    rw [h.update]
    split
    · exact hrest
    · exact hrest.insertAll _
  · intro x hx m' hm'
    obtain ⟨hrest, hchild⟩ := h.not_mem_update hx
    have hparents : ∀ m, g.node? x = some m → (∀ p ∈ m.parents, p = e.node → d = n.depth) →
        ∀ p ∈ m.parents, (g'.node? p).map Node.depth = (g.node? p).map Node.depth := by
      intro m hm hpe p hpm
      by_cases hpid : p = e.node
      · rw [h.node?, if_pos hpid, hpid, h.node, Option.map_some, Option.map_some, ← hpe p hpm hpid]
      · rw [hsame p hpid]
    by_cases hxe : x = e.node
    · subst hxe
      rw [h.node?, if_pos rfl, Option.some.injEq] at hm'
      subst hm'
      refine depthBelow_congr (hparents n h.node fun p hpn hpe => ?_) h.depth
      exact absurd hpe (hg.linked.ne_of_feeds ⟨n, h.node, hpn⟩)
    · rw [hsame x hxe] at hm'
      have hxu : x ∉ g.update.nodes := by
        rw [PendingSet.mem_nodes_pop hp, not_or]
        exact ⟨hxe, hrest⟩
      refine depthBelow_congr (hparents m' hm' fun p hpm hpe => ?_) (hg.settled x hxu m' hm')
      have hc := (hg.linked.mem_children_iff h.node).2 ⟨m', hm', hpe ▸ hpm⟩
      rcases hchild with hd | hnc | hnone
      · exact hd
      · exact absurd hc hnc
      · rw [hm'] at hnone
        cases hnone

/-- Nothing comes to be pending before the entry that has been taken out. -/
theorem le_of_mem (h : g.EntrySettled e rest n d g') (hp : g.update.pop? = some (e, rest)) (hg : g.Sound)
    {f : Pending} (hf : f ∈ g'.update.entries) : e.depth ≤ f.depth := by
  have hfirst : ∀ f ∈ g.update.entries, e.depth ≤ f.depth := by
    intro f hf
    rw [PendingSet.entries_of_pop hp] at hf
    rcases List.mem_cons.1 hf with rfl | hf
    · exact Nat.le_refl _
    · have hlt := PendingSet.lt_of_mem_pop hp hf
      rw [Pending.lt_def] at hlt
      omega
  have hrest : ∀ f ∈ rest.entries, e.depth ≤ f.depth := fun f hf =>
    hfirst f (by rw [PendingSet.entries_of_pop hp]; exact List.mem_cons_of_mem _ hf)
  rw [h.update] at hf
  split at hf
  · exact hrest f hf
  · rcases PendingSet.mem_of_mem_insertAll hf with hf | hf
    · exact hrest f hf
    · obtain ⟨hc, m, hm, hmd⟩ := mem_withDepths.1 hf
      have hfeeds := (hg.linked.mem_children_iff h.node).1 hc
      rw [h.node?, if_neg (hg.linked.ne_of_feeds hfeeds).symm] at hm
      by_cases hu : f.node ∈ g.update.nodes
      · obtain ⟨k, hk⟩ := PendingSet.mem_nodes_iff.1 hu
        obtain ⟨m', hm', hmk⟩ := hg.keyed f.node k hk
        rw [hm, Option.some.injEq] at hm'
        have hle := hfirst ⟨k, f.node⟩ (PendingSet.depth?_eq_some_iff.1 hk)
        rw [← hmd, hm', hmk]
        exact hle
      · have hlt := (hg.settled f.node hu).depthOf_lt hfeeds
        rw [depthOf_eq hm, depthOf_eq h.node, hmd, h.key] at hlt
        exact Nat.le_of_lt hlt

end EntrySettled

/-! ### Complete runs -/

/-- The depth update run until nothing is pending. -/
inductive Settles : Graph → List Settling → Graph → Prop
  | drained {g : Graph} : g.update = .empty → Settles g [] g
  | settle {g last : Graph} {e : Pending} {rest : PendingSet} {done : List Settling} :
      g.update.pop? = some (e, rest) → Settles ({ g with update := rest }.settle e).2 done last →
      Settles g (({ g with update := rest }.settle e).1 :: done) last

theorem entry_settle (g : Graph) (e : Pending) : (g.settle e).1.entry = e := by
  unfold settle
  split
  · rfl
  · split
    · rfl
    · split <;> rfl

namespace Settles

variable {g last : Graph} {done : List Settling}

/-- A complete run is what the update does if it may take out enough entries. -/
theorem settleWithin_eq (h : Settles g done last) (k : Nat) : g.settleWithin (done.length + k) = (done, last) := by
  induction h with
  | @drained g h =>
    have hpop := PendingSet.pop?_eq_none_iff.2 h
    cases k with
    | zero => rfl
    | succ k =>
      rw [List.length_nil, Nat.zero_add, settleWithin, hpop]
  | settle hp _ ih =>
    rw [List.length_cons, Nat.add_right_comm, settleWithin, hp]
    simp only [ih]

/-- The entries listed are those that the update takes out one after the other. -/
theorem pop?_settleWithin (h : Settles g done last) (i : Nat) (hi : i < done.length) :
    ∃ rest, (g.settleWithin i).2.update.pop? = some (done[i].entry, rest) := by
  induction h generalizing i with
  | drained => simp at hi
  | @settle g last e rest done hp _ ih =>
    cases i with
    | zero => exact ⟨rest, by rw [List.getElem_cons_zero, entry_settle]; exact hp⟩
    | succ i =>
      obtain ⟨rest', h'⟩ := ih i (by simpa using hi)
      refine ⟨rest', ?_⟩
      rw [settleWithin, hp]
      exact h'

/-- When all has been settled, nothing waits to be. -/
theorem update_eq (h : Settles g done last) : last.update = .empty := by
  induction h with
  | drained h => exact h
  | settle _ _ ih => exact ih

private theorem le_of_mem_done (h : Settles g done last) (hg : g.Sound) {b : Nat}
    (hb : ∀ f ∈ g.update.entries, b ≤ f.depth) : ∀ s ∈ done, b ≤ s.entry.depth := by
  induction h with
  | drained => simp
  | settle hp _ ih =>
    obtain ⟨n, d, hs, he⟩ := hg.settle_eq hp
    have hbe := hb _ (by rw [PendingSet.entries_of_pop hp]; exact List.mem_cons_self ..)
    rw [List.forall_mem_cons, hs]
    exact ⟨hbe, ih (he.sound_of hp hg) fun f hf => Nat.le_trans hbe (he.le_of_mem hp hg hf)⟩

/-- Entries are taken out in the order of their depths. -/
theorem pairwise (h : Settles g done last) (hg : g.Sound) :
    done.Pairwise fun s t => s.entry.depth ≤ t.entry.depth := by
  induction h with
  | drained => exact .nil
  | settle hp hrun ih =>
    obtain ⟨n, d, hs, he⟩ := hg.settle_eq hp
    have hg' := he.sound_of hp hg
    rw [List.pairwise_cons, hs]
    exact ⟨hrun.le_of_mem_done hg' fun f hf => he.le_of_mem hp hg hf, ih hg'⟩

/-- A node whose depth was not changed is as it was. -/
theorem node?_of_unchanged (h : Settles g done last) (hg : g.Sound) {x : NodeId}
    (hx : ∀ s ∈ done, s.entry.node = x → s.changed = false) : last.node? x = g.node? x := by
  induction h with
  | drained => rfl
  | settle hp _ ih =>
    obtain ⟨n, d, hs, he⟩ := hg.settle_eq hp
    rw [List.forall_mem_cons, hs] at hx
    rw [ih (he.sound_of hp hg) hx.2, he.node?]
    split
    · next hxe =>
      have hd : d = n.depth := by simpa using hx.1 hxe.symm
      rw [hxe, he.node, hd]
    · rfl

end Settles

/-! ### What every state of the update has -/

/-- What settling one entry preserves holds in every state of the depth update. -/
theorem Sound.settleWithin_induction {P : Graph → Prop} {g : Graph} (hg : g.Sound) (h : P g)
    (hstep : ∀ {g e rest n d g'}, g.Sound → g.update.pop? = some (e, rest) → g.EntrySettled e rest n d g' →
      P g → P g') (k : Nat) : (g.settleWithin k).2.Sound ∧ P (g.settleWithin k).2 := by
  induction k generalizing g with
  | zero => exact ⟨hg, h⟩
  | succ k ih =>
    rw [settleWithin]
    cases hp : g.update.pop? with
    | none => exact ⟨hg, h⟩
    | some p =>
      obtain ⟨e, rest⟩ := p
      obtain ⟨n, d, -, he⟩ := hg.settle_eq hp
      exact ih (he.sound_of hp hg) (hstep hg hp he h)

theorem Sound.settleWithin {g : Graph} (hg : g.Sound) (k : Nat) : (g.settleWithin k).2.Sound :=
  (hg.settleWithin_induction (P := fun _ => True) trivial (fun _ _ _ _ => trivial) k).1

/-- The depth update changes nothing but depths. -/
theorem Sound.store_settleWithin {g : Graph} (hg : g.Sound) (k : Nat) :
    (g.settleWithin k).2.store.map Node.flat = g.store.map Node.flat :=
  (hg.settleWithin_induction (P := fun g' => g'.store.map Node.flat = g.store.map Node.flat) rfl
    (fun _ _ he h => he.store.trans h) k).2

private theorem Sound.same_settleWithin {g : Graph} (hg : g.Sound) (k : Nat) :
    SameUpTo Node.flat g (g.settleWithin k).2 := by
  intro x
  unfold node?
  rw [← Store.get?_map, ← Store.get?_map, hg.store_settleWithin k]

/-- While depths are being settled, none grows beyond what it can be by the longest chain of links. -/
theorem Sound.depth_settleWithin_le {g : Graph} (hg : g.Sound) {b : Nat}
    (hb : ∀ x n, g.node? x = some n → n.depth ≤ b) (k : Nat) {x : NodeId} {n : Node}
    (hn : (g.settleWithin k).2.node? x = some n) : n.depth ≤ b + g.size := by
  obtain ⟨rank, hrank, hsize⟩ := hg.linked.exists_rank
  have hinv := hg.settleWithin_induction
    (P := fun g' => SameUpTo Node.flat g g' ∧ ∀ x n, g'.node? x = some n → n.depth ≤ b + rank x)
    ⟨.refl _ g, fun x n hn => Nat.le_trans (hb x n hn) (Nat.le_add_right ..)⟩ ?_ k
  · obtain ⟨m, hm, -⟩ := hinv.2.1.symm.exists_of_some hn
    have hle := hinv.2.2 x n hn
    have hlt := hsize hm
    omega
  · intro g₁ e rest n d g₂ hg₁ hp he ⟨hsame, hle⟩
    refine ⟨hsame.trans he.same, fun x m hm => ?_⟩
    rw [he.node?] at hm
    split at hm
    · next hx =>
      rw [Option.some.injEq] at hm
      rw [← hm, hx]
      obtain ⟨hlive, -, hmax⟩ := depthBelow_eq_ok_iff.1 he.depth
      rcases hmax with hd | ⟨p, hpn, hd⟩
      · change d ≤ _
        omega
      · obtain ⟨q, hq⟩ := hlive p hpn
        have hpq := hle p q hq
        have hlt := hrank ((feeds_congr (hsame.weaken fun _ _ => Node.frame_of_flat)).1 ⟨n, he.node, hpn⟩)
        rw [depthOf_eq hq] at hd
        change d ≤ _
        omega
    · exact hle x m hm

/-- A chain of links has fewer links than the graph has nodes. -/
theorem WellLinked.chain_lt_size {g : Graph} (hw : g.WellLinked) {k : Nat} {id : NodeId} (h : g.Chain k id) :
    k < g.size := by
  obtain ⟨rank, hrank, hsize⟩ := hw.exists_rank
  have hle : k ≤ rank id ∧ ∃ n, g.node? id = some n := by
    induction h with
    | start hn => exact ⟨Nat.zero_le _, _, hn⟩
    | link _ hf ih =>
      have hlt := hrank hf
      obtain ⟨n, hn, -⟩ := hf
      exact ⟨Nat.lt_of_le_of_lt ih.1 hlt, n, hn⟩
  obtain ⟨hk, n, hn⟩ := hle
  exact Nat.lt_of_le_of_lt hk (hsize hn)

/-! ### The end of the update -/

/-- The weight of a node in a graph of `size` nodes: one more than any `size` nodes of higher rank have together. -/
def branching (size : Nat) (rank : NodeId → Nat) (x : NodeId) : Nat := (size + 1) ^ (size - rank x)

private theorem sum_branching_lt {size : Nat} {rank : NodeId → Nat} {x : NodeId} {l : List NodeId}
    (hx : rank x < size) (hlen : l.length ≤ size) (hl : ∀ y ∈ l, rank x < rank y) :
    (l.map (branching size rank)).sum < branching size rank x := by
  have hsum := (l.map (branching size rank)).sum_le_card_nsmul ((size + 1) ^ (size - rank x - 1)) fun k hk => by
    obtain ⟨y, hy, rfl⟩ := List.mem_map.1 hk
    have hxy := hl y hy
    exact Nat.pow_le_pow_right (Nat.succ_pos _) (by omega)
  rw [List.length_map, Nat.nsmul_eq_mul] at hsum
  have hpow : branching size rank x = (size + 1) ^ (size - rank x - 1) * (size + 1) := by
    rw [branching, ← Nat.pow_succ]
    congr 1
    omega
  have hpos : 0 < (size + 1) ^ (size - rank x - 1) := Nat.pow_pos (Nat.succ_pos _)
  calc (l.map (branching size rank)).sum
      ≤ l.length * (size + 1) ^ (size - rank x - 1) := hsum
    _ ≤ size * (size + 1) ^ (size - rank x - 1) := Nat.mul_le_mul_right _ hlen
    _ < (size + 1) * (size + 1) ^ (size - rank x - 1) := Nat.mul_lt_mul_of_pos_right (Nat.lt_succ_self _) hpos
    _ = branching size rank x := by rw [hpow, Nat.mul_comm]

/-- Settling a node lowers the weight of what waits: its children, which may wait then, lie higher in the order and
weigh less together. -/
theorem EntrySettled.weight_lt {g₀ g g' : Graph} {e : Pending} {rest : PendingSet} {n : Node} {d : Nat}
    {rank : NodeId → Nat} (h : g.EntrySettled e rest n d g') (hp : g.update.pop? = some (e, rest)) (hg : g.Sound)
    (hsame : SameUpTo Node.flat g₀ g) (hrank : ∀ {p c}, g₀.Feeds p c → rank p < rank c)
    (hsize : ∀ {x m}, g₀.node? x = some m → rank x < g₀.size) :
    g'.update.weight (branching g₀.size rank) < g.update.weight (branching g₀.size rank) := by
  have hlive : ∀ {x m}, g.node? x = some m → ∃ m', g₀.node? x = some m' := by
    intro x m hm
    obtain ⟨m', hm', -⟩ := hsame.symm.exists_of_some hm
    exact ⟨m', hm'⟩
  have hfeeds : ∀ c ∈ n.children, g.Feeds e.node c := fun c hc => (hg.linked.mem_children_iff h.node).1 hc
  have hlen : n.children.length ≤ g₀.size := by
    refine Store.length_le_size (hg.linked.nodup_children h.node) fun c hc => ?_
    obtain ⟨m, hm, -⟩ := hfeeds c hc
    exact hlive hm
  have hx : rank e.node < g₀.size := by
    obtain ⟨m, hm⟩ := hlive h.node
    exact hsize hm
  have hchildren : ((g'.withDepths n.children).map (branching g₀.size rank ∘ Pending.node)).sum <
      branching g₀.size rank e.node := by
    rw [← List.map_map]
    refine sum_branching_lt hx ?_ fun y hy => ?_
    · rw [List.length_map]
      exact Nat.le_trans (List.length_filterMap_le ..) hlen
    · have hc := hfeeds y (mem_nodes_withDepths.1 hy).1
      exact hrank ((feeds_congr (hsame.weaken fun _ _ => Node.frame_of_flat)).1 hc)
  have hins := PendingSet.weight_insertAll_le (branching g₀.size rank) rest (g'.withDepths n.children)
  rw [PendingSet.weight_pop _ hp, h.update]
  split <;> omega

/-- The depth update ends: the pending nodes weigh less after every entry. -/
theorem Sound.exists_settles {g : Graph} (hg : g.Sound) :
    ∃ done last, Settles g done last ∧ done.length ≤ g.update.size * (g.size + 1) ^ g.size := by
  obtain ⟨rank, hrank, hsize⟩ := hg.linked.exists_rank
  have hrun : ∀ k g', g'.Sound → SameUpTo Node.flat g g' → g'.update.weight (branching g.size rank) ≤ k →
      ∃ done last, Settles g' done last ∧ done.length ≤ k := by
    intro k
    induction k with
    | zero =>
      intro g' hg' hsame hk
      refine ⟨[], g', .drained ?_, Nat.le_refl _⟩
      rw [← PendingSet.pop?_eq_none_iff, Option.eq_none_iff_forall_ne_some]
      intro p hp
      have hpos : 0 < branching g.size rank p.1.node := Nat.pow_pos (Nat.succ_pos _)
      rw [PendingSet.weight_pop _ hp] at hk
      omega
    | succ k ih =>
      intro g' hg' hsame hk
      cases hp : g'.update.pop? with
      | none => exact ⟨[], g', .drained (PendingSet.pop?_eq_none_iff.1 hp), Nat.zero_le _⟩
      | some p =>
        obtain ⟨e, rest⟩ := p
        obtain ⟨n, d, -, he⟩ := hg'.settle_eq hp
        have hlt := he.weight_lt hp hg' hsame hrank hsize
        obtain ⟨done, last, hrun, hlen⟩ := ih _ (he.sound_of hp hg') (hsame.trans he.same) (by omega)
        exact ⟨_, last, .settle hp hrun, by rw [List.length_cons]; omega⟩
  refine hrun _ g hg (.refl _ g) (PendingSet.weight_le fun x _ => ?_)
  exact Nat.pow_le_pow_right (Nat.succ_pos _) (Nat.sub_le ..)

/-- The depth update takes out as many entries as there are, and no bound cuts it short. -/
theorem Sound.settles {g : Graph} (hg : g.Sound) : Settles g g.settleDepths.1 g.settleDepths.2 := by
  obtain ⟨done, last, hrun, hlen⟩ := hg.exists_settles
  have hbound : done.length ≤ g.settleBound := by
    refine Nat.le_trans hlen (Nat.mul_le_mul (Nat.le_succ _) ?_)
    exact Nat.pow_le_pow_right (Nat.succ_pos _) (by omega)
  have heq := hrun.settleWithin_eq (g.settleBound - done.length)
  rw [Nat.add_sub_cancel' hbound] at heq
  unfold settleDepths
  rwa [heq]

/-- Settling depths leaves a graph sound. -/
theorem Sound.sound_settleDepths {g : Graph} (hg : g.Sound) : g.settleDepths.2.Sound := hg.settleWithin _

theorem Sound.same_settleDepths {g : Graph} (hg : g.Sound) : SameUpTo Node.flat g g.settleDepths.2 :=
  hg.same_settleWithin _

/-- After the depth update every depth is the length of the longest chain of links, as they were before it. -/
theorem Sound.isGreatest_settleDepths {g : Graph} (hg : g.Sound) {id : NodeId} {n : Node}
    (hn : g.settleDepths.2.node? id = some n) : IsGreatest { k | g.Chain k id } n.depth := by
  have hsettled : ∀ x, g.settleDepths.2.SettledAt x := by
    intro x
    refine hg.sound_settleDepths.settled x ?_
    rw [hg.settles.update_eq]
    exact List.not_mem_nil
  have hgreatest := isGreatest_depth hsettled hn
  have hframe : SameUpTo Node.frame g g.settleDepths.2 := hg.same_settleDepths.weaken fun _ _ => Node.frame_of_flat
  simpa only [chain_congr hframe] using hgreatest

end Dataflow.Graph
