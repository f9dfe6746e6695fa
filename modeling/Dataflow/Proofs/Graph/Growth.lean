import Dataflow.Proofs.Graph.Typing
import Dataflow.Proofs.Store

/-!
# Growing graphs

A graph grows by nodes that are added to it one after the other (`Grown.added`).  The nodes that were there before get
no more than further children, so they keep their types, and the size goes up by the number of nodes added.
-/

namespace Dataflow.Graph

variable {g g' g'' : Graph} {n : Node} {id x : NodeId} {made : List NodeId}

/-- Nodes have been added, the latest listed first, and those that were there have got no more than further children. -/
structure Grown (g : Graph) (made : List NodeId) (g' : Graph) : Prop where
  store : g'.store.Sound
  nodup : made.Nodup
  fresh : ∀ x ∈ made, g.node? x = none
  live : ∀ x ∈ made, ∃ n, g'.node? x = some n
  kept : ∀ {x n}, g.node? x = some n → ∃ more, g'.node? x = some { n with children := n.children ++ more }
  others : ∀ {x n}, g'.node? x = some n → x ∈ made ∨ ∃ m, g.node? x = some m

namespace Grown

theorem refl (hs : g.store.Sound) : g.Grown [] g :=
  ⟨hs, .nil, fun _ hx => absurd hx List.not_mem_nil, fun _ hx => absurd hx List.not_mem_nil,
    fun {_ n} hn => ⟨[], by rw [hn, List.append_nil]⟩, fun {_ n} hn => .inr ⟨n, hn⟩⟩

theorem added (h : g.Grown made g') (ha : g'.Added n id g'') : g.Grown (id :: made) g'' := by
  have hnew : id ∉ made := fun hid => by
    obtain ⟨m, hm⟩ := h.live id hid
    exact ha.ne hm rfl
  have hfresh : g.node? id = none := by
    cases hid : g.node? id with
    | none => rfl
    | some m =>
      obtain ⟨more, hm⟩ := h.kept hid
      exact absurd rfl (ha.ne hm)
  refine ⟨ha.store, List.nodup_cons.2 ⟨hnew, h.nodup⟩, List.forall_mem_cons.2 ⟨hfresh, h.fresh⟩,
    List.forall_mem_cons.2 ⟨⟨n, ha.self⟩, fun x hx => ?_⟩, fun {x m} hm => ?_, fun {x m} hm => ?_⟩
  · obtain ⟨m, hm⟩ := h.live x hx
    exact ⟨_, ha.of_some hm⟩
  · obtain ⟨more, hkept⟩ := h.kept hm
    rw [ha.of_some hkept]
    split
    · unfold Node.addChild
      split
      · exact ⟨more, rfl⟩
      · exact ⟨more ++ [id], by rw [List.append_assoc]⟩
    · exact ⟨more, rfl⟩
  · rcases ha.some_cases hm with ⟨rfl, -⟩ | ⟨m₀, hm₀, -⟩
    · exact .inl List.mem_cons_self
    · exact (h.others hm₀).imp_left (List.mem_cons_of_mem id)

theorem size (h : g.Grown made g') : g'.size = g.size + made.length := by
  refine Store.size_eq_of_iff h.nodup h.fresh fun x => ⟨?_, ?_⟩
  · rintro ⟨m, hm⟩
    exact h.others hm
  · rintro (hx | ⟨m, hm⟩)
    · exact h.live x hx
    · obtain ⟨more, hkept⟩ := h.kept hm
      exact ⟨_, hkept⟩

theorem hasType (h : g.Grown made g') {t : DataType} (ht : g.HasType x t) : g'.HasType x t := by
  obtain ⟨n, hn, ht⟩ := ht
  obtain ⟨more, hkept⟩ := h.kept hn
  exact ⟨_, hkept, ht⟩

end Grown

end Dataflow.Graph
