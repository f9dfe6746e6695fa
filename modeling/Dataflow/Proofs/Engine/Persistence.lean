import Dataflow.Proofs.Engine.Refusal

/-!
# What operations leave of a node

A node that is not removed keeps its kind whatever is done.  Only relinking changes its parents, and only an evaluation
changes its value.

* `Move.leaves`: what one move leaves of a node;
* `Operation.leaves`: what an operation leaves of a node that is still there afterwards;
* `Operation.parents_eq`: the parents stay unless the operation rewires the node itself.
-/

namespace Dataflow

open Dataflow.Graph

variable {σ : Type} {created : Nat} {e e' : Engine σ} {allowed : Engine.Act → Prop} {x : NodeId} {n n' : Node}

namespace Engine

/-- What acts of allowed kinds leave of a node that they do not remove. -/
structure Act.Leaves (allowed : Act → Prop) (n n' : Node) : Prop where
  kind : n'.kind.emptied = n.kind.emptied
  parents : ¬ allowed .relink → n'.parents = n.parents
  value? : ¬ allowed .evaluate → n'.value? = n.value?

namespace Act.Leaves

private theorem of_content (h : n'.content = n.content) : Leaves allowed n n' := by
  simp only [Node.content, Prod.mk.injEq] at h
  exact ⟨h.1, fun _ => h.2.1, fun _ => h.2.2⟩

/-- What two runs leave of a node one after the other, they leave together. -/
theorem trans {m : Node} (h : Leaves allowed n n') (h' : Leaves allowed n' m) : Leaves allowed n m :=
  ⟨h'.kind.trans h.kind, fun hr => (h'.parents hr).trans (h.parents hr), fun he => (h'.value? he).trans (h.value? he)⟩

theorem mono {allowed' : Act → Prop} (h : Leaves allowed n n') (ha : ∀ a, allowed a → allowed' a) :
    Leaves allowed' n n' :=
  ⟨h.kind, fun hr => h.parents fun h => hr (ha _ h), fun he => h.value? fun h => he (ha _ h)⟩

end Act.Leaves

/-- A move that removes nothing leaves each node its kind, up to the members of a scope, and, if it neither relinks nor
evaluates nodes, its parents and its value. -/
theorem Move.leaves {i : Nat} (hm : Move allowed e i e') (hs : e.schedule.Sound created) (hr : ¬ allowed .remove)
    (hn : e.graph.node? x = some n) : ∃ n', e'.graph.node? x = some n' ∧ Act.Leaves allowed n n' := by
  have hlinked := hs.graph.linked
  have hsame : ∀ {g : Graph}, SameUpTo Node.content e.graph g →
      ∃ n', g.node? x = some n' ∧ Act.Leaves allowed n n' := by
    intro g hsame
    obtain ⟨n', hn', he⟩ := hsame.exists_of_some hn
    exact ⟨n', hn', .of_content he⟩
  have hadded : ∀ {g : Graph} {m : Node} {id : NodeId}, e.graph.Added m id g →
      ∃ n', g.node? x = some n' ∧ Act.Leaves allowed n n' := by
    intro g m id ha
    refine ⟨_, ha.of_some hn, .of_content ?_⟩
    split <;> simp
  have hrelinked : ∀ {g : Graph} {m : Node} {id : NodeId} {parents : List NodeId}, allowed .relink →
      e.graph.Relinked id m parents g → ∃ n', g.node? x = some n' ∧ Act.Leaves allowed n n' := by
    intro g m id parents ha h
    obtain ⟨cs, hcs, -⟩ := h.of_some hn
    exact ⟨_, hcs, rfl, fun hno => absurd ha hno, fun _ => rfl⟩
  cases hm with
  | create _ ha =>
    obtain ⟨d, -, hadd, -⟩ := addNode_eq_ok hs.graph.store ha
    obtain ⟨n', hn', hleaves⟩ := hadded hadd
    rcases computeFirst_cases _ _ with heq | ⟨v, heq⟩
    · exact ⟨n', by rw [heq, hn'], hleaves⟩
    · exact ⟨n', by rw [heq, node?_modify, if_neg (hadd.ne hn), hn'], hleaves⟩
  | addScope => exact hadded (addScope_added hs.graph.store)
  | rename _ hplace =>
    exact hsame ((setScope_eq_ok hplace).same.weaken fun _ _ he =>
      Node.content_of_evaluated (Node.evaluated_of_anonymous he))
  | remove ha => exact absurd ha hr
  | addChild ha hadd =>
    rcases addChild_eq_ok hlinked hadd with ⟨hf, -⟩ | ⟨-, m, hrelink, -⟩
    · cases hf
    · exact hrelinked ha hrelink
  | removeChild ha hremove =>
    rcases removeChild_eq_ok hlinked hremove with ⟨hf, -⟩ | ⟨-, m, hrelink, -⟩
    · cases hf
    · exact hrelinked ha hrelink
  | setParents ha hset =>
    obtain ⟨m, hrelink, -⟩ := setParents_eq_ok hlinked hset
    exact hrelinked ha hrelink
  | write _ hw =>
    cases hw with
    | input | withdraw | provoke | fold => exact hsame (.modify (fun _ => by rfl) e.graph _)
  | unregister id =>
    unfold removeObserver
    split <;> exact hsame (.refl _ _)
  | settle =>
    refine hsame ?_
    unfold drainUpdate
    split
    · exact .refl _ _
    · exact hs.graph.same_settleDepths.weaken fun n m he => (congrArg Node.content he : n.flat.content = m.flat.content)
  | evaluate ha hu =>
    obtain ⟨visits, last, hready, hrun, heq⟩ := evaluating_eq hs hu
    obtain ⟨n', hn', he⟩ := (hrun.same hready hs.keyed).exists_of_some hn
    rw [heq]
    refine ⟨n', hn', ?_, fun _ => ?_, fun hno => absurd ha hno⟩
    · exact (congrArg Node.kind he : n'.shape.kind = n.shape.kind)
    · exact (congrArg Node.parents he : n'.shape.parents = n.shape.parents)
  | reset id => exact hsame (.modify (fun _ => by rfl) e.graph id)
  | share | register | takeTasks | recast | adjust => exact hsame (.refl _ _)

/-- What each move leaves of a node, any number of moves leave of it. -/
theorem Moves.leaves {i : Nat} (hm : Moves allowed e i e') (hs : e.schedule.Sound created) (hr : ¬ allowed .remove)
    (hn : e.graph.node? x = some n) : ∃ n', e'.graph.node? x = some n' ∧ Act.Leaves allowed n n' := by
  have hstart : ∃ n', e.graph.node? x = some n' ∧ Act.Leaves allowed n n' := ⟨n, hn, .of_content rfl⟩
  refine (hm.induction (I := fun created e => e.schedule.Sound created ∧ ∃ n', e.graph.node? x = some n' ∧
    Act.Leaves allowed n n') ⟨hs, hstart⟩ fun hI hmove => ⟨hI.1.steps hmove.steps, ?_⟩).2
  obtain ⟨hs', m, hm', hleaves⟩ := hI
  obtain ⟨m', hm'', hleaves'⟩ := hmove.leaves hs' hr hm'
  exact ⟨m', hm'', hleaves.trans hleaves'⟩

end Engine

open Engine

namespace Operation

/-- The node to which the operation gives other parents. -/
def rewired? : Operation σ → Option NodeId
  | addChild _ child | removeChild _ child => some child
  | setParents id _ => some id
  | _ => none

/-- As long as it stays, a node keeps what the acts of an operation leave of it. -/
theorem leaves (op : Operation σ) (hs : e.schedule.Sound created) (ht : e.Tidy) (hn : e.graph.node? x = some n)
    (hn' : (op.apply e).graph.node? x = some n') : Act.Leaves (op.Does e) n n' := by
  rcases apply_cases op hs ht with ⟨i, hmoves⟩ | ⟨id, hremove⟩ | huntouched
  · obtain ⟨m, hm, hleaves⟩ := hmoves.leaves hs (fun ha => ha.2 rfl) hn
    cases hn'.symm.trans hm
    exact hleaves.mono fun _ ha => ha.1
  · obtain ⟨-, removed, g, hr, heq⟩ := removeNode_eq_ok hremove
    obtain ⟨m, hremoved, -⟩ := Graph.removeNode_eq_ok hs.graph.store hr
    rw [heq] at hn'
    obtain ⟨hx, m₀, hm₀, he⟩ := hremoved.some_cases hn'
    cases hn.symm.trans hm₀
    refine .of_content ((Node.content_of_evaluated (Node.evaluated_of_anonymous he)).trans ?_)
    split <;> simp
  · rw [huntouched.graph.nodes, hn] at hn'
    cases hn'
    exact .of_content rfl

/-- Rewiring a node relinks it, unless it is refused or there is nothing to do. -/
private theorem relinked_cases {op : Operation σ} (hs : e.schedule.Sound created) (hop : op.rewired? = some x) :
    (op.apply e).graph = e.graph ∨ ∃ n parents, e.graph.Relinked x n parents (op.apply e).graph := by
  have hlinked := hs.graph.linked
  cases op with
  | addChild parent child =>
    obtain rfl : child = x := Option.some.inj hop
    have hmade : (addChild parent child : Operation σ).apply e =
        e.accept ((e.addChild parent child).map Prod.snd) := rfl
    rw [hmade, Engine.addChild]
    cases hadd : e.graph.addChild parent child with
    | error _ => exact .inl rfl
    | ok p =>
      obtain ⟨added, g⟩ := p
      rcases addChild_eq_ok hlinked hadd with ⟨rfl, -⟩ | ⟨rfl, n, hrelinked, -⟩
      · exact .inl rfl
      · exact .inr ⟨n, _, hrelinked⟩
  | removeChild parent child =>
    obtain rfl : child = x := Option.some.inj hop
    have hmade : (removeChild parent child : Operation σ).apply e =
        e.accept ((e.removeChild parent child).map Prod.snd) := rfl
    rw [hmade, Engine.removeChild]
    cases hremove : e.graph.removeChild parent child with
    | error _ => exact .inl rfl
    | ok p =>
      obtain ⟨removed, g⟩ := p
      rcases removeChild_eq_ok hlinked hremove with ⟨rfl, -⟩ | ⟨rfl, n, hrelinked, -⟩
      · exact .inl rfl
      · exact .inr ⟨n, _, hrelinked⟩
  | setParents id parents =>
    obtain rfl : id = x := Option.some.inj hop
    have hmade : (setParents id parents : Operation σ).apply e = e.accept (e.setParents id parents) := rfl
    rw [hmade, Engine.setParents]
    cases hset : e.graph.setParents id parents with
    | error _ => exact .inl rfl
    | ok g =>
      obtain ⟨n, hrelinked, -⟩ := setParents_eq_ok hlinked hset
      exact .inr ⟨n, _, hrelinked⟩
  | _ => cases hop

/-- A node that an operation does not rewire keeps its parents. -/
theorem parents_eq (op : Operation σ) (hs : e.schedule.Sound created) (ht : e.Tidy) (hop : op.rewired? ≠ some x)
    (hn : e.graph.node? x = some n) (hn' : (op.apply e).graph.node? x = some n') : n'.parents = n.parents := by
  cases hid : op.rewired? with
  | none =>
    refine (op.leaves hs ht hn hn').parents fun hd => ?_
    cases op with
    | addChild | removeChild | setParents => cases hid
    | _ => simp [Does, Act.EndsPass] at hd
  | some id =>
    have hne : x ≠ id := fun he => hop (he ▸ hid)
    rcases relinked_cases hs hid with heq | ⟨m, parents, hrelinked⟩
    · rw [heq, hn] at hn'
      cases hn'
      rfl
    · obtain ⟨cs, hcs, -⟩ := hrelinked.of_some hn
      cases hn'.symm.trans hcs
      exact if_neg hne

end Operation

end Dataflow
