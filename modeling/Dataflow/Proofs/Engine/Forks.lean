import Dataflow.Graph.Mutation
import Dataflow.Proofs.Engine.Scopes

/-!
# Graphs on their own

The graph of an engine can be copied and then changed on its own, without the engine.  It stays intact (`Graph.Intact`)
as long as every node that is added to it is bare (`Node.IsBare`), and no longer: a node is added as it is given, so
that children, a scope or members that it has from elsewhere are not matched by the other nodes.

* `Graph.Whole`: what changes keep, and from which a graph is intact;
* `Whole.apply`, `Whole.isBare`: one change;
* `Whole.intact_iff`: any number of changes;
* `Reachable.standsAlone`: the same for the graphs of engines.
-/

namespace Dataflow

open Dataflow.Graph Relation

variable {σ : Type} {created : Nat} {e : Engine σ}

/-- The node is no more than what it reads: it has no children, is in no scope, and has no members. -/
structure Node.IsBare (n : Node) : Prop where
  children : n.children = []
  scope? : n.scope? = none
  members : ∀ name, n.members?.bind (·.find? name) = none

namespace Graph

variable {g g' : Graph} {id p c x s : NodeId} {n : Node} {changes : List Mutation}

/-- The parent lists the node among its children. -/
def Lists (g : Graph) (parent child : NodeId) : Prop := ∃ n, g.node? parent = some n ∧ child ∈ n.children

/-- What one may rely on in a graph. -/
structure Intact (g : Graph) : Prop where
  /-- Links are on both sides. -/
  lists_iff : ∀ {p c}, g.Lists p c ↔ g.Feeds p c
  /-- Following children never leads back. -/
  acyclic : ∀ x, ¬ TransGen g.Lists x x
  /-- The members of a scope are the nodes that name it as their scope. -/
  member_iff : ∀ {s x}, (∃ name, g.member? s name = some x) ↔ g.Inside x s
  /-- Nor does going outward. -/
  outward : ∀ x, ¬ TransGen g.Inside x x

/-- Of the nodes that the changes add, one after the other, all are bare. -/
def AddsBare (g : Graph) (changes : List Mutation) : Prop :=
  ∀ before n, before ++ [.addNode n] <+: changes → (∃ r, (g.mutate before).addNode n = .ok r) → n.IsBare

/-- The graph is sound, and its scopes are in order, be there a root or not. -/
structure Whole (g : Graph) : Prop where
  sound : g.Sound
  nested : g.Nested

private theorem mutate_concat (g : Graph) (changes : List Mutation) (change : Mutation) :
    g.mutate (changes ++ [change]) = change.apply (g.mutate changes) := by
  unfold mutate
  rw [List.foldl_append, List.foldl_cons, List.foldl_nil]

private theorem map_eq_ok {ε α β : Type} {f : α → β} {r : Except ε α} {b : β} :
    r.map f = .ok b ↔ ∃ a, r = .ok a ∧ f a = b := by
  cases r <;> simp [Except.map]

namespace Whole

/-- In a graph that is whole, links are on both sides, members are placed, and there are no cycles. -/
theorem intact (h : g.Whole) : g.Intact := by
  have hlists : ∀ {p c}, g.Lists p c ↔ g.Feeds p c := by
    intro p c
    constructor
    · rintro ⟨n, hn, hc⟩
      exact (h.sound.linked.mem_children_iff hn).1 hc
    · intro hf
      obtain ⟨n, hn⟩ := h.sound.linked.exists_parent hf
      exact ⟨n, hn, (h.sound.linked.mem_children_iff hn).2 hf⟩
  have hsame : g.Lists = g.Feeds := funext fun p => funext fun c => propext hlists
  exact ⟨hlists, hsame ▸ h.sound.linked.acyclic, h.nested.inside_iff.symm, h.nested.acyclic⟩

/-! ### One change -/

/-- Relinking a node leaves a graph whole if it closes no cycle. -/
theorem relinked {parents : List NodeId} (h : g.Whole) (hr : g.Relinked id n parents g') (hw : g'.WellLinked) :
    g'.Whole := by
  refine ⟨h.sound.relinked hr hw, h.nested.congr (SameUpTo.weaken hr.same_standing fun n m he => ?_)⟩
  exact (congrArg Node.identity he : n.standing.identity = m.standing.identity)

/-- A graph stays whole if a bare node is added. -/
theorem added (h : g.Whole) (ha : g.addNode n = .ok (id, g')) (hn : n.IsBare) : g'.Whole := by
  obtain ⟨d, hd, hadded, hu⟩ := addNode_eq_ok h.sound.store ha
  exact ⟨h.sound.added hadded hn.children hd hu, h.nested.added hadded hn.scope? hn.members⟩

/-- If it is intact after a node has been added, the node was bare. -/
theorem isBare (h : g.Whole) (ha : g.addNode n = .ok (id, g')) (hi : g'.Intact) : n.IsBare := by
  obtain ⟨d, hd, hadded, -⟩ := addNode_eq_ok h.sound.store ha
  have hfresh : ∀ {m}, g.node? id ≠ some m := fun {m} hm => by
    rw [hadded.fresh] at hm
    cases hm
  have hself : ∀ {y}, g'.Inside y y → False := fun hy => hi.outward _ (.single hy)
  refine ⟨List.eq_nil_iff_forall_not_mem.2 fun c hc => ?_, ?_, fun name => ?_⟩
  · have hlists : g'.Lists id c := ⟨_, hadded.self, hc⟩
    rcases (WellLinked.feeds_added hadded).1 (hi.lists_iff.1 hlists) with ⟨-, hid⟩ | hfeeds
    · obtain ⟨m, hm, -⟩ := hadded.parents id hid
      exact hfresh hm
    · obtain ⟨m, hm⟩ := h.sound.linked.exists_parent hfeeds
      exact hfresh hm
  · cases hscope : n.scope? with
    | none => rfl
    | some s =>
      have hin : g'.Inside id s := ⟨_, hadded.self, hscope⟩
      obtain ⟨name, hm⟩ := hi.member_iff.2 hin
      have hne : s ≠ id := by
        rintro rfl
        exact hself hin
      rw [member?_of_identity (hadded.same_identity hne), h.nested.member?_iff] at hm
      obtain ⟨m, hm, -⟩ := address?_eq_some_iff.1 hm
      exact absurd hm hfresh
  · rw [Option.eq_none_iff_forall_ne_some]
    intro x hx
    have hm : g'.member? id name = some x := by rwa [member?, hadded.self, Option.bind_some]
    have hin : g'.Inside x id := hi.member_iff.1 ⟨name, hm⟩
    have hne : x ≠ id := by
      rintro rfl
      exact hself hin
    rw [Graph.inside_iff, address?_of_identity (hadded.same_identity hne), ← Graph.inside_iff,
      h.nested.inside_iff] at hin
    obtain ⟨name', hm'⟩ := hin
    obtain ⟨m, hm, -⟩ := Option.bind_eq_some_iff.1 hm'
    exact hfresh hm

/-- A node that has been taken out is bare, and can be put back. -/
theorem isBare_of_removeNode (h : g.Whole) (hr : g.removeNode id = .ok (n, g')) : n.IsBare := by
  obtain ⟨hscope, hempty⟩ := h.nested.loose_of_removeNode hr
  obtain ⟨m, hremoved, -, hsame⟩ := removeNode_eq_ok h.sound.store hr
  have hchildren : n.children = m.children :=
    (congrArg Node.children hsame : n.anonymous.children = m.anonymous.children)
  exact ⟨hchildren.trans hremoved.children, hscope, hempty⟩

/-- Every change keeps a graph whole, but for the addition of a node that is not bare. -/
theorem apply (h : g.Whole) (change : Mutation)
    (hbare : ∀ n, change = .addNode n → (∃ r, g.addNode n = .ok r) → n.IsBare) : (change.apply g).Whole := by
  have haccept : ∀ {r : Except GraphError Graph}, (∀ g', r = .ok g' → g'.Whole) → (g.accept r).Whole := by
    intro r hr
    cases r with
    | error err => exact h
    | ok g' => exact hr g' rfl
  have hlinked := h.sound.linked
  cases change with
  | addNode n =>
    refine haccept fun g' hg' => ?_
    obtain ⟨⟨id, g'⟩, ha, rfl⟩ := map_eq_ok.1 hg'
    exact h.added ha (hbare n rfl ⟨_, ha⟩)
  | removeNode id =>
    refine haccept fun g' hg' => ?_
    obtain ⟨⟨removed, g'⟩, hr, rfl⟩ := map_eq_ok.1 hg'
    obtain ⟨n, hremoved, -, -⟩ := removeNode_eq_ok h.sound.store hr
    exact ⟨h.sound.removed hremoved, h.nested.removed hr⟩
  | addChild parent child =>
    refine haccept fun g' hg' => ?_
    obtain ⟨⟨added, g'⟩, ha, rfl⟩ := map_eq_ok.1 hg'
    rcases addChild_eq_ok hlinked ha with ⟨-, rfl⟩ | ⟨-, n, hr, hw⟩
    · exact h
    · exact h.relinked hr hw
  | removeChild parent child =>
    refine haccept fun g' hg' => ?_
    obtain ⟨⟨removed, g'⟩, ha, rfl⟩ := map_eq_ok.1 hg'
    rcases removeChild_eq_ok hlinked ha with ⟨-, rfl⟩ | ⟨-, n, hr, hw⟩
    · exact h
    · exact h.relinked hr hw
  | setParents id parents =>
    refine haccept fun g' hg' => ?_
    obtain ⟨n, hr, hw⟩ := setParents_eq_ok hlinked hg'
    exact h.relinked hr hw
  | setScope id scope name =>
    refine haccept fun g' hg' => ?_
    have hrenamed := setScope_eq_ok hg'
    refine ⟨h.sound.congr ?_ hrenamed.update (hrenamed.store h.sound.store), h.nested.placed hg'⟩
    exact hrenamed.same.weaken fun _ _ => Node.shape_of_anonymous
  | settleDepths =>
    refine ⟨h.sound.sound_settleDepths, h.nested.congr (h.sound.same_settleDepths.weaken fun n m he => ?_)⟩
    exact (congrArg Node.identity he : n.flat.identity = m.flat.identity)

/-! ### Any number of changes -/

/-- A graph stays whole while only bare nodes are added. -/
theorem mutate (h : g.Whole) (hbare : g.AddsBare changes) : (g.mutate changes).Whole := by
  induction changes using List.reverseRecOn with
  | nil => exact h
  | append_singleton changes change ih =>
    rw [mutate_concat]
    refine (ih fun before n hp => hbare before n (hp.trans (List.prefix_append _ _))).apply change ?_
    rintro n rfl
    exact hbare changes n List.prefix_rfl

/-- A graph stays intact exactly as long as only bare nodes are added. -/
theorem intact_iff (h : g.Whole) (changes : List Mutation) :
    (∀ before, before <+: changes → (g.mutate before).Intact) ↔ g.AddsBare changes := by
  refine ⟨fun hintact => ?_, fun hbare before hp => ?_⟩
  · induction changes using List.reverseRecOn with
    | nil =>
      intro before n hp
      simp at hp
    | append_singleton changes change ih =>
      have hrest := ih fun before hp => hintact before (hp.trans (List.prefix_append _ _))
      intro before n hp hadded
      rcases List.prefix_concat_iff.1 hp with hall | hp
      · obtain ⟨rfl, hlast⟩ := List.append_inj' hall rfl
        obtain rfl : .addNode n = change := (List.cons.inj hlast).1
        obtain ⟨⟨id, g'⟩, ha⟩ := hadded
        have hafter := hintact _ List.prefix_rfl
        rw [mutate_concat, Mutation.apply, ha] at hafter
        exact (h.mutate hrest).isBare ha hafter
      · exact hrest before n hp hadded
  · exact (h.mutate fun before' n hp' => hbare before' n (hp'.trans hp)).intact

end Whole

end Graph

/-- What is known of a graph that is changed on its own. -/
structure Graph.StandsAlone (g : Graph) : Prop where
  /-- After each of the changes it is intact exactly if every node that has been added was bare. -/
  intact_iff : ∀ changes, (∀ before, before <+: changes → (g.mutate before).Intact) ↔ g.AddsBare changes
  /-- So nodes that have been taken out of it can be added again. -/
  isBare_of_removeNode : ∀ changes id n g', g.AddsBare changes →
    (g.mutate changes).removeNode id = .ok (n, g') → n.IsBare

/-- The graph of an engine that a host can bring about can be copied, and changed on its own. -/
theorem Reachable.standsAlone (h : Reachable created e) : e.graph.StandsAlone := by
  have hwhole : e.graph.Whole := ⟨h.sound.graph, h.scopeTree.nested⟩
  exact ⟨hwhole.intact_iff, fun _ _ _ _ hbare => (hwhole.mutate hbare).isBare_of_removeNode⟩

/-- A formula, one with a name that reads it, and a third that reads the second. -/
def formulaRow : Engine Unit :=
  let spec : HostSpec := .formula .int ⟨"none", fun _ _ => none⟩
  (Engine.new .default ()).run [.createNode spec [], .createNamed ⟨0, 0⟩ "x" spec [⟨1, 0⟩],
    .createNode spec [⟨2, 0⟩]]

/-- A new trigger that reads the third formula leaves the graph intact. -/
theorem formulaRow_intact :
    (formulaRow.graph.mutate [.addNode (.fresh (.trigger .changed) [⟨3, 0⟩] none)]).Intact := by
  have h : Reachable _ formulaRow := (Reachable.new .default ()).run _
  refine (h.standsAlone.intact_iff _).2 (fun before n hp _ => ?_) _ List.prefix_rfl
  obtain ⟨after, hall⟩ := hp
  cases before with
  | nil =>
    obtain ⟨rfl, -⟩ := Mutation.addNode.inj (List.cons.inj hall).1
    exact ⟨rfl, rfl, fun _ => rfl⟩
  | cons => simp at hall

/-- The third formula is put before the first instead of after the second, and a copy of the second, made before, is
added. -/
def copiedFormula : Graph :=
  (formulaRow.graph.node? ⟨2, 0⟩).elim formulaRow.graph fun n => formulaRow.graph.mutate
    [.removeChild ⟨2, 0⟩ ⟨3, 0⟩, .addChild ⟨3, 0⟩ ⟨1, 0⟩, .addNode n]

/-- The copy lists the third formula as a child, which does not read it.  By way of it one comes from the first formula
back to the first.  And the copy names the root as its scope, which does not have it as a member. -/
theorem copiedFormula_broken :
    (copiedFormula.Lists ⟨4, 0⟩ ⟨3, 0⟩ ∧ ¬ copiedFormula.Feeds ⟨4, 0⟩ ⟨3, 0⟩) ∧
    TransGen copiedFormula.Lists ⟨1, 0⟩ ⟨1, 0⟩ ∧
    copiedFormula.Inside ⟨4, 0⟩ ⟨0, 0⟩ ∧ ¬ ∃ name, copiedFormula.member? ⟨0, 0⟩ name = some ⟨4, 0⟩ := by
  have hlists : ∀ {p c cs}, (copiedFormula.node? p).map Node.children = some cs → c ∈ cs → copiedFormula.Lists p c := by
    rintro p c cs h hc
    obtain ⟨n, hn, rfl⟩ := Option.map_eq_some_iff.1 h
    exact ⟨n, hn, hc⟩
  have hfirst : (copiedFormula.node? ⟨1, 0⟩).map Node.children = some [⟨2, 0⟩, ⟨4, 0⟩] := by decide +kernel
  have hcopy : (copiedFormula.node? ⟨4, 0⟩).map Node.children = some [⟨3, 0⟩] := by decide +kernel
  have hthird : (copiedFormula.node? ⟨3, 0⟩).map Node.children = some [⟨1, 0⟩] := by decide +kernel
  have hparents : (copiedFormula.node? ⟨3, 0⟩).map Node.parents = some [] := by decide +kernel
  have hscope : (copiedFormula.node? ⟨4, 0⟩).map Node.scope? = some (some ⟨0, 0⟩) := by decide +kernel
  have hroot : (copiedFormula.node? ⟨0, 0⟩).bind (fun n => n.members?.map Directory.entries) =
      some [("x", ⟨2, 0⟩)] := by decide +kernel
  refine ⟨⟨hlists hcopy (by simp), ?_⟩, ?_, ?_, ?_⟩
  · rintro ⟨n, hn, hp⟩
    rw [hn, Option.map_some, Option.some.injEq] at hparents
    rw [hparents] at hp
    cases hp
  · exact .tail (.tail (.single (hlists hfirst (by simp))) (hlists hcopy (by simp))) (hlists hthird (by simp))
  · obtain ⟨n, hn, hs⟩ := Option.map_eq_some_iff.1 hscope
    exact ⟨n, hn, hs⟩
  · rintro ⟨name, hm⟩
    obtain ⟨n, hn, hm⟩ := Option.bind_eq_some_iff.1 hm
    obtain ⟨members, hmembers, hfind⟩ := Option.bind_eq_some_iff.1 hm
    rw [hn, Option.bind_some, hmembers, Option.map_some, Option.some.injEq] at hroot
    obtain ⟨entry, hentry, hx⟩ := Option.map_eq_some_iff.1 hfind
    have hmem := List.mem_of_find?_eq_some hentry
    rw [hroot, List.mem_singleton] at hmem
    rw [hmem] at hx
    cases hx

end Dataflow
