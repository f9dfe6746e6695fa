import Dataflow.Proofs.Engine.Creation

/-!
# Scopes and paths in an engine

In every engine that a host can bring about the scopes form a tree below the root (`kept_scopeTree`), whatever has been
named, moved and removed.  So going outward from a node ends, a node with a name is found under its path and under no
other, and a node can be placed wherever neither its new name nor the tree stands against it (`Reachable.wellScoped`).
-/

namespace Dataflow

open Dataflow.Graph Relation

variable {σ : Type} {created : Nat} {e e' : Engine σ}

namespace Engine

private theorem same_computeFirst (g : Graph) (id : NodeId) : SameUpTo Node.identity g (computeFirst g id) := by
  intro x
  rcases node?_computeFirst g id x with hx | ⟨n, args, hn, hx⟩
  · rw [hx]
  · rw [hn, hx, Option.map_some, Option.map_some]
    cases n.outcome args <;> rfl

/-- Every operation keeps all names and scopes in order. -/
theorem kept_scopeTree : Kept fun e : Engine σ => e.graph.ScopeTree e.root := by
  refine ⟨fun {_ e e' spec parents id} hs ht hspec hc => ?_, fun {_ e e' scope id name} hs ht hc => ?_,
    fun _ ht hset => ?_, fun _ ht hremove => ?_, fun hs ht hm => ?_⟩
  · obtain ⟨g, hadd, rfl⟩ := createNode_eq_ok hc
    obtain ⟨d, -, ha, -⟩ := addNode_eq_ok hs.graph.store hadd
    have hmembers : ∀ n : Node, n.kind = spec.kind → n.members? = none := by
      intro n hk
      unfold Node.members?
      split
      · next members hs => exact absurd (hk.symm.trans hs) (hspec.not_scope members)
      · rfl
    exact (ht.added ha rfl (hmembers _ rfl)).congr (same_computeFirst g id)
  · unfold Engine.createScope at hc
    simp only [bind_eq_ok, pure_eq_ok, Prod.mk.injEq] at hc
    obtain ⟨_, hcheck, g, hset, rfl, rfl⟩ := hc
    have hfresh : e.graph.node? e.graph.addScope.1 = none := (addScope_added hs.graph.store).fresh
    refine ht.addScope hs.graph.store ?_ hset
    rintro rfl
    unfold checkScope at hcheck
    split at hcheck
    · cases hcheck
    · simp only [bind_eq_ok, node_eq_ok_iff] at hcheck
      obtain ⟨n, hn, -⟩ := hcheck
      cases hfresh.symm.trans hn
  · obtain ⟨g, hplace, rfl⟩ := exists_of_setScope hset
    exact ht.placed hplace
  · obtain ⟨hroot, removed, g, hr, rfl⟩ := removeNode_eq_ok hremove
    exact ht.removed hroot hr
  · rw [hm.root]
    exact ht.congr (hm.same_identity hs)

end Engine

/-- In every engine that a host can bring about, the scopes form a tree below the root. -/
theorem Reachable.scopeTree (h : Reachable created e) : e.graph.ScopeTree e.root :=
  h.kept Engine.kept_scopeTree fun _ _ => scopeTree_addScope_empty

theorem Engine.Moves.root {allowed : Act → Prop} {i : Nat} (h : Moves allowed e i e') : e'.root = e.root := by
  induction h with
  | refl => rfl
  | tail _ hm ih => exact hm.root.trans ih

/-- What is known of the scopes of an engine, and of the names in them. -/
structure WellScoped (e : Engine σ) : Prop where
  /-- The root is a scope without a name and in no scope, and remains the root. -/
  root : e.graph.IsScope e.root ∧ e.graph.address? e.root = some (none, none) ∧
    ∀ op : Operation σ, (op.apply e).root = e.root
  /-- A scope has a member under a name exactly if the member exists, has the name and is in the scope. -/
  member?_iff : ∀ scope name x, e.graph.member? scope name = some x ↔
    ∃ n, e.graph.node? x = some n ∧ n.name? = some name ∧ n.scope? = some scope
  /-- What a node is in is a scope, and whatever is in a scope has a name. -/
  inside : ∀ x n scope, e.graph.node? x = some n → n.scope? = some scope → e.graph.IsScope scope ∧ n.name? ≠ none
  /-- The scopes, and all that is in a scope, lie in the root, and no node lies in itself. -/
  tree : (∀ x, e.graph.IsScope x ∨ (∃ scope, e.graph.Inside x scope) → e.graph.Encloses e.root x) ∧
    ∀ x, ¬ TransGen e.graph.Inside x x
  /-- Whether a node is around another one is found out: going farther out than it does, the search would find the
  same. -/
  encloses : ∀ x n outer, e.graph.node? x = some n → ∃ b, e.graph.encloses outer x = .ok b ∧
    (b = true ↔ e.graph.Encloses outer x) ∧ ∀ k, e.graph.size < k → e.graph.enclosesWithin outer k x = .ok b
  /-- The names around a node are found: going farther out, there are no more. -/
  pathOf : ∀ x n, e.graph.node? x = some n → ∃ names,
    e.graph.pathOf x = .ok (if names = [] then none else some (Name.toPath names)) ∧
      ∀ k, e.graph.size < k → e.graph.namesWithin k x = .ok names
  lookup_pathOf : ∀ x n, e.graph.node? x = some n → n.name? ≠ none →
    ∃ path, e.graph.pathOf x = .ok (some path) ∧ e.lookup path = .ok x
  pathOf_lookup : ∀ path x, e.lookup path = .ok x → e.graph.pathOf x = .ok (some path)
  /-- A node is refused a place in a scope for three reasons only. -/
  setScope_error_iff : ∀ x n scope name, e.graph.node? x = some n → e.graph.IsScope scope →
    ((∃ err, e.setScope x scope name = .error err) ↔
      ¬ Name.WellFormed name ∨ (∃ other, other ≠ x ∧ e.graph.member? scope name = some other) ∨
        e.graph.Encloses x scope)

/-- In every engine that a host can bring about the scopes form a tree, and names and paths can be relied on. -/
theorem Reachable.wellScoped (h : Reachable created e) : WellScoped e := by
  have ht := h.scopeTree
  have hp := ht.toPlaced
  refine ⟨⟨hp.isScope_root, hp.address?_root, fun op => (op.moves h.sound).root⟩, fun scope name x => ?_,
    fun x n scope hn hscope => ?_, ⟨fun x hx => ?_, hp.acyclic⟩, fun x n outer hn => ?_, fun x n hn => ?_,
    fun x n hn hname => hp.lookup_pathOf hn hname, fun path x hx => hp.pathOf_of_lookup hx,
    fun x n scope name hn hscope => ?_⟩
  · rw [hp.member?_iff, address?_eq_some_iff]
  · have ha : e.graph.address? x = some (n.name?, some scope) := address?_eq_some_iff.2 ⟨n, hn, rfl, hscope⟩
    have hname : n.name? ≠ none := fun hnone => absurd ((hp.named ha).1 hnone) (by simp)
    obtain ⟨name, hname'⟩ := Option.ne_none_iff_exists'.1 hname
    rw [hname'] at ha
    obtain ⟨m, hm, hfind⟩ := Option.bind_eq_some_iff.1 (hp.member?_iff.2 ha)
    obtain ⟨members, hmembers, -⟩ := Option.bind_eq_some_iff.1 hfind
    exact ⟨⟨m, members, hm, hmembers⟩, hname⟩
  · rcases hx with hs | ⟨scope, hx⟩
    · exact ht.scopes hs
    · exact hp.rooted hx
  · obtain ⟨b, hiff, hb⟩ := hp.exists_enclosesWithin hn outer
    exact ⟨b, hb _ (Nat.lt_succ_self _), hiff, hb⟩
  · obtain ⟨names, hnames⟩ := hp.exists_namesWithin hn
    refine ⟨names, ?_, hnames⟩
    unfold Graph.pathOf
    rw [hnames _ (Nat.lt_succ_self _)]
    rfl
  · have herror : (∃ err, e.setScope x scope name = .error err) ↔
        ∃ err, e.graph.setScope x scope name = .error err := by
      unfold Engine.setScope
      cases e.graph.setScope x scope name <;> simp [bind, Except.bind, pure, Except.pure]
    rw [herror, ht.exists_setScope_error_iff hn hscope, ← Name.isValid_iff, Bool.not_eq_true]

/-- A scope in a scope, and an input in the inner one, which has been renamed since. -/
def nestedScopes : Engine Unit :=
  (Engine.new .default ()).run [.createScope ⟨0, 0⟩ "plant", .createScope ⟨1, 0⟩ "tank",
    .createNamed ⟨2, 0⟩ "x" (.input .int) [], .setScope ⟨3, 0⟩ ⟨2, 0⟩ "level"]

/-- The input is found under its path, and the outer scope cannot be placed in the inner one. -/
theorem nestedScopes_path :
    nestedScopes.lookup "plant.tank.level" = .ok ⟨3, 0⟩ ∧
      nestedScopes.graph.pathOf ⟨3, 0⟩ = .ok (some "plant.tank.level") ∧
        ∃ err, nestedScopes.setScope ⟨1, 0⟩ ⟨2, 0⟩ "plant" = .error err := by
  have h : Reachable _ nestedScopes := (Reachable.new .default ()).run _
  have hlookup : nestedScopes.lookup "plant.tank.level" = .ok ⟨3, 0⟩ := by decide +kernel
  refine ⟨hlookup, h.wellScoped.pathOf_lookup _ _ hlookup, ?_⟩
  refine (h.wellScoped.setScope_error_iff ⟨1, 0⟩ _ ⟨2, 0⟩ "plant" rfl ⟨_, _, rfl, rfl⟩).2 (.inr (.inr ?_))
  exact .single ⟨_, rfl, rfl⟩

end Dataflow
