import Dataflow.Proofs.Graph.Scopes

/-!
# Placing nodes in scopes

Adding, removing and placing a node change where this one node is found (`Graph.Readdressed`).  They keep a graph placed
(`Graph.Placed`), and with all scopes in the root (`Graph.ScopeTree`).

* `ScopeTree.added`, `ScopeTree.removed`, `ScopeTree.placed`, `ScopeTree.addScope`: what the edits keep;
* `ScopeTree.exists_setScope_error_iff`: when a node cannot be placed.
-/

namespace Dataflow

open Relation

namespace Node

@[simp] theorem identity_addChild (n : Node) (c : NodeId) : (n.addChild c).identity = n.identity := by
  unfold addChild
  split <;> rfl

@[simp] theorem identity_removeChild (n : Node) (c : NodeId) : (n.removeChild c).identity = n.identity := rfl

@[simp] theorem address_mapMembers (n : Node) (f : Directory → Directory) : (n.mapMembers f).address = n.address := by
  unfold mapMembers
  split <;> rfl

theorem members?_mapMembers (n : Node) (f : Directory → Directory) : (n.mapMembers f).members? = n.members?.map f := by
  cases hk : n.kind <;> simp [mapMembers, members?, hk]

end Node

namespace Graph

variable {g g' : Graph} {root id x s scope : NodeId} {name nm : String}

/-! ### What is stored on both sides -/

theorem isScope_iff : g.IsScope x ↔ ∃ n, g.node? x = some n ∧ n.kind.emptied = .scope .empty := by
  unfold IsScope
  refine exists_congr fun n => ?_
  rw [exists_and_left]
  refine and_congr_right fun _ => ?_
  unfold Node.members? NodeKind.emptied
  cases n.kind <;> simp

theorem SameUpTo.isScope (h : SameUpTo Node.anonymous g g') : g'.IsScope x ↔ g.IsScope x := by
  have hkind : ∀ {n m : Node}, n.anonymous = m.anonymous → n.kind.emptied = m.kind.emptied := fun h =>
    congrArg Node.kind h
  rw [isScope_iff, isScope_iff]
  constructor
  · rintro ⟨n, hn, hk⟩
    obtain ⟨m, hm, he⟩ := h.symm.exists_of_some hn
    exact ⟨m, hm, (hkind he).trans hk⟩
  · rintro ⟨n, hn, hk⟩
    obtain ⟨m, hm, he⟩ := h.exists_of_some hn
    exact ⟨m, hm, (hkind he).trans hk⟩

theorem address?_of_identity (h : (g'.node? x).map Node.identity = (g.node? x).map Node.identity) :
    g'.address? x = g.address? x := by
  have haddress : ∀ r : Option Node, (r.map Node.identity).map Node.address = r.map Node.address := fun r => by
    rw [Option.map_map]
    rfl
  unfold address?
  rw [← haddress, h, haddress]

theorem member?_of_identity (h : (g'.node? s).map Node.identity = (g.node? s).map Node.identity) (name : String) :
    g'.member? s name = g.member? s name := by
  have hmember : ∀ r : Option Node, ((r.map Node.identity).bind fun n => n.members?.bind (·.find? name)) =
      r.bind fun n => n.members?.bind (·.find? name) := fun r => by cases r <;> rfl
  unfold member?
  rw [← hmember, h, hmember]

private theorem isScope_of_identity (h : (g'.node? x).map Node.identity = (g.node? x).map Node.identity) :
    g'.IsScope x ↔ g.IsScope x := by
  have hscope : ∀ {g : Graph}, g.IsScope x ↔ ∃ n, (g.node? x).map Node.identity = some n ∧ n.members? ≠ none := by
    intro g
    simp only [IsScope, Option.map_eq_some_iff, Option.ne_none_iff_exists']
    constructor
    · rintro ⟨n, members, hn, hm⟩
      exact ⟨_, ⟨n, hn, rfl⟩, members, hm⟩
    · rintro ⟨_, ⟨n, hn, rfl⟩, members, hm⟩
      exact ⟨n, members, hn, hm⟩
  rw [hscope, hscope, h]

private theorem node?_modify_of_ne {f : Node → Node} (h : x ≠ id) : (g.modify id f).node? x = g.node? x := by
  rw [node?_modify, if_neg h]

private theorem address?_modify {f : Node → Node} (hf : ∀ n, (f n).address = n.address) :
    (g.modify id f).address? x = g.address? x := by
  unfold address?
  rw [node?_modify]
  split
  · rw [Option.map_map]
    exact congrArg (g.node? x).map (funext hf)
  · rfl

private theorem member?_modify {f : Node → Node} (hf : ∀ n, (f n).members? = n.members?) :
    (g.modify id f).member? s nm = g.member? s nm := by
  unfold member?
  rw [node?_modify]
  split
  · rw [Option.bind_map]
    exact Option.bind_congr fun n _ => by rw [Function.comp_apply, hf]
  · rfl

private theorem member?_mapMembers {f : Directory → Directory} {r : Option NodeId}
    (hf : ∀ m, (f m).find? nm = if nm = name then r else m.find? nm) (h : r = none ∨ g.IsScope scope) :
    (g.modify scope (·.mapMembers f)).member? s nm = if s = scope ∧ nm = name then r else g.member? s nm := by
  unfold member?
  rw [node?_modify]
  by_cases hs : s = scope
  · subst hs
    simp only [if_true, true_and]
    cases hn : g.node? s with
    | none =>
      rcases h with rfl | ⟨n, members, hn', -⟩
      · simp
      · cases hn.symm.trans hn'
    | some n =>
      simp only [Option.map_some, Option.bind_some, Node.members?_mapMembers]
      cases hm : n.members? with
      | none =>
        rcases h with rfl | ⟨n', members, hn', hm'⟩
        · simp
        · rw [hn, Option.some.injEq] at hn'
          rw [← hn', hm] at hm'
          cases hm'
      | some members => exact hf members
  · simp only [hs, if_false, false_and]

/-- A node that is taken out of its scope is not found there any more. -/
private theorem member?_detach : (g.detach id).member? s nm =
    if g.address? id = some (some nm, some s) then none else g.member? s nm := by
  unfold detach
  split
  · next name scope hn =>
    have haddress : g.address? id = some (some nm, some s) ↔ s = scope ∧ nm = name := by
      simp only [address?, hn, Option.map_some, Node.address, Option.some.injEq, Prod.mk.injEq]
      exact ⟨fun h => ⟨h.2.symm, h.1.symm⟩, fun h => ⟨h.2.symm, h.1.symm⟩⟩
    rw [member?_modify fun n => by rfl, member?_mapMembers (fun m => m.find?_erase name nm) (.inl rfl)]
    simp only [haddress]
  · next hother =>
    rw [if_neg]
    intro haddress
    obtain ⟨n, hn, hname, hs⟩ := address?_eq_some_iff.1 haddress
    obtain ⟨⟩ := n
    subst hname hs
    exact hother _ _ _ _ _ _ _ _ _ _ hn

private theorem address?_detach (h : x ≠ id) : (g.detach id).address? x = g.address? x := by
  unfold detach
  split
  · unfold address?
    rw [node?_modify_of_ne h]
    exact address?_modify fun n => n.address_mapMembers _
  · rfl

/-! ### Edits that concern one node -/

/-- One node is found elsewhere than before, or nowhere; all others stay. -/
structure Readdressed (g : Graph) (id : NodeId) (new? : Option (Option String × Option NodeId)) (g' : Graph) :
    Prop where
  address?_eq : ∀ x, g'.address? x = if x = id then new? else g.address? x
  member?_eq : ∀ s nm, g'.member? s nm = if new? = some (some nm, some s) then some id
    else if g.address? id = some (some nm, some s) then none else g.member? s nm
  isScope_iff : ∀ x, x ≠ id → (g'.IsScope x ↔ g.IsScope x)

private theorem discard_node_eq_ok {u : Unit} :
    (discard (g.node id) : Except GraphError Unit) = .ok u ↔ ∃ n, g.node? id = some n := by
  unfold node
  cases g.node? id with
  | none => simp [discard, Functor.discard, Functor.mapConst, Except.map]
  | some n => simp [discard, Functor.discard, Functor.mapConst, Except.map]

/-- What may be placed: a node that exists, under a valid name that no other node has there, in a scope that is not
found to lie in the node. -/
theorem checkScope_eq_ok_iff : g.checkScope (some id) scope name = .ok () ↔
    Name.isValid name = true ∧ g.IsScope scope ∧ (∀ other, g.member? scope name = some other → other = id) ∧
      (∃ n, g.node? id = some n) ∧ g.encloses id scope = .ok false := by
  unfold checkScope
  cases hvalid : Name.isValid name with
  | false => simp
  | true =>
    simp only [Bool.true_eq_false, if_false, bind_eq_ok, node_eq_ok_iff, true_and]
    constructor
    · rintro ⟨n, hn, h⟩
      split at h
      · cases h
      next members hm =>
      have hmember : g.member? scope name = members.find? name := by rw [member?, hn, Option.bind_some, hm]; rfl
      split at h
      · cases h
      next hfree =>
      simp only [bind_eq_ok, discard_node_eq_ok] at h
      obtain ⟨-, hid, outside, henclosed, h⟩ := h
      cases outside with
      | true => cases h
      | false =>
        refine ⟨⟨n, members, hn, hm⟩, fun other ho => ?_, hid, henclosed⟩
        rw [hmember] at ho
        rw [ho] at hfree
        by_contra hne
        exact hfree ⟨by simp, by simpa using hne⟩
    · rintro ⟨⟨n, members, hn, hm⟩, hfree, hid, henclosed⟩
      have hmember : g.member? scope name = members.find? name := by rw [member?, hn, Option.bind_some, hm]; rfl
      refine ⟨n, hn, ?_⟩
      rw [hm]
      simp only
      rw [if_neg]
      · simp only [bind_eq_ok, discard_node_eq_ok]
        exact ⟨(), hid, false, henclosed, rfl⟩
      · rintro ⟨hsome, hne⟩
        obtain ⟨other, ho⟩ := Option.ne_none_iff_exists'.1 hsome
        exact hne (by rw [ho, hfree other (hmember.trans ho)])

/-- A node can be moved to a scope exactly if the scope takes it under the name. -/
theorem setScope_eq_ok_iff : (∃ g', g.setScope id scope name = .ok g') ↔
    g.checkScope (some id) scope name = .ok () := by
  unfold setScope
  simp only [bind_eq_ok, pure_eq_ok]
  exact ⟨fun ⟨_, _, h, _⟩ => h, fun h => ⟨_, _, h, rfl⟩⟩

/-- A node that has been moved to a scope has its new address, and all others have theirs. -/
theorem readdressed_of_setScope (h : g.setScope id scope name = .ok g') :
    g.Readdressed id (some (some name, some scope)) g' := by
  have hrenamed := setScope_eq_ok h
  have hcheck := setScope_eq_ok_iff.1 ⟨_, h⟩
  unfold setScope at h
  simp only [bind_eq_ok, pure_eq_ok] at h
  obtain ⟨-, -, rfl⟩ := h
  obtain ⟨-, hscope, -, hid, -⟩ := checkScope_eq_ok_iff.1 hcheck
  have hdetached : (g.detach id).IsScope scope := (renamed_detach g id).same.isScope.2 hscope
  refine ⟨fun x => ?_, fun s nm => ?_, fun x _ => hrenamed.same.isScope⟩
  · by_cases hx : x = id
    · subst hx
      obtain ⟨n, hn⟩ : ∃ n, ((g.detach x).modify scope (·.mapMembers (·.insert name x))).node? x = some n := by
        obtain ⟨n, hn⟩ := hid
        obtain ⟨m, hm, -⟩ := (renamed_detach g x).same.exists_of_some hn
        exact exists_modify scope _ ⟨m, hm⟩
      rw [if_pos rfl, address?, node?_modify, if_pos rfl, hn]
      rfl
    · rw [if_neg hx, address?, node?_modify_of_ne hx]
      exact (address?_modify fun n => n.address_mapMembers _).trans (address?_detach hx)
  · rw [member?_modify fun n => by rfl, member?_mapMembers (fun m => m.find?_insert name nm id) (.inr hdetached),
      member?_detach]
    simp only [Option.some.injEq, Prod.mk.injEq, eq_comm, and_comm]

/-- A node that has been removed had no members, and is found nowhere. -/
theorem readdressed_of_removeNode {removed : Node} (h : g.removeNode id = .ok (removed, g')) :
    (∀ nm, g.member? id nm = none) ∧ ¬ g'.IsScope id ∧ g.Readdressed id none g' := by
  unfold removeNode at h
  simp only [bind_eq_ok, node_eq_ok_iff] at h
  obtain ⟨n, hn, h⟩ := h
  split at h
  · cases h
  split at h
  · cases h
  next hm =>
  have hempty : ∀ nm, g.member? id nm = none := by
    intro nm
    rw [member?, hn, Option.bind_some]
    cases hmembers : n.members? with
    | none => rfl
    | some members =>
      have hentries : members.entries = [] := by
        simpa [hmembers, Directory.size] using hm
      rw [Option.bind_some, Directory.find?, hentries]
      rfl
  split at h
  · cases h
  next m store hr =>
  simp only [pure_eq_ok, Prod.mk.injEq] at h
  obtain ⟨rfl, rfl⟩ := h
  let g₁ : Graph := Graph.unlinkChild { g.detach id with store := store } m.parents id
  have hgone : g₁.node? id = none := by
    rw [node?_unlinkChild]
    change (if id ∈ m.parents then (store.get? id).map (·.removeChild id) else store.get? id) = none
    rw [Store.get?_remove hr, if_pos rfl]
    split <;> rfl
  have hsame : ∀ x, x ≠ id → (g₁.node? x).map Node.identity = ((g.detach id).node? x).map Node.identity := by
    intro x hx
    rw [node?_unlinkChild]
    change (if x ∈ m.parents then (store.get? x).map (·.removeChild id) else store.get? x).map Node.identity = _
    rw [Store.get?_remove hr, if_neg hx]
    split
    · rw [Option.map_map]
      rfl
    · rfl
  refine ⟨hempty, ?_, fun x => ?_, fun s nm => ?_, fun x hx => ?_⟩
  · rintro ⟨n, members, hn, -⟩
    cases hgone.symm.trans hn
  · change g₁.address? x = _
    split
    · next hx => rw [hx, address?, hgone, Option.map_none]
    · next hx => rw [address?_of_identity (hsame x hx), address?_detach hx]
  · change g₁.member? s nm = _
    rw [if_neg (by simp)]
    by_cases hs : s = id
    · rw [hs, hempty, ite_self, member?, hgone, Option.bind_none]
    · rw [member?_of_identity (hsame s hs), member?_detach]
  · exact (isScope_of_identity (hsame x hx)).trans (renamed_detach g id).same.isScope

/-- A new node leaves the others what they are, where they are found. -/
theorem Added.same_identity {n : Node} (h : g.Added n id g') (hx : x ≠ id) :
    (g'.node? x).map Node.identity = (g.node? x).map Node.identity := by
  rw [h.node?, if_neg hx]
  split
  · rw [Option.map_map]
    exact congrArg (g.node? x).map (funext fun m => m.identity_addChild id)
  · rfl

/-- A new node that is in no scope and has no members changes nothing for the other nodes. -/
theorem Added.readdressed {n : Node} (h : g.Added n id g') (hscope : n.scope? = none)
    (hempty : ∀ nm, n.members?.bind (·.find? nm) = none) :
    (∀ nm, g.member? id nm = none) ∧ g.Readdressed id (some n.address) g' := by
  have hsame : ∀ x, x ≠ id → (g'.node? x).map Node.identity = (g.node? x).map Node.identity := fun _ => h.same_identity
  have hnone : ∀ nm, g.member? id nm = none := fun nm => by rw [member?, h.fresh, Option.bind_none]
  refine ⟨hnone, fun x => ?_, fun s nm => ?_, fun x hx => isScope_of_identity (hsame x hx)⟩
  · split
    · next hx => rw [hx, address?, h.self, Option.map_some]
    · next hx => rw [address?_of_identity (hsame x hx)]
  · rw [if_neg (by simp [Node.address, hscope]), if_neg (by simp [address?, h.fresh])]
    by_cases hs : s = id
    · rw [hs, hnone, member?, h.self, Option.bind_some, hempty]
    · rw [member?_of_identity (hsame s hs)]

/-- Such a node is a member of nothing, and has no members. -/
theorem Added.member?_eq {n : Node} (h : g.Added n id g') (hscope : n.scope? = none)
    (hempty : ∀ nm, n.members?.bind (·.find? nm) = none) (s : NodeId) (nm : String) :
    g'.member? s nm = g.member? s nm := by
  obtain ⟨-, hr⟩ := h.readdressed hscope hempty
  rw [hr.member?_eq, if_neg (by simp [Node.address, hscope]), if_neg (by simp [address?, h.fresh])]

namespace Readdressed

variable {new? : Option (Option String × Option NodeId)}

/-- Members and addresses still agree if the new place of the node is free. -/
theorem member?_iff (hr : g.Readdressed id new? g')
    (hold : ∀ {scope name x}, g.member? scope name = some x ↔ g.address? x = some (some name, some scope))
    (hfree : ∀ scope name other, new? = some (some name, some scope) → g.member? scope name = some other → other = id) :
    g'.member? scope name = some x ↔ g'.address? x = some (some name, some scope) := by
  have hx : g.member? scope name = some x ↔ g.address? x = some (some name, some scope) := hold
  rw [hr.member?_eq, hr.address?_eq]
  by_cases hnew : new? = some (some name, some scope)
  · rw [if_pos hnew]
    split
    · next heq => simp [heq, hnew]
    · next hne =>
      rw [← hx, Option.some.injEq]
      exact ⟨fun he => absurd he.symm hne, fun hm => absurd (hfree scope name x hnew hm) hne⟩
  · rw [if_neg hnew]
    by_cases hne : x = id
    · subst hne
      rw [if_pos rfl]
      refine ⟨fun hm => ?_, fun ha => absurd ha hnew⟩
      split at hm
      · cases hm
      · next hother => exact absurd (hx.1 hm) hother
    · rw [if_neg hne, ← hx]
      split
      · next hid =>
        rw [hold.2 hid, Option.some.injEq]
        exact ⟨fun hm => (by cases hm), fun he => absurd he.symm hne⟩
      · rfl

end Readdressed

/-! ### Nested graphs -/

/-- The way outward from a node stays while all nodes on it stay where they are. -/
theorem Outward.congr {l : List NodeId} (h : g.Outward x l) (hsame : ∀ y ∈ l, g'.address? y = g.address? y) :
    g'.Outward x l := by
  induction h with
  | @last x n hn hs =>
    obtain ⟨m, hm, -, hms⟩ := address?_eq_some_iff.1
      ((hsame x (List.mem_singleton_self x)).trans (address?_eq_some_iff.2 ⟨n, hn, rfl, hs⟩))
    exact .last hm hms
  | @inside x s n l hn hs _ ih =>
    rw [List.forall_mem_cons] at hsame
    obtain ⟨m, hm, -, hms⟩ := address?_eq_some_iff.1 (hsame.1.trans (address?_eq_some_iff.2 ⟨n, hn, rfl, hs⟩))
    exact .inside hm hms (ih hsame.2)

/-- The way outward from a node still ends if it ends from the node that is found elsewhere, or if nothing is in
that. -/
private theorem Readdressed.exists_outward {new? : Option (Option String × Option NodeId)} {l : List NodeId}
    (hr : g.Readdressed id new? g') (hid : (∃ l, g'.Outward id l) ∨ ∀ y, ¬ g.Inside y id) (hl : g.Outward x l)
    (hx : x ≠ id) : ∃ l, g'.Outward x l := by
  have hsame : ∀ {y n}, y ≠ id → g.node? y = some n → ∃ m, g'.node? y = some m ∧ m.scope? = n.scope? := by
    intro y n hy hn
    have ha : g'.address? y = some (n.name?, n.scope?) := by
      rw [hr.address?_eq, if_neg hy]
      exact address?_eq_some_iff.2 ⟨n, hn, rfl, rfl⟩
    obtain ⟨m, hm, -, hs⟩ := address?_eq_some_iff.1 ha
    exact ⟨m, hm, hs⟩
  induction hl with
  | last hn hs =>
    obtain ⟨m, hm, hms⟩ := hsame hx hn
    exact ⟨_, .last hm (hms.trans hs)⟩
  | @inside x s n l hn hs _ ih =>
    obtain ⟨m, hm, hms⟩ := hsame hx hn
    have hrest : ∃ l, g'.Outward s l := by
      by_cases hsid : s = id
      · exact hsid ▸ hid.resolve_right fun hnone => hnone x (hsid ▸ ⟨n, hn, hs⟩)
      · exact ih hsid
    obtain ⟨l', hl'⟩ := hrest
    exact ⟨_, .inside hm (hms.trans hs) hl'⟩

namespace Nested

/-- No node lies in one that has no members. -/
theorem not_inside (h : g.Nested) (hempty : ∀ nm, g.member? id nm = none) (x : NodeId) : ¬ g.Inside x id := by
  rw [h.inside_iff]
  rintro ⟨name, hm⟩
  rw [hempty] at hm
  cases hm

theorem congr (h : g.Nested) (hsame : SameUpTo Node.identity g g') : g'.Nested := by
  have haddress : ∀ x, g'.address? x = g.address? x := fun x => address?_of_identity (hsame x)
  refine ⟨fun {scope name x} => ?_, fun {x name? scope} ha => h.named (haddress x ▸ ha), fun {x m} hm => ?_⟩
  · rw [member?_of_identity (hsame scope), haddress]
    exact h.member?_iff
  · obtain ⟨n, hn, -⟩ := hsame.symm.exists_of_some hm
    obtain ⟨l, hl⟩ := h.exists_outward hn
    exact ⟨l, hl.congr fun y _ => haddress y⟩

/-- A graph stays nested if the new place of a node is free, and one comes to an end from there. -/
private theorem readdressed {new? : Option (Option String × Option NodeId)} (h : g.Nested)
    (hr : g.Readdressed id new? g') (hnamed : ∀ name? scope, new? = some (name?, some scope) → name? ≠ none)
    (hfree : ∀ scope name other, new? = some (some name, some scope) → g.member? scope name = some other → other = id)
    (hid : (∃ l, g'.Outward id l) ∨ new? = none ∧ ∀ y, ¬ g.Inside y id) : g'.Nested := by
  refine ⟨hr.member?_iff h.member?_iff hfree, fun {x name? scope} ha => ?_, fun {x m} hm => ?_⟩
  · rw [hr.address?_eq] at ha
    split at ha
    · exact hnamed _ _ ha
    · exact h.named ha
  · have ha : g'.address? x = some (m.name?, m.scope?) := address?_eq_some_iff.2 ⟨m, hm, rfl, rfl⟩
    rw [hr.address?_eq] at ha
    by_cases hx : x = id
    · subst hx
      refine hid.resolve_right fun hnone => ?_
      rw [if_pos rfl, hnone.1] at ha
      cases ha
    · rw [if_neg hx] at ha
      obtain ⟨n, hn, -⟩ := address?_eq_some_iff.1 ha
      obtain ⟨l, hl⟩ := h.exists_outward hn
      exact hr.exists_outward (hid.imp_right And.right) hl hx

/-- A graph stays nested if a node is added that is in no scope and has no members. -/
theorem added (h : g.Nested) {n : Node} (ha : g.Added n id g') (hscope : n.scope? = none)
    (hempty : ∀ nm, n.members?.bind (·.find? nm) = none) : g'.Nested := by
  obtain ⟨-, hr⟩ := ha.readdressed hscope hempty
  refine h.readdressed hr ?_ ?_ (.inl ⟨_, .last ha.self hscope⟩)
  · rintro name? scope hnew
    simp [Node.address, hscope] at hnew
  · rintro scope name other hnew
    simp [Node.address, hscope] at hnew

/-- Removing a node leaves scopes in order: it has no members. -/
theorem removed (h : g.Nested) {n : Node} (hr : g.removeNode id = .ok (n, g')) : g'.Nested := by
  obtain ⟨hempty, -, hr⟩ := readdressed_of_removeNode hr
  exact h.readdressed hr (by simp) (by simp) (.inr ⟨rfl, h.not_inside hempty⟩)

/-- Moving a node to a scope leaves scopes in order: the scope is not inside of it. -/
theorem placed (h : g.Nested) (hset : g.setScope id scope name = .ok g') : g'.Nested := by
  have hr := readdressed_of_setScope hset
  obtain ⟨-, ⟨m, -, hm, -⟩, hfree, -, houtside⟩ := checkScope_eq_ok_iff.1 (setScope_eq_ok_iff.1 ⟨_, hset⟩)
  -- The way outward from the scope does not come to the node that is placed there.
  obtain ⟨l, hl⟩ := h.exists_outward hm
  have hnot : id ∉ l := by
    have henclosed := hl.enclosesWithin_eq id (Nat.le_succ_of_le hl.length_le_size)
    simpa using houtside.symm.trans henclosed
  have hl' : g'.Outward scope l := hl.congr fun y hy => by
    rw [hr.address?_eq, if_neg (ne_of_mem_of_not_mem hy hnot)]
  obtain ⟨n, hn, -, hs⟩ := address?_eq_some_iff.1 ((hr.address?_eq id).trans (if_pos rfl))
  refine h.readdressed hr ?_ ?_ (.inl ⟨_, .inside hn hs hl'⟩)
  · rintro name? scope hnew
    cases hnew
    simp
  · rintro scope name other hnew hother
    cases hnew
    exact hfree other hother

/-- A node that has been taken out of its scope is in none. -/
private theorem scope?_detach (h : g.Nested) {m : Node} (hm : (g.detach id).node? id = some m) :
    m.scope? = none := by
  unfold detach at hm
  split at hm
  · rw [node?_modify, if_pos rfl] at hm
    obtain ⟨n, -, rfl⟩ := Option.map_eq_some_iff.1 hm
    rfl
  · next hother =>
    cases hs : m.scope? with
    | none => rfl
    | some scope =>
      obtain ⟨name, hname⟩ := Option.ne_none_iff_exists'.1 (h.named (address?_eq_some_iff.2 ⟨m, hm, rfl, hs⟩))
      obtain ⟨⟩ := m
      subst hname hs
      exact absurd hm (hother _ _ _ _ _ _ _ _ _ _)

/-- A node that has been removed comes back without a scope and without members. -/
theorem loose_of_removeNode (h : g.Nested) {n : Node} (hr : g.removeNode id = .ok (n, g')) :
    n.scope? = none ∧ ∀ nm, n.members?.bind (·.find? nm) = none := by
  obtain ⟨hempty, -⟩ := readdressed_of_removeNode hr
  have hn : (g.detach id).node? id = some n := by
    unfold removeNode at hr
    simp only [bind_eq_ok, node_eq_ok_iff] at hr
    obtain ⟨_, -, hr⟩ := hr
    split at hr
    · cases hr
    split at hr
    · cases hr
    split at hr
    · cases hr
    next hremove =>
    simp only [pure_eq_ok, Prod.mk.injEq] at hr
    obtain ⟨rfl, -⟩ := hr
    exact Store.get?_of_remove hremove
  refine ⟨h.scope?_detach hn, fun nm => ?_⟩
  have hmember : (g.detach id).member? id nm = none := by rw [member?_detach, hempty, ite_self]
  rwa [member?, hn, Option.bind_some] at hmember

end Nested

/-! ### Placed graphs -/

namespace Placed

/-- No node lies in one that has no members. -/
theorem not_inside (h : g.Placed root) (hempty : ∀ nm, g.member? id nm = none) (x : NodeId) : ¬ g.Inside x id :=
  h.nested.not_inside hempty x

theorem congr (h : g.Placed root) (hsame : SameUpTo Node.identity g g') : g'.Placed root := by
  have haddress : ∀ x, g'.address? x = g.address? x := fun x => address?_of_identity (hsame x)
  have hinside : g'.Inside = g.Inside := by
    funext x s
    simp only [inside_iff, haddress]
  refine ⟨(isScope_of_identity (hsame root)).2 h.isScope_root, ?_, ?_, ?_, ?_, ?_⟩
  · rw [haddress, h.address?_root]
  · intro scope name x
    rw [member?_of_identity (hsame scope), haddress]
    exact h.member?_iff
  · intro x name? scope? ha
    exact h.named (haddress x ▸ ha)
  · intro x name scope? ha
    exact h.valid (haddress x ▸ ha)
  · intro x scope hx
    unfold Encloses
    rw [hinside] at hx ⊢
    exact h.rooted hx

variable {new? : Option (Option String × Option NodeId)}

/-- What lies around a node that is not in the one found elsewhere stays around it. -/
private theorem encloses_of_not (hr : g.Readdressed id new? g') {outer : NodeId} (he : g.Encloses outer x)
    (hx : ¬ g.Encloses id x) : g'.Encloses outer x := by
  induction he using ReflTransGen.head_induction_on with
  | refl => exact .refl
  | @head x s hxs _ ih =>
    have hne : x ≠ id := fun he => hx (he ▸ .refl)
    refine .head ?_ (ih fun he => hx (.head hxs he))
    rw [inside_iff] at hxs ⊢
    rwa [hr.address?_eq, if_neg hne]

/-- What lies in the root is still there if this is true of the node that is found elsewhere. -/
private theorem encloses_of_encloses (hr : g.Readdressed id new? g') (hid : g'.Encloses root id)
    (he : g.Encloses root x) : g'.Encloses root x := by
  induction he using ReflTransGen.head_induction_on with
  | refl => exact .refl
  | @head x s hxs _ ih =>
    by_cases hx : x = id
    · exact hx ▸ hid
    · refine .head ?_ ih
      rw [inside_iff] at hxs ⊢
      rwa [hr.address?_eq, if_neg hx]

/-- A graph stays placed if the new place of a node is a free one in the root. -/
private theorem readdressed (h : g.Placed root) (hr : g.Readdressed id new? g') (hroot : id ≠ root)
    (hnamed : ∀ name? scope?, new? = some (name?, scope?) → (name? = none ↔ scope? = none))
    (hvalid : ∀ name scope?, new? = some (some name, scope?) → Name.isValid name = true)
    (hfree : ∀ scope name other, new? = some (some name, some scope) → g.member? scope name = some other → other = id)
    (hrooted : ∀ x scope, g'.Inside x scope → g'.Encloses root x) : g'.Placed root := by
  refine ⟨(hr.isScope_iff root hroot.symm).2 h.isScope_root, ?_, ?_, ?_, ?_, hrooted _ _⟩
  · rw [hr.address?_eq, if_neg hroot.symm, h.address?_root]
  · intro scope name x
    exact hr.member?_iff h.member?_iff hfree
  · intro x name? scope? ha
    rw [hr.address?_eq] at ha
    split at ha
    · exact hnamed _ _ ha
    · exact h.named ha
  · intro x name scope? ha
    rw [hr.address?_eq] at ha
    split at ha
    · exact hvalid _ _ ha
    · exact h.valid ha

/-- A graph stays placed if a node without members comes to be in no scope, or to be gone. -/
private theorem loose (h : g.Placed root) (hr : g.Readdressed id new? g') (hroot : id ≠ root)
    (hempty : ∀ nm, g.member? id nm = none) (hnew : new? = none ∨ new? = some (none, none)) :
    g'.Placed root ∧ ∀ x, x ≠ id → g.Encloses root x → g'.Encloses root x := by
  have hkeeps : ∀ x, x ≠ id → g.Encloses root x → g'.Encloses root x := by
    intro x hx he
    refine encloses_of_not hr he fun hid => ?_
    obtain ⟨s, -, hs⟩ | hx' := (ReflTransGen.cases_tail hid).symm
    · exact h.not_inside hempty s hs
    · exact hx hx'.symm
  refine ⟨h.readdressed hr hroot ?_ ?_ ?_ fun x s hx => ?_, hkeeps⟩
  · rintro name? scope? rfl
    rcases hnew with hnew | hnew <;> simp_all
  · rintro name scope? rfl
    rcases hnew with hnew | hnew <;> simp_all
  · rintro scope name other rfl
    rcases hnew with hnew | hnew <;> simp_all
  · obtain ⟨name?, ha⟩ := inside_iff.1 hx
    rw [hr.address?_eq] at ha
    split at ha
    · rcases hnew with rfl | rfl <;> simp at ha
    · next hne => exact hkeeps x hne (h.rooted (inside_iff.2 ⟨name?, ha⟩))

/-- A node can be placed in a scope of the root that is not in the node itself. -/
theorem placed (h : g.Placed root) (hin : g.Encloses root scope) (hset : g.setScope id scope name = .ok g') :
    g'.Placed root ∧ (∀ x, x = id ∨ g.Encloses root x → g'.Encloses root x) ∧ ∀ x, g'.IsScope x ↔ g.IsScope x := by
  have hr := readdressed_of_setScope hset
  obtain ⟨hvalid, hscope, hfree, hid, houtside⟩ := checkScope_eq_ok_iff.1 (setScope_eq_ok_iff.1 ⟨_, hset⟩)
  obtain ⟨n, members, hn, -⟩ := hscope
  have hnot : ¬ g.Encloses id scope := by
    obtain ⟨b, hiff, hb⟩ := h.exists_enclosesWithin hn id
    rw [← hiff]
    cases houtside.symm.trans (hb _ (Nat.lt_succ_self _))
    simp
  have hroot : id ≠ root := fun he => hnot (he ▸ hin)
  have hself : g'.Encloses root id :=
    .head (inside_iff.2 ⟨some name, by rw [hr.address?_eq, if_pos rfl]⟩) (encloses_of_not hr hin hnot)
  have hkeeps : ∀ x, x = id ∨ g.Encloses root x → g'.Encloses root x := by
    rintro x (rfl | he)
    · exact hself
    · exact encloses_of_encloses hr hself he
  refine ⟨h.readdressed hr hroot ?_ ?_ ?_ fun x s hx => ?_, hkeeps, fun x => (setScope_eq_ok hset).same.isScope⟩
  · intro name? scope? hnew
    cases hnew
    simp
  · intro name scope? hnew
    cases hnew
    exact hvalid
  · intro s nm other hnew hother
    cases hnew
    exact hfree other hother
  · obtain ⟨name?, ha⟩ := inside_iff.1 hx
    rw [hr.address?_eq] at ha
    split at ha
    · next hxid => exact hkeeps x (.inl hxid)
    · exact hkeeps x (.inr (h.rooted (inside_iff.2 ⟨name?, ha⟩)))

end Placed

/-- All names and scopes are in order, and all scopes lie in the root. -/
structure ScopeTree (root : NodeId) (g : Graph) : Prop extends Placed root g where
  scopes : ∀ {x}, g.IsScope x → g.Encloses root x

namespace ScopeTree

theorem congr (h : g.ScopeTree root) (hsame : SameUpTo Node.identity g g') : g'.ScopeTree root := by
  have hinside : g'.Inside = g.Inside := by
    funext x s
    simp only [inside_iff, address?_of_identity (hsame x)]
  refine ⟨h.toPlaced.congr hsame, fun {x} hx => ?_⟩
  unfold Encloses
  rw [hinside]
  exact h.scopes ((isScope_of_identity (hsame x)).1 hx)

/-- A new node is in no scope.  It may be a scope itself, which does not lie in the root yet. -/
private theorem placed_of_added {n : Node} (h : g.ScopeTree root) (ha : g.Added n id g')
    (hn : n.address = (none, none)) (hempty : ∀ nm, n.members?.bind (·.find? nm) = none) :
    g'.Placed root ∧ ∀ x, x ≠ id → g'.IsScope x → g'.Encloses root x := by
  obtain ⟨hnone, hr⟩ := ha.readdressed (congrArg Prod.snd hn) hempty
  rw [hn] at hr
  have hroot : id ≠ root := by
    obtain ⟨m, -, hm, -⟩ := h.isScope_root
    exact (ha.ne hm).symm
  obtain ⟨hplaced, hkeeps⟩ := h.toPlaced.loose hr hroot hnone (.inr rfl)
  exact ⟨hplaced, fun x hx hs => hkeeps x hx (h.scopes ((hr.isScope_iff x hx).1 hs))⟩

/-- A new node without a name leaves scopes a tree. -/
theorem added {n : Node} (h : g.ScopeTree root) (ha : g.Added n id g') (hn : n.address = (none, none))
    (hk : n.members? = none) : g'.ScopeTree root := by
  obtain ⟨hplaced, hscopes⟩ := h.placed_of_added ha hn fun nm => by rw [hk, Option.bind_none]
  refine ⟨hplaced, fun {x} hs => hscopes x ?_ hs⟩
  rintro rfl
  obtain ⟨m, members, hm, hmembers⟩ := hs
  rw [ha.self, Option.some.injEq] at hm
  rw [← hm, hk] at hmembers
  cases hmembers

/-- Removing another node than the root leaves scopes a tree. -/
theorem removed {n : Node} (h : g.ScopeTree root) (hroot : id ≠ root) (hr : g.removeNode id = .ok (n, g')) :
    g'.ScopeTree root := by
  obtain ⟨hnone, hgone, hr⟩ := readdressed_of_removeNode hr
  obtain ⟨hplaced, hkeeps⟩ := h.toPlaced.loose hr hroot hnone (.inl rfl)
  refine ⟨hplaced, fun {x} hs => ?_⟩
  have hx : x ≠ id := fun hx => hgone (hx ▸ hs)
  exact hkeeps x hx (h.scopes ((hr.isScope_iff x hx).1 hs))

/-- Moving a node to a scope leaves scopes a tree. -/
theorem placed (h : g.ScopeTree root) (hset : g.setScope id scope name = .ok g') : g'.ScopeTree root := by
  obtain ⟨-, hscope, -⟩ := checkScope_eq_ok_iff.1 (setScope_eq_ok_iff.1 ⟨_, hset⟩)
  obtain ⟨hplaced, hkeeps, hscopes⟩ := h.toPlaced.placed (h.scopes hscope) hset
  exact ⟨hplaced, fun {x} hs => hkeeps x (.inr (h.scopes ((hscopes x).1 hs)))⟩

/-- A new scope is placed in another one. -/
theorem addScope (h : g.ScopeTree root) (hs : g.store.Sound) (hne : scope ≠ g.addScope.1)
    (hset : g.addScope.2.setScope g.addScope.1 scope name = .ok g') : g'.ScopeTree root := by
  obtain ⟨hplaced, hscopes⟩ := h.placed_of_added (addScope_added hs) rfl fun nm => by rfl
  obtain ⟨-, hscope, -⟩ := checkScope_eq_ok_iff.1 (setScope_eq_ok_iff.1 ⟨_, hset⟩)
  obtain ⟨hplaced, hkeeps, hsame⟩ := hplaced.placed (hscopes scope hne hscope) hset
  refine ⟨hplaced, fun {x} hx => hkeeps x ?_⟩
  by_cases hxid : x = g.addScope.1
  · exact .inl hxid
  · exact .inr (hscopes x hxid ((hsame x).1 hx))

/-- A node cannot be placed in a scope exactly if the name is not valid or is held there by another node, or if the
scope is the node or lies in it. -/
theorem exists_setScope_error_iff (h : g.ScopeTree root) {n : Node} (hn : g.node? id = some n)
    (hscope : g.IsScope scope) : (∃ err, g.setScope id scope name = .error err) ↔
      Name.isValid name = false ∨ (∃ other, other ≠ id ∧ g.member? scope name = some other) ∨
        g.Encloses id scope := by
  have ⟨m, _, hm, _⟩ := hscope
  obtain ⟨b, hiff, hb⟩ := h.exists_enclosesWithin hm id
  have hencloses : g.encloses id scope = .ok false ↔ ¬ g.Encloses id scope := by
    rw [← hiff, show g.encloses id scope = .ok b from hb _ (Nat.lt_succ_self _)]
    simp
  have herror : (∃ err, g.setScope id scope name = .error err) ↔ ¬ ∃ g', g.setScope id scope name = .ok g' := by
    cases g.setScope id scope name <;> simp
  rw [herror, setScope_eq_ok_iff, checkScope_eq_ok_iff, hencloses]
  have hid : ∃ n, g.node? id = some n := ⟨n, hn⟩
  simp only [hscope, hid, true_and]
  constructor
  · intro hnot
    by_contra hno
    simp only [not_or, not_exists, not_and, Bool.not_eq_false] at hno
    exact hnot ⟨hno.1, fun other ho => by_contra fun hne => hno.2.1 other hne ho, hno.2.2⟩
  · rintro (hvalid | ⟨other, hne, hother⟩ | hin) ⟨hvalid', hfree, hout⟩
    · rw [hvalid] at hvalid'
      cases hvalid'
    · exact hne (hfree other hother)
    · exact hout hin

end ScopeTree

/-- A scope that is added to an empty graph is all there is. -/
theorem node?_addScope_empty {n : Node} (hn : Graph.empty.addScope.2.node? x = some n) :
    x = Graph.empty.addScope.1 ∧ n = .fresh (.scope .empty) [] none := by
  have hadd : Graph.empty.Added _ _ Graph.empty.addScope.2 := addScope_added Store.sound_empty
  rcases hadd.some_cases hn with hroot | ⟨m, hm, -⟩
  · exact hroot
  · simp [Graph.empty, node?, Store.empty, Store.get?] at hm

/-- In a graph of the root alone everything is in order. -/
theorem scopeTree_addScope_empty : Graph.empty.addScope.2.ScopeTree Graph.empty.addScope.1 := by
  have hadd : Graph.empty.Added _ Graph.empty.addScope.1 Graph.empty.addScope.2 := addScope_added Store.sound_empty
  have haddress : ∀ {x name? scope?}, Graph.empty.addScope.2.address? x = some (name?, scope?) →
      name? = none ∧ scope? = none := by
    intro x name? scope? ha
    obtain ⟨n, hn, rfl, rfl⟩ := address?_eq_some_iff.1 ha
    rw [(node?_addScope_empty hn).2]
    exact ⟨rfl, rfl⟩
  refine ⟨⟨⟨_, _, hadd.self, rfl⟩, address?_eq_some_iff.2 ⟨_, hadd.self, rfl, rfl⟩, ?_, ?_, ?_, ?_⟩, ?_⟩
  · intro scope name x
    constructor
    · intro hm
      obtain ⟨n, hn, hm⟩ := Option.bind_eq_some_iff.1 hm
      rw [(node?_addScope_empty hn).2] at hm
      cases hm
    · exact fun ha => absurd (haddress ha).1 (by simp)
  · intro x name? scope? ha
    simp [haddress ha]
  · exact fun ha => absurd (haddress ha).1 (by simp)
  · intro x scope hx
    obtain ⟨name?, ha⟩ := inside_iff.1 hx
    exact absurd (haddress ha).2 (by simp)
  · rintro x ⟨n, members, hn, -⟩
    rw [(node?_addScope_empty hn).1]
    exact .refl

end Graph

end Dataflow
