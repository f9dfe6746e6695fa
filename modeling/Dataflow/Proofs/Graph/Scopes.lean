import Dataflow.Graph.Scope
import Dataflow.Proofs.Graph.Frame
import Dataflow.Proofs.Name
import Mathlib.Data.List.Induction
import Mathlib.Logic.Relation

/-!
# The tree of scopes

Where a node is found is stored twice, as its own name and scope (`Graph.address?`) and as an entry of the scope
(`Graph.member?`).  In a graph in which the two agree and in which every scope around a node lies in the root
(`Graph.Placed`):

* `Placed.exists_enclosesWithin`: the search outward decides whether one node is around another;
* `Placed.lookup_pathOf`, `Placed.pathOf_of_lookup`: a node is found under its path and under no other.

The functions that go outward are bounded by the number of nodes.  The nodes that they come to are all different, so
that no larger bound gives another answer (`Outward.length_le_size`).
-/

namespace Dataflow

open Relation

/-- What a node is and where it is found: its kind, its name and its scope. -/
def Node.identity (n : Node) : Node :=
  { n with
    parents := [], children := [], depth := 0, value? := none, provoked := false, staged? := none, changedIn := 0 }

/-- The name and the scope of a node. -/
def Node.address (n : Node) : Option String × Option NodeId := (n.name?, n.scope?)

namespace Graph

/-- The name and the scope that a node has, if it exists. -/
def address? (g : Graph) (x : NodeId) : Option (Option String × Option NodeId) := (g.node? x).map Node.address

/-- The name that a node has, if it exists and has one. -/
def nameOf? (g : Graph) (x : NodeId) : Option String := (g.node? x).bind Node.name?

/-- The member of a scope under a name. -/
def member? (g : Graph) (scope : NodeId) (name : String) : Option NodeId :=
  (g.node? scope).bind fun n => n.members?.bind (·.find? name)

/-- The node exists and can have members. -/
def IsScope (g : Graph) (x : NodeId) : Prop := ∃ n members, g.node? x = some n ∧ n.members? = some members

/-- The one node is in the other, a scope. -/
def Inside (g : Graph) (x scope : NodeId) : Prop := ∃ n, g.node? x = some n ∧ n.scope? = some scope

/-- The one node is the other, or one of the scopes around it. -/
def Encloses (g : Graph) (outer inner : NodeId) : Prop := ReflTransGen g.Inside inner outer

/-- All names and scopes are in order: members and addresses agree, names are valid, and every node that has a scope
lies in the root, which has none. -/
structure Placed (root : NodeId) (g : Graph) : Prop where
  isScope_root : g.IsScope root
  address?_root : g.address? root = some (none, none)
  member?_iff : ∀ {scope name x}, g.member? scope name = some x ↔ g.address? x = some (some name, some scope)
  named : ∀ {x name? scope?}, g.address? x = some (name?, scope?) → (name? = none ↔ scope? = none)
  valid : ∀ {x name scope?}, g.address? x = some (some name, scope?) → Name.isValid name = true
  rooted : ∀ {x scope}, g.Inside x scope → g.Encloses root x

variable {g : Graph} {root x y s : NodeId} {name : String}

theorem inside_iff : g.Inside x s ↔ ∃ name?, g.address? x = some (name?, some s) := by
  unfold Inside address? Node.address
  simp only [Option.map_eq_some_iff, Prod.mk.injEq]
  constructor
  · rintro ⟨n, hn, hs⟩
    exact ⟨n.name?, n, hn, rfl, hs⟩
  · rintro ⟨-, n, hn, -, hs⟩
    exact ⟨n, hn, hs⟩

/-- A node is in one scope at most. -/
theorem Inside.unique {s' : NodeId} (h : g.Inside x s) (h' : g.Inside x s') : s = s' := by
  obtain ⟨n, hn, hs⟩ := h
  obtain ⟨n', hn', hs'⟩ := h'
  rw [hn, Option.some.injEq] at hn'
  rw [← hn', hs, Option.some.injEq] at hs'
  exact hs'

/-! ### Going outward -/

/-- The ids that one comes to from a node outward, up to a node that is in no scope. -/
inductive Outward (g : Graph) : NodeId → List NodeId → Prop
  | last {x : NodeId} {n : Node} : g.node? x = some n → n.scope? = none → Outward g x [x]
  | inside {x s : NodeId} {n : Node} {l : List NodeId} :
      g.node? x = some n → n.scope? = some s → Outward g s l → Outward g x (x :: l)

namespace Outward

variable {l l' : List NodeId}

theorem unique (h : g.Outward x l) (h' : g.Outward x l') : l = l' := by
  induction h generalizing l' with
  | last hn hs =>
    cases h' with
    | last => rfl
    | inside hn' hs' =>
      rw [hn, Option.some.injEq] at hn'
      rw [← hn', hs] at hs'
      cases hs'
  | inside hn hs _ ih =>
    cases h' with
    | last hn' hs' =>
      rw [hn, Option.some.injEq] at hn'
      rw [← hn', hs] at hs'
      cases hs'
    | inside hn' hs' hl' =>
      rw [hn, Option.some.injEq] at hn'
      rw [← hn', hs, Option.some.injEq] at hs'
      subst hs'
      rw [ih hl']

theorem exists_of_mem (h : g.Outward x l) (hy : y ∈ l) : ∃ n, g.node? y = some n := by
  induction h with
  | last hn _ => exact ⟨_, List.mem_singleton.1 hy ▸ hn⟩
  | inside hn _ _ ih =>
    rcases List.mem_cons.1 hy with rfl | hy
    · exact ⟨_, hn⟩
    · exact ih hy

/-- What lies around a node that one comes to is the end of what lies around the first. -/
theorem suffix (h : g.Outward x l) (hy : y ∈ l) : ∃ l', g.Outward y l' ∧ l' <:+ l := by
  induction h with
  | last hn hs =>
    rw [List.mem_singleton.1 hy]
    exact ⟨_, .last hn hs, List.suffix_rfl⟩
  | inside hn hs hl ih =>
    rcases List.mem_cons.1 hy with rfl | hy
    · exact ⟨_, .inside hn hs hl, List.suffix_rfl⟩
    · obtain ⟨l', hl', hsuffix⟩ := ih hy
      exact ⟨l', hl', hsuffix.trans (List.suffix_cons _ _)⟩

/-- One does not come to a node twice. -/
theorem nodup (h : g.Outward x l) : l.Nodup := by
  induction h with
  | last => exact List.nodup_singleton _
  | inside hn hs hl ih =>
    refine List.nodup_cons.2 ⟨fun hx => ?_, ih⟩
    obtain ⟨l', hl', hsuffix⟩ := hl.suffix hx
    have hlen := hsuffix.length_le
    rw [← Outward.unique (.inside hn hs hl) hl', List.length_cons] at hlen
    omega

/-- A way outward is no longer than the graph has nodes. -/
theorem length_le_size (h : g.Outward x l) : l.length ≤ g.size :=
  Store.length_le_size h.nodup fun _ hy => h.exists_of_mem hy

theorem mem_iff (h : g.Outward x l) : y ∈ l ↔ g.Encloses y x := by
  induction h with
  | @last x n hn hs =>
    rw [List.mem_singleton]
    constructor
    · rintro rfl
      exact .refl
    · intro he
      rcases he.cases_head with rfl | ⟨s, ⟨m, hm, hms⟩, -⟩
      · rfl
      · rw [hn, Option.some.injEq] at hm
        rw [← hm, hs] at hms
        cases hms
  | @inside x s n l hn hs _ ih =>
    rw [List.mem_cons, ih]
    constructor
    · rintro (rfl | he)
      · exact .refl
      · exact .head ⟨n, hn, hs⟩ he
    · intro he
      rcases he.cases_head with rfl | ⟨s', hs', he⟩
      · exact .inl rfl
      · rw [Inside.unique hs' ⟨n, hn, hs⟩] at he
        exact .inr he

/-- With a bound that is large enough, the search outward comes to all that lies around a node. -/
theorem enclosesWithin_eq (h : g.Outward x l) (outer : NodeId) {fuel : Nat} (hf : l.length ≤ fuel) :
    g.enclosesWithin outer fuel x = .ok (decide (outer ∈ l)) := by
  induction h generalizing fuel with
  | @last x n hn hs =>
    obtain ⟨fuel, rfl⟩ : ∃ k, fuel = k + 1 := ⟨fuel - 1, by simp only [List.length_singleton] at hf; omega⟩
    unfold enclosesWithin
    rw [node_eq_ok_iff.2 hn]
    by_cases hx : x = outer
    · simp [hx]
    · simp [hx, Ne.symm hx, bind, Except.bind, hs, pure, Except.pure]
  | @inside x s n l hn hs _ ih =>
    rw [List.length_cons] at hf
    obtain ⟨fuel, rfl⟩ : ∃ k, fuel = k + 1 := ⟨fuel - 1, by omega⟩
    unfold enclosesWithin
    rw [node_eq_ok_iff.2 hn]
    by_cases hx : x = outer
    · simp [hx]
    · simp only [hx, if_false, bind, Except.bind, hs, List.mem_cons, Ne.symm hx, false_or]
      exact ih (by omega)

/-- With a bound that is large enough, the names of all that lies around a node are collected. -/
theorem namesWithin_eq (h : g.Outward x l) {fuel : Nat} (hf : l.length ≤ fuel) :
    g.namesWithin fuel x = .ok (l.reverse.filterMap g.nameOf?) := by
  induction h generalizing fuel with
  | @last x n hn hs =>
    obtain ⟨fuel, rfl⟩ : ∃ k, fuel = k + 1 := ⟨fuel - 1, by simp only [List.length_singleton] at hf; omega⟩
    unfold namesWithin
    rw [node_eq_ok_iff.2 hn]
    cases hname : n.name? <;> simp [bind, Except.bind, pure, Except.pure, hs, nameOf?, hn, hname]
  | @inside x s n l hn hs _ ih =>
    rw [List.length_cons] at hf
    obtain ⟨fuel, rfl⟩ : ∃ k, fuel = k + 1 := ⟨fuel - 1, by omega⟩
    have hrest := @ih fuel (by omega)
    unfold namesWithin
    rw [node_eq_ok_iff.2 hn]
    cases hname : n.name? <;> simp [bind, Except.bind, pure, Except.pure, hs, nameOf?, hn, hname, hrest]

end Outward

/-- Looking below a scope, one name after the other. -/
private theorem descend_concat_eq_ok {path : String} {names : List String} :
    g.descend path x (names ++ [name]) = .ok y ↔ ∃ s, g.descend path x names = .ok s ∧ g.member? s name = some y := by
  induction names generalizing x with
  | nil =>
    simp only [List.nil_append, descend, bind_eq_ok, node_eq_ok_iff, Except.ok.injEq, exists_eq_left']
    constructor
    · rintro ⟨n, hn, h⟩
      split at h
      · cases h
      · next m hm =>
        cases h
        rw [member?, hn, Option.bind_some, hm]
    · intro h
      obtain ⟨n, hn, hm⟩ := Option.bind_eq_some_iff.1 h
      refine ⟨n, hn, ?_⟩
      rw [hm]
  | cons first names ih =>
    simp only [List.cons_append, descend, bind_eq_ok, node_eq_ok_iff]
    constructor
    · rintro ⟨n, hn, h⟩
      split at h
      · cases h
      · next m hm =>
        obtain ⟨s, hs, hy⟩ := ih.1 h
        refine ⟨s, ⟨n, hn, ?_⟩, hy⟩
        rw [hm]
        exact hs
    · rintro ⟨s, ⟨n, hn, h⟩, hy⟩
      split at h
      · cases h
      · next m hm =>
        refine ⟨n, hn, ?_⟩
        rw [hm]
        exact ih.2 ⟨s, h, hy⟩

theorem address?_eq_some_iff {name? : Option String} {scope? : Option NodeId} :
    g.address? x = some (name?, scope?) ↔ ∃ n, g.node? x = some n ∧ n.name? = name? ∧ n.scope? = scope? := by
  simp only [address?, Node.address, Option.map_eq_some_iff, Prod.mk.injEq]

/-- Members and addresses agree, and going outward from any node one comes to an end. -/
structure Nested (g : Graph) : Prop where
  member?_iff : ∀ {scope name x}, g.member? scope name = some x ↔ g.address? x = some (some name, some scope)
  named : ∀ {x name? scope}, g.address? x = some (name?, some scope) → name? ≠ none
  exists_outward : ∀ {x n}, g.node? x = some n → ∃ l, g.Outward x l

namespace Nested

/-- No node is around itself. -/
theorem acyclic (h : g.Nested) (x : NodeId) : ¬ TransGen g.Inside x x := by
  intro hx
  obtain ⟨s, hxs, hs⟩ := TransGen.head'_iff.1 hx
  obtain ⟨n, hn, hscope⟩ := hxs
  obtain ⟨l, hl⟩ := h.exists_outward hn
  cases hl with
  | last hm hnone =>
    rw [hn, Option.some.injEq] at hm
    rw [← hm, hscope] at hnone
    cases hnone
  | inside hm hs' hl =>
    have hxl : x ∈ _ := hl.mem_iff.2 (Inside.unique ⟨n, hn, hscope⟩ ⟨_, hm, hs'⟩ ▸ hs)
    exact (List.nodup_cons.1 (Outward.nodup (.inside hm hs' hl))).1 hxl

/-- The search outward decides whether one node is around another, and no larger bound gives another answer. -/
theorem exists_enclosesWithin (h : g.Nested) {n : Node} (hn : g.node? x = some n) (outer : NodeId) :
    ∃ b, (b = true ↔ g.Encloses outer x) ∧ ∀ k, g.size < k → g.enclosesWithin outer k x = .ok b := by
  obtain ⟨l, hl⟩ := h.exists_outward hn
  refine ⟨decide (outer ∈ l), by rw [decide_eq_true_iff, hl.mem_iff], fun k hk => ?_⟩
  exact hl.enclosesWithin_eq outer (Nat.le_trans hl.length_le_size (Nat.le_of_lt hk))

/-- A node is inside a scope exactly if it is a member of the scope. -/
theorem inside_iff (h : g.Nested) : g.Inside x s ↔ ∃ name, g.member? s name = some x := by
  rw [Graph.inside_iff]
  constructor
  · rintro ⟨name?, ha⟩
    obtain ⟨name, rfl⟩ := Option.ne_none_iff_exists'.1 (h.named ha)
    exact ⟨name, h.member?_iff.2 ha⟩
  · rintro ⟨name, hm⟩
    exact ⟨_, h.member?_iff.1 hm⟩

end Nested

namespace Placed

variable {l : List NodeId}

/-- From every node one comes to an end. -/
theorem exists_outward (h : g.Placed root) {n : Node} (hn : g.node? x = some n) : ∃ l, g.Outward x l := by
  have hroot : ∃ l, g.Outward root l := by
    obtain ⟨m, hm, -, hs⟩ := address?_eq_some_iff.1 h.address?_root
    exact ⟨_, .last hm hs⟩
  cases hs : n.scope? with
  | none => exact ⟨_, .last hn hs⟩
  | some s =>
    have he : g.Encloses root x := h.rooted ⟨n, hn, hs⟩
    clear hn hs
    induction he using ReflTransGen.head_induction_on with
    | refl => exact hroot
    | head hx _ ih =>
      obtain ⟨m, hm, hs⟩ := hx
      obtain ⟨l, hl⟩ := ih
      exact ⟨_, .inside hm hs hl⟩

/-- Where named nodes are placed below a root, scopes are in order. -/
theorem nested (h : g.Placed root) : g.Nested := by
  refine ⟨h.member?_iff, fun ha hnone => ?_, h.exists_outward⟩
  exact absurd ((h.named ha).1 hnone) (by simp)

/-- No node is around itself. -/
theorem acyclic (h : g.Placed root) (x : NodeId) : ¬ TransGen g.Inside x x := h.nested.acyclic x

/-- The search outward decides whether one node is around another, and no larger bound gives another answer. -/
theorem exists_enclosesWithin (h : g.Placed root) {n : Node} (hn : g.node? x = some n) (outer : NodeId) :
    ∃ b, (b = true ↔ g.Encloses outer x) ∧ ∀ k, g.size < k → g.enclosesWithin outer k x = .ok b :=
  h.nested.exists_enclosesWithin hn outer

/-! ### Paths -/

/-- Going inward by the names collected on the way outward leads back. -/
private theorem descend_of_outward (h : g.Placed root) (path : String) (hl : g.Outward x l)
    (he : g.Encloses root x) : g.descend path root (l.reverse.filterMap g.nameOf?) = .ok x := by
  induction hl with
  | @last x n hn hs =>
    rcases he.cases_head with rfl | ⟨s, ⟨m, hm, hms⟩, -⟩
    · obtain ⟨m, hm, hname, -⟩ := address?_eq_some_iff.1 h.address?_root
      have hnone : g.nameOf? x = none := by rw [nameOf?, hm, Option.bind_some, hname]
      rw [List.reverse_singleton, List.filterMap_cons_none hnone, List.filterMap_nil, descend]
    · rw [hn, Option.some.injEq] at hm
      rw [← hm, hs] at hms
      cases hms
  | @inside x s n l hn hs hl ih =>
    have haddress : g.address? x = some (n.name?, some s) := address?_eq_some_iff.2 ⟨n, hn, rfl, hs⟩
    rcases he.cases_head with rfl | ⟨s', hs', he⟩
    · rw [h.address?_root, Option.some.injEq, Prod.mk.injEq] at haddress
      exact absurd haddress.2 (by simp)
    rw [Inside.unique hs' ⟨n, hn, hs⟩] at he
    cases hname : n.name? with
    | none => exact absurd ((h.named haddress).1 hname) (by simp)
    | some name =>
      have hsome : g.nameOf? x = some name := by rw [nameOf?, hn, Option.bind_some, hname]
      rw [List.reverse_cons, List.filterMap_append, List.filterMap_cons_some hsome, List.filterMap_nil]
      refine descend_concat_eq_ok.2 ⟨s, ih he, h.member?_iff.2 ?_⟩
      rw [haddress, hname]

/-- The names by which one has come to a node are those collected on the way back. -/
private theorem outward_of_descend (h : g.Placed root) {path : String} {names : List String}
    (hd : g.descend path root names = .ok x) : ∃ l, g.Outward x l ∧ l.reverse.filterMap g.nameOf? = names := by
  induction names using List.reverseRecOn generalizing x with
  | nil =>
    cases hd
    obtain ⟨m, hm, hname, hs⟩ := address?_eq_some_iff.1 h.address?_root
    refine ⟨_, .last hm hs, ?_⟩
    have hnone : g.nameOf? root = none := by rw [nameOf?, hm, Option.bind_some, hname]
    rw [List.reverse_singleton, List.filterMap_cons_none hnone, List.filterMap_nil]
  | append_singleton names name ih =>
    obtain ⟨s, hs, hx⟩ := descend_concat_eq_ok.1 hd
    obtain ⟨l, hl, hnames⟩ := ih hs
    obtain ⟨n, hn, hname, hscope⟩ := address?_eq_some_iff.1 (h.member?_iff.1 hx)
    refine ⟨_, .inside hn hscope hl, ?_⟩
    have hsome : g.nameOf? x = some name := by rw [nameOf?, hn, Option.bind_some, hname]
    rw [List.reverse_cons, List.filterMap_append, List.filterMap_cons_some hsome, List.filterMap_nil, hnames]

/-- No larger bound leads to more names. -/
theorem exists_namesWithin (h : g.Placed root) {n : Node} (hn : g.node? x = some n) :
    ∃ names, ∀ k, g.size < k → g.namesWithin k x = .ok names := by
  obtain ⟨l, hl⟩ := h.exists_outward hn
  exact ⟨_, fun k hk => hl.namesWithin_eq (Nat.le_trans hl.length_le_size (Nat.le_of_lt hk))⟩

/-- What is found under a path has that path. -/
theorem pathOf_of_lookup (h : g.Placed root) {path : String} (hx : g.lookup root path = .ok x) :
    g.pathOf x = .ok (some path) := by
  unfold lookup at hx
  split at hx
  · cases hx
  next names hnames =>
  obtain ⟨hne, -, rfl⟩ := Name.ofPath?_eq_some_iff.1 hnames
  obtain ⟨l, hl, hcollected⟩ := h.outward_of_descend hx
  unfold pathOf
  rw [hl.namesWithin_eq (Nat.le_succ_of_le hl.length_le_size), hcollected]
  simp [bind, Except.bind, pure, Except.pure, hne]

/-- A node with a name has a path, under which it is found. -/
theorem lookup_pathOf (h : g.Placed root) {n : Node} (hn : g.node? x = some n) (hname : n.name? ≠ none) :
    ∃ path, g.pathOf x = .ok (some path) ∧ g.lookup root path = .ok x := by
  obtain ⟨l, hl⟩ := h.exists_outward hn
  have hscope : ∃ s, n.scope? = some s := by
    rw [← Option.ne_none_iff_exists']
    exact fun hs => hname ((h.named (address?_eq_some_iff.2 ⟨n, hn, rfl, rfl⟩)).2 hs)
  obtain ⟨s, hs⟩ := hscope
  let names := l.reverse.filterMap g.nameOf?
  have hne : names ≠ [] := by
    obtain ⟨name, hname⟩ := Option.ne_none_iff_exists'.1 hname
    have hmem : name ∈ names :=
      List.mem_filterMap.2 ⟨x, List.mem_reverse.2 (hl.mem_iff.2 .refl), by rw [nameOf?, hn, Option.bind_some, hname]⟩
    exact List.ne_nil_of_mem hmem
  have hvalid : ∀ name ∈ names, Name.isValid name = true := by
    intro name hmem
    obtain ⟨y, -, hy⟩ := List.mem_filterMap.1 hmem
    obtain ⟨m, hm, hmname⟩ := Option.bind_eq_some_iff.1 hy
    exact h.valid (address?_eq_some_iff.2 ⟨m, hm, hmname, rfl⟩)
  have hread : Name.ofPath? (Name.toPath names) = some names := Name.ofPath?_eq_some_iff.2 ⟨hne, hvalid, rfl⟩
  refine ⟨Name.toPath names, ?_, ?_⟩
  · unfold pathOf
    rw [hl.namesWithin_eq (Nat.le_succ_of_le hl.length_le_size)]
    simp only [bind, Except.bind, pure, Except.pure]
    rw [if_neg hne]
  · unfold lookup
    rw [hread]
    exact h.descend_of_outward _ hl (h.rooted ⟨n, hn, hs⟩)

end Placed

end Graph

end Dataflow
