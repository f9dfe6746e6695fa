import Dataflow.Proofs.StandardLibrary

/-!
# Types in a graph

A node is typed if what it holds and what is staged for it is of its type, and if it is wired as its rule asks, should
it be a formula (`Node.TypedIn`).  A formula with a pure rule holds a value only if its parents do.  When every node is
typed (`Graph.Typed`), so is every node afterwards:

* `Typed.congr`: changes that no rule can see;
* `Typed.added`, `Typed.removed`: creating and removing nodes;
* `Typed.settled`, `Typed.propagates`: evaluation.
-/

namespace Dataflow

namespace Graph

/-- The node is there and is of the type. -/
def HasType (g : Graph) (x : NodeId) (t : DataType) : Prop := ∃ n, g.node? x = some n ∧ n.dataType? = some t

/-- The node is there and holds a value. -/
def HasValue (g : Graph) (x : NodeId) : Prop := ∃ n, g.node? x = some n ∧ n.value?.isSome = true

end Graph

open Dataflow.Graph

/-- What is known of a node by the types. -/
structure Node.TypedIn (g : Graph) (n : Node) : Prop where
  value : ∀ v, n.value? = some v → n.dataType? = some v.dataType
  staged : ∀ v t, n.staged? = some (.value v) → n.dataType? = some t → v.dataType = t
  wired : ∀ t rule, n.kind = .formula t rule →
    ∃ params, rule.Wired params t ∧ List.Forall₂ g.HasType n.parents params
  filled : ∀ t rule, n.kind = .formula t rule → rule.IsPure → n.value?.isSome = true → ∀ p ∈ n.parents, g.HasValue p
  group : ∀ group, n.kind = .functionGroup group → ∃ maxArgs, group ∈ StandardLibrary.groups maxArgs

/-- All nodes are typed. -/
def Graph.Typed (g : Graph) : Prop := ∀ x n, g.node? x = some n → n.TypedIn g

private theorem forall₂_imp_mem {α β : Type} {R S : α → β → Prop} {l : List α} {l' : List β} (h : List.Forall₂ R l l')
    (hrs : ∀ a ∈ l, ∀ b, R a b → S a b) : List.Forall₂ S l l' := by
  induction h with
  | nil => exact .nil
  | cons hr _ ih =>
    rw [List.forall_mem_cons] at hrs
    exact .cons (hrs.1 _ hr) (ih hrs.2)

namespace Node

variable {g g' : Graph} {n m : Node} {t : DataType}

private theorem dataType?_of_content (h : n.content = m.content) : n.dataType? = m.dataType? := by
  unfold content at h
  simp only [Prod.mk.injEq] at h
  obtain ⟨hk, -, hv⟩ := h
  unfold dataType?
  rw [hv]
  cases hn : n.kind <;> cases hm : m.kind <;> rw [hn, hm] at hk <;> simp_all [NodeKind.emptied]

/-- The content of a node is typed in another graph in which its parents have the same types. -/
theorem TypedIn.mono (h : n.TypedIn g) (hc : m.content = n.content)
    (hs : ∀ v t, m.staged? = some (.value v) → m.dataType? = some t → v.dataType = t)
    (htype : ∀ p ∈ n.parents, ∀ t, g.HasType p t → g'.HasType p t)
    (hvalue : ∀ p ∈ n.parents, g.HasValue p → g'.HasValue p) : m.TypedIn g' := by
  have hdata := dataType?_of_content hc
  unfold content at hc
  simp only [Prod.mk.injEq] at hc
  obtain ⟨hk, hp, hv⟩ := hc
  have hkind : ∀ {k : NodeKind}, m.kind = k → k.emptied = k → (∀ members, k ≠ .scope members) → n.kind = k := by
    intro k hm he hscope
    rw [hm, he] at hk
    cases hn : n.kind <;> rw [hn] at hk <;> simp_all [NodeKind.emptied]
  refine ⟨fun v hmv => ?_, hs, fun t rule hm => ?_, fun t rule hm hpure hmv => ?_, fun group hm => ?_⟩
  · rw [hdata]
    exact h.value v (hv ▸ hmv)
  · obtain ⟨params, hw, htypes⟩ := h.wired t rule (hkind hm rfl (by simp))
    refine ⟨params, hw, ?_⟩
    rw [hp]
    exact forall₂_imp_mem htypes htype
  · rw [hp]
    exact fun p hmem => hvalue p hmem (h.filled t rule (hkind hm rfl (by simp)) hpure (hv ▸ hmv) p hmem)
  · exact h.group group (hkind hm rfl (by simp))

/-- A new node is typed if its value is of its type, should it have one, and if it is wired as its rule asks. -/
theorem typedIn_fresh {kind : NodeKind} {parents : List NodeId} {value? : Option Value}
    (hv : ∀ v, value? = some v → (fresh kind parents value?).dataType? = some v.dataType)
    (hw : ∀ t rule, kind = .formula t rule →
      value? = none ∧ ∃ params, rule.Wired params t ∧ List.Forall₂ g.HasType parents params)
    (hg : ∀ group, kind = .functionGroup group → ∃ maxArgs, group ∈ StandardLibrary.groups maxArgs) :
    (fresh kind parents value?).TypedIn g := by
  refine ⟨hv, fun _ _ hst => (by cases hst), fun t rule hk => (hw t rule hk).2, fun t rule hk _ hsome => ?_, hg⟩
  have hnone : (fresh kind parents value?).value? = none := (hw t rule hk).1
  rw [hnone] at hsome
  cases hsome

/-- What a rule sees of a node is of its type. -/
theorem TypedIn.toArg_fits (h : n.TypedIn g) (ht : n.dataType? = some t) (pass : Nat) : (n.toArg pass).Fits t := by
  have htrigger : n.kind.isTrigger = true → t = .trigger := by
    intro hk
    unfold dataType? at ht
    cases hn : n.kind <;> simp_all [NodeKind.isTrigger]
  refine ⟨htrigger, fun v hv => ?_⟩
  unfold toArg at hv
  simp only at hv
  split at hv
  · cases hv
  · have hvt := h.value v hv
    rw [ht, Option.some.injEq] at hvt
    exact hvt.symm

end Node

namespace Graph

variable {g g' : Graph} {id : NodeId} {n : Node} {pass : Nat} {parents : List NodeId} {args : List Arg}
  {params : List DataType}

/-! ### Arguments -/

/-- What a rule sees of typed parents is of their types. -/
theorem Typed.args_fit (h : g.Typed) (ha : g.args? pass parents = some args)
    (ht : List.Forall₂ g.HasType parents params) : List.Forall₂ Arg.Fits args params := by
  induction ht generalizing args with
  | nil =>
    cases ha
    exact .nil
  | cons hp _ ih =>
    obtain ⟨n, rest, hn, hrest, rfl⟩ := args?_cons_eq_some.1 ha
    obtain ⟨m, hm, hd⟩ := hp
    rw [hn, Option.some.injEq] at hm
    exact .cons ((h _ n hn).toArg_fits (hm ▸ hd) pass) (ih hrest)

/-- Where no argument lacks a value, and all are of types of values, all parents hold values. -/
theorem hasValue_of_holds (ha : g.args? pass parents = some args) (hh : List.Forall₂ Arg.Holds args params) :
    ∀ p ∈ parents, g.HasValue p := by
  induction parents generalizing args params with
  | nil => exact fun p hp => absurd hp List.not_mem_nil
  | cons p parents ih =>
    obtain ⟨n, rest, hn, hrest, rfl⟩ := args?_cons_eq_some.1 ha
    obtain _ | ⟨⟨v, hv, -⟩, hh⟩ := hh
    refine List.forall_mem_cons.2 ⟨⟨n, hn, ?_⟩, ih hrest hh⟩
    unfold Node.toArg at hv
    simp only at hv
    split at hv
    · cases hv
    · rw [hv]
      rfl

/-- Where all parents hold values, no argument lacks one. -/
theorem not_missing_of_hasValue (ha : g.args? pass parents = some args) (hv : ∀ p ∈ parents, g.HasValue p) :
    args.any Arg.isMissing = false := by
  induction parents generalizing args with
  | nil =>
    cases ha
    rfl
  | cons p parents ih =>
    obtain ⟨n, rest, hn, hrest, rfl⟩ := args?_cons_eq_some.1 ha
    rw [List.forall_mem_cons] at hv
    obtain ⟨⟨m, hm, hvalue⟩, hothers⟩ := hv
    rw [hn, Option.some.injEq] at hm
    obtain ⟨v, hv⟩ := Option.isSome_iff_exists.1 hvalue
    rw [List.any_cons, ih hrest hothers, Bool.or_false]
    unfold Arg.isMissing Node.toArg
    rw [hm, hv]
    cases m.kind.isTrigger <;> rfl

/-! ### Changes of the graph -/

theorem HasType.congr (hsame : SameUpTo Node.content g g') {p : NodeId} {t : DataType} (h : g.HasType p t) :
    g'.HasType p t := by
  obtain ⟨n, hn, ht⟩ := h
  obtain ⟨m, hm, he⟩ := hsame.exists_of_some hn
  exact ⟨m, hm, (Node.dataType?_of_content he) ▸ ht⟩

theorem HasValue.congr (hsame : SameUpTo Node.content g g') {p : NodeId} (h : g.HasValue p) : g'.HasValue p := by
  obtain ⟨n, hn, hv⟩ := h
  obtain ⟨m, hm, he⟩ := hsame.exists_of_some hn
  have hvalue : m.value? = n.value? := congrArg (fun c => c.2.2) he
  exact ⟨m, hm, hvalue ▸ hv⟩

/-- Nodes stay typed while their contents stay the same and what is staged is of their types. -/
theorem Typed.congr (h : g.Typed) (hsame : SameUpTo Node.content g g')
    (hs : ∀ x m v t, g'.node? x = some m → m.staged? = some (.value v) → m.dataType? = some t → v.dataType = t) :
    g'.Typed := by
  intro x m hm
  obtain ⟨n, hn, he⟩ := hsame.symm.exists_of_some hm
  exact (h x n hn).mono he.symm (fun v t => hs x m v t hm) (fun _ _ _ ht => ht.congr hsame)
    fun _ _ hv => hv.congr hsame

/-- Changes of names, depths and links to children leave nodes typed. -/
theorem Typed.congr_held (h : g.Typed) (hsame : SameUpTo (fun n => (n.content, n.staged?)) g g') : g'.Typed := by
  refine h.congr (hsame.weaken fun _ _ he => congrArg Prod.fst he) fun x m v t hm hst ht => ?_
  obtain ⟨n, hn, he⟩ := hsame.symm.exists_of_some hm
  rw [Prod.mk.injEq] at he
  exact (h x n hn).staged v t (he.2 ▸ hst) (Node.dataType?_of_content he.1 ▸ ht)

theorem HasType.added (ha : g.Added n id g') {p : NodeId} {t : DataType} (h : g.HasType p t) : g'.HasType p t := by
  obtain ⟨m, hm, ht⟩ := h
  refine ⟨_, ha.of_some hm, ?_⟩
  rw [← ht]
  refine Node.dataType?_of_content ?_
  split <;> simp

theorem HasValue.added (ha : g.Added n id g') {p : NodeId} (h : g.HasValue p) : g'.HasValue p := by
  obtain ⟨m, hm, hv⟩ := h
  refine ⟨_, ha.of_some hm, ?_⟩
  split
  · unfold Node.addChild
    split <;> exact hv
  · exact hv

/-- Adding a typed node leaves nodes typed. -/
theorem Typed.added (h : g.Typed) (ha : g.Added n id g') (hn : n.TypedIn g) : g'.Typed := by
  intro x m hm
  rcases ha.some_cases hm with ⟨-, rfl⟩ | ⟨m₀, hm₀, rfl⟩
  · exact hn.mono rfl hn.staged (fun _ _ _ ht => ht.added ha) fun _ _ hv => hv.added ha
  · have hcontent : (if x ∈ n.parents then m₀.addChild id else m₀).content = m₀.content := by split <;> simp
    have hstaged : (if x ∈ n.parents then m₀.addChild id else m₀).staged? = m₀.staged? := by
      unfold Node.addChild
      split
      · split <;> rfl
      · rfl
    refine (h x m₀ hm₀).mono hcontent (fun v t hst ht => ?_) (fun _ _ _ ht => ht.added ha) fun _ _ hv => hv.added ha
    rw [hstaged] at hst
    exact (h x m₀ hm₀).staged v t hst (Node.dataType?_of_content hcontent ▸ ht)

/-- Removing a node leaves the others typed. -/
theorem Typed.removed (h : g.Typed) (hl : g.WellLinked) (hr : g.Removed id n g') : g'.Typed := by
  have hheld : ∀ {x : NodeId} {m m₀ : Node},
      m.anonymous = (if x ∈ n.parents then m₀.removeChild id else m₀).anonymous →
      m.content = m₀.content ∧ m.staged? = m₀.staged? := by
    intro x m m₀ he
    constructor
    · refine (Node.content_of_evaluated (Node.evaluated_of_anonymous he)).trans ?_
      split <;> simp
    · refine (congrArg Node.staged? he : m.anonymous.staged? = _).trans ?_
      split <;> rfl
  intro x m hm
  obtain ⟨-, m₀, hm₀, he⟩ := hr.some_cases hm
  obtain ⟨hcontent, hstaged⟩ := hheld he
  -- The removed node has no children, so it is no parent of this one.
  have hparent : ∀ p ∈ m₀.parents, p ≠ id := by
    rintro p hp rfl
    have hc := (hl.mem_children_iff hr.node).2 ⟨m₀, hm₀, hp⟩
    rw [hr.children] at hc
    cases hc
  refine (h x m₀ hm₀).mono hcontent (fun v t hst ht => ?_) (fun p hp t ht => ?_) fun p hp hv => ?_
  · exact (h x m₀ hm₀).staged v t (hstaged ▸ hst) (Node.dataType?_of_content hcontent ▸ ht)
  · obtain ⟨q, hq, hqt⟩ := ht
    obtain ⟨q', hq', hqe⟩ := hr.of_some hq (hparent p hp)
    exact ⟨q', hq', Node.dataType?_of_content (hheld hqe).1 ▸ hqt⟩
  · obtain ⟨q, hq, hqv⟩ := hv
    obtain ⟨q', hq', hqe⟩ := hr.of_some hq (hparent p hp)
    have hvalue : q'.value? = q.value? := congrArg (fun c => c.2.2) (hheld hqe).1
    exact ⟨q', hq', hvalue ▸ hqv⟩

/-- Staging a value of the type of a node leaves nodes typed, and so does staging none. -/
theorem Typed.staged (h : g.Typed) (id : NodeId) (s? : Option Staged)
    (hs : ∀ n v t, g.node? id = some n → s? = some (.value v) → n.dataType? = some t → v.dataType = t) :
    (g.modify id fun n => { n with staged? := s? }).Typed := by
  refine h.congr (.modify (fun _ => by rfl) g id) fun x m v t hm hst ht => ?_
  rw [node?_modify] at hm
  split at hm
  · next hx =>
    obtain ⟨n, hn, rfl⟩ := Option.map_eq_some_iff.1 hm
    exact hs n v t (hx ▸ hn) hst ht
  · exact (h x m hm).staged v t hst ht

/-! ### Evaluation -/

/-- A value that comes out is of the type of the node; if it comes from a pure rule, the parents hold values. -/
theorem Typed.of_outcome (h : g.Typed) (hn : n.TypedIn g) (ha : g.args? pass n.parents = some args) {v : Value}
    (ho : n.outcome args = .value v) :
    Node.dataType? { n with value? := some v } = some v.dataType ∧ (∀ t, n.dataType? = some t → v.dataType = t) ∧
      ∀ t rule, n.kind = .formula t rule → rule.IsPure → ∀ p ∈ n.parents, g.HasValue p := by
  rcases (Node.outcome_eq_value ho).2 with ⟨u, rule, hk, hmiss, hcompute⟩ | ⟨hk, hstaged⟩
  · obtain ⟨params, hw, htypes⟩ := hn.wired u rule hk
    have hfit := h.args_fit ha htypes
    have hv : v.dataType = u := hw.dataType_of_compute hfit hmiss hcompute
    have hd : n.dataType? = some u := by rw [Node.dataType?, hk]
    refine ⟨by rw [Node.dataType?, hk, hv], fun t ht => ?_, fun t rule' hk' hpure => ?_⟩
    · rw [hd, Option.some.injEq] at ht
      rw [hv, ht]
    · rw [hk, NodeKind.formula.injEq] at hk'
      exact hasValue_of_holds ha (forall₂_holds hfit (hw.isOperator (hk'.2 ▸ hpure)).values hmiss)
  · refine ⟨?_, fun t => hn.staged v t hstaged, fun t rule hk' => ?_⟩
    · rcases hk with ⟨u, hk⟩ | hk
      · have hv : v.dataType = u := hn.staged v u hstaged (by rw [Node.dataType?, hk])
        rw [Node.dataType?, hk, hv]
      · rw [Node.dataType?, hk, Option.map_some]
    · rcases hk with ⟨u, hk⟩ | hk <;> rw [hk] at hk' <;> cases hk'

/-- Evaluation takes no node its type or its value. -/
theorem Typed.kept_settled (h : g.Typed) (hn : g.node? id = some n) (ha : g.args? pass n.parents = some args)
    (pass' : Nat)
    (hnode : ∀ x, g'.node? x = if x = id then some (n.settled pass' (n.outcome args)) else g.node? x) :
    (∀ {p t}, g.HasType p t → g'.HasType p t) ∧ ∀ {p}, g.HasValue p → g'.HasValue p := by
  have hself : g'.node? id = some (n.settled pass' (n.outcome args)) := by rw [hnode, if_pos rfl]
  have hkept : (∀ t, n.dataType? = some t → (n.settled pass' (n.outcome args)).dataType? = some t) ∧
      (n.value?.isSome = true → (n.settled pass' (n.outcome args)).value?.isSome = true) := by
    cases ho : n.outcome args with
    | value v =>
      obtain ⟨hd, hv, -⟩ := h.of_outcome (h id n hn) ha ho
      refine ⟨fun t ht => ?_, fun _ => rfl⟩
      rw [← hv t ht]
      exact hd
    | fire | unchanged | skip => exact ⟨fun _ ht => ht, fun hv => hv⟩
  constructor
  · rintro p t ⟨m, hm, ht⟩
    by_cases hp : p = id
    · subst hp
      rw [hn, Option.some.injEq] at hm
      exact ⟨_, hself, hkept.1 t (hm ▸ ht)⟩
    · exact ⟨m, by rw [hnode, if_neg hp, hm], ht⟩
  · rintro p ⟨m, hm, hv⟩
    by_cases hp : p = id
    · subst hp
      rw [hn, Option.some.injEq] at hm
      exact ⟨_, hself, hkept.2 (hm ▸ hv)⟩
    · exact ⟨m, by rw [hnode, if_neg hp, hm], hv⟩

/-- An evaluated node is typed, and so are the others. -/
theorem Typed.settled (h : g.Typed) (hn : g.node? id = some n) (ha : g.args? pass n.parents = some args) (pass' : Nat)
    (hnode : ∀ x, g'.node? x = if x = id then some (n.settled pass' (n.outcome args)) else g.node? x) : g'.Typed := by
  have htyped := h id n hn
  obtain ⟨htype, hvalue⟩ := h.kept_settled hn ha pass' hnode
  intro x m hm
  rw [hnode] at hm
  split at hm
  · rw [Option.some.injEq] at hm
    subst hm
    have hsame : ({ n with staged? := none } : Node).TypedIn g' :=
      htyped.mono rfl (fun _ _ hst => by cases hst) (fun _ _ _ => htype) fun _ _ => hvalue
    cases ho : n.outcome args with
    | value v =>
      obtain ⟨hd, -, hfilled⟩ := h.of_outcome htyped ha ho
      refine ⟨fun w hw => ?_, fun _ _ hst => (by cases hst), hsame.wired, fun t rule hk hpure _ p hp => ?_, hsame.group⟩
      · cases hw
        exact hd
      · exact hvalue (hfilled t rule hk hpure p hp)
    | fire => exact hsame.mono rfl (fun _ _ hst => by cases hst) (fun _ _ _ ht => ht) fun _ _ hv => hv
    | unchanged | skip => exact hsame
  · exact (h x m hm).mono rfl (h x m hm).staged (fun _ _ _ => htype) fun _ _ => hvalue

/-- Evaluation leaves nodes typed. -/
theorem Typed.propagates {pending : PendingSet} {visits : List Visit} {last : Graph} (h : g.Typed) (hg : g.Ready)
    (hk : g.Keyed pending) (hrun : Propagates pass g pending visits last) : last.Typed := by
  induction hrun with
  | drained => exact h
  | visit hp hv _ ih =>
    obtain ⟨n, hd⟩ := hg.visitDone hk hp hv
    exact ih (h.settled hd.node hd.args _ (hd.outcome ▸ hd.node?)) (hg.congr hd.same) (hd.keyed hk hp)

end Graph

end Dataflow
