import Dataflow.Proofs.Graph.Propagation

/-!
# Values that are up to date

A formula is up to date if it holds what its rule makes of its parents (`Graph.UpToDateAt`).  That is asked only of
pure rules (`ValueRule.IsPure`), for which it does not matter when the rule is applied.  Between operations every
formula that is not pending for evaluation is up to date (`Graph.UpToDate`):

* `UpToDate.congr`: changes that no rule can see;
* `upToDateAt_of_outcome`: a formula is up to date when it has just been computed;
* `UpToDate.added`, `UpToDate.removed`, `UpToDate.relinked`: creating, removing and relinking nodes;
* `Propagates.upToDate`: evaluation.
-/

namespace Dataflow

/-- An argument as it is outside of any pass. -/
def Arg.unfired (a : Arg) : Arg := { a with fired := false }

/-- The rule is a function of the values of the parents alone: it looks neither at what fired nor at the value that
its node holds. -/
def ValueRule.IsPure (rule : ValueRule) : Prop :=
  ∀ args args' current current', args.map Arg.unfired = args'.map Arg.unfired →
    rule.compute args current = rule.compute args' current'

/-- What the values of a node and of its children are computed from. -/
def Node.content (n : Node) : NodeKind × List NodeId × Option Value := (n.kind.emptied, n.parents, n.value?)

/-- What a rule can see of the node outside of any pass. -/
def Node.seen (n : Node) : Arg := n.toArg 0

@[simp] theorem Node.content_addChild (n : Node) (c : NodeId) : (n.addChild c).content = n.content := by
  unfold addChild
  split <;> rfl

@[simp] theorem Node.content_removeChild (n : Node) (c : NodeId) : (n.removeChild c).content = n.content := rfl

theorem Node.content_of_evaluated {n m : Node} (h : n.evaluated = m.evaluated) : n.content = m.content := by
  have hc : n.evaluated.content = m.evaluated.content := by rw [h]
  simpa [content, evaluated, anonymous] using hc

namespace Graph

/-- The node, if it is a formula with a pure rule, holds the result of the rule for its parents as they are; where a
parent holds no value or the rule has no result, nothing is asked of it. -/
def UpToDateAt (g : Graph) (x : NodeId) : Prop :=
  ∀ n t rule pass args v, g.node? x = some n → n.kind = .formula t rule → rule.IsPure →
    g.args? pass n.parents = some args → args.any Arg.isMissing = false → rule.compute args n.value? = some v →
    n.value? = some v

/-- All formulas that are not pending are up to date. -/
def UpToDate (g : Graph) (pending : PendingSet) : Prop := ∀ x, x ∉ pending.nodes → g.UpToDateAt x

/-! ### Arguments outside of any pass -/

theorem args?_unfired (g : Graph) (pass : Nat) (parents : List NodeId) :
    (g.args? pass parents).map (List.map Arg.unfired) = g.args? 0 parents := by
  unfold args?
  induction parents with
  | nil => rfl
  | cons p parents ih =>
    rw [List.mapM_cons, List.mapM_cons, ← ih]
    cases g.node? p with
    | none => rfl
    | some n => cases parents.mapM fun p => (g.node? p).map (·.toArg pass) <;> rfl

private theorem any_isMissing_unfired (args : List Arg) :
    (args.map Arg.unfired).any Arg.isMissing = args.any Arg.isMissing := by
  rw [List.any_map]
  rfl

/-- What a rule can see of a parent outside of any pass is in the parent's content. -/
theorem seen_of_content {o o' : Option Node} (h : o'.map Node.content = o.map Node.content) :
    o'.map Node.seen = o.map Node.seen := by
  cases o <;> cases o' <;> simp only [Option.map, reduceCtorEq, Option.some.injEq] at h ⊢
  simp only [Node.content, Prod.mk.injEq] at h
  obtain ⟨hk, -, hv⟩ := h
  simp only [Node.seen, Node.toArg, Node.firedIn, hv]
  rw [← NodeKind.isTrigger_emptied, hk, NodeKind.isTrigger_emptied]
  rfl

private theorem args?_of_seen {g g' : Graph} {parents : List NodeId}
    (h : ∀ p ∈ parents, (g'.node? p).map Node.seen = (g.node? p).map Node.seen) :
    g'.args? 0 parents = g.args? 0 parents := by
  unfold args?
  induction parents with
  | nil => rfl
  | cons p parents ih =>
    rw [List.forall_mem_cons] at h
    rw [List.mapM_cons, List.mapM_cons, ih h.2]
    exact congrArg (· >>= _) h.1

/-- For a pure rule any two passes give the same arguments. -/
private theorem compute_congr {g g' : Graph} {rule : ValueRule} (hr : rule.IsPure) {pass pass' : Nat}
    {parents : List NodeId} {args args' : List Arg}
    (hsame : ∀ p ∈ parents, (g'.node? p).map Node.seen = (g.node? p).map Node.seen)
    (ha : g.args? pass parents = some args) (ha' : g'.args? pass' parents = some args')
    (current current' : Option Value) :
    rule.compute args' current' = rule.compute args current ∧
      args'.any Arg.isMissing = args.any Arg.isMissing := by
  have h : args'.map Arg.unfired = args.map Arg.unfired := by
    have h₀ := args?_of_seen hsame
    rw [← args?_unfired g pass, ← args?_unfired g' pass', ha, ha'] at h₀
    exact Option.some.inj h₀
  refine ⟨hr _ _ _ _ h, ?_⟩
  rw [← any_isMissing_unfired, h, any_isMissing_unfired]

/-! ### Changes that no rule can see -/

/-- A formula stays up to date while its content and that of its parents stay the same. -/
theorem UpToDateAt.congr {g g' : Graph} {x : NodeId} (h : g.UpToDateAt x)
    (hx : (g'.node? x).map Node.content = (g.node? x).map Node.content)
    (hsame : ∀ n, g.node? x = some n → ∀ p ∈ n.parents,
      (g'.node? p).map Node.seen = (g.node? p).map Node.seen) : g'.UpToDateAt x := by
  intro n' t rule pass args' v hn' hk hr ha' hmiss hv
  rw [hn', Option.map_some] at hx
  obtain ⟨n, hn, he⟩ := Option.map_eq_some_iff.1 hx.symm
  simp only [Node.content, Prod.mk.injEq] at he
  obtain ⟨hkind, hpar, hval⟩ := he
  have hsame := hsame n hn
  rw [← hpar] at ha'
  -- The arguments outside of any pass are there in the other graph too.
  obtain ⟨args, ha⟩ : ∃ args, g.args? 0 n.parents = some args := by
    rw [← args?_of_seen hsame, ← args?_unfired g' pass, ha']
    exact ⟨_, rfl⟩
  obtain ⟨hcomp, hany⟩ := compute_congr hr hsame ha ha' n.value? n'.value?
  rw [← hval]
  refine h n t rule 0 args v hn ?_ hr ha (hany ▸ hmiss) (hcomp ▸ hv)
  exact NodeKind.of_emptied_eq_formula (hkind.trans (by rw [hk]; rfl))

/-- Changes that no rule can see leave all formulas up to date that are not pending. -/
theorem UpToDate.congr {g g' : Graph} {s s' : PendingSet} (h : g.UpToDate s) (hsame : SameUpTo Node.content g g')
    (hs : ∀ x ∈ s.nodes, x ∈ s'.nodes ∨ ∀ n t rule, g'.node? x = some n → n.kind ≠ .formula t rule) :
    g'.UpToDate s' := by
  intro x hx
  by_cases hxs : x ∈ s.nodes
  · rcases hs x hxs with hxs' | hkind
    · exact absurd hxs' hx
    · exact fun n t rule _ _ _ hn hk => absurd hk (hkind n t rule hn)
  · exact (h x hxs).congr (hsame x) fun _ _ p _ => seen_of_content (hsame p)

/-- A node that has had the outcome for its parents is up to date. -/
theorem upToDateAt_of_outcome {g g' : Graph} {x : NodeId} {n : Node} {pass : Nat} {args : List Arg} (pass' : Nat)
    (ha : g.args? pass n.parents = some args)
    (hx : (g'.node? x).map Node.content = some (n.settled pass' (n.outcome args)).content)
    (hsame : ∀ p ∈ n.parents, (g'.node? p).map Node.seen = (g.node? p).map Node.seen) : g'.UpToDateAt x := by
  intro n' t rule pass'' args' v hn' hk hr ha' hmiss hv
  rw [hn', Option.map_some, Option.some.injEq] at hx
  have hlinks : ∀ o, (n.settled pass' o).kind = n.kind ∧ (n.settled pass' o).parents = n.parents := by
    intro o
    cases o <;> exact ⟨rfl, rfl⟩
  simp only [Node.content, Prod.mk.injEq, hlinks] at hx
  obtain ⟨hkind, hpar, hval⟩ := hx
  have hkind : n.kind = .formula t rule := NodeKind.of_emptied_eq_formula (hkind.symm.trans (by rw [hk]; rfl))
  rw [hpar] at ha'
  obtain ⟨hcomp, hany⟩ := compute_congr hr hsame ha ha' n.value? n'.value?
  rw [hmiss] at hany
  rw [hv] at hcomp
  have hout : n.outcome args = if n.value? = some v then .unchanged else .value v := by
    simp only [Node.outcome, hkind, ← hany, ← hcomp]
    rfl
  rw [hval, hout]
  split
  · next he => exact he
  · rfl

/-! ### Evaluation -/

/-- A visit leaves up to date what is not pending then: the visited node by what it computed, and all others because
none of their parents has changed. -/
theorem VisitDone.upToDate {pass : Nat} {g g' : Graph} {e : Pending} {pending rest woken : PendingSet} {n : Node}
    {v : Visit} (hd : VisitDone pass g e rest n v g' woken) (hg : g.Ready) (hp : pending.pop? = some (e, rest))
    (h : g.UpToDate pending) : g'.UpToDate woken := by
  have hother : ∀ {x}, x ≠ e.node → g'.node? x = g.node? x := fun hx => by rw [hd.node?, if_neg hx]
  intro x hx
  by_cases hxe : x = e.node
  · subst hxe
    refine upToDateAt_of_outcome pass hd.args ?_ fun p hpn => ?_
    · rw [hd.node?, if_pos rfl, hd.outcome]
      rfl
    · rw [hother (hg.linked.ne_of_feeds ⟨n, hd.node, hpn⟩)]
  · have hxp : x ∉ pending.nodes := by
      rw [PendingSet.mem_nodes_pop hp, not_or]
      refine ⟨hxe, fun hxr => hx ?_⟩
      rw [hd.pending, PendingSet.mem_nodes_insertAll]
      exact .inl hxr
    refine (h x hxp).congr (by rw [hother hxe]) fun m hm p hpm => ?_
    by_cases hpe : p = e.node
    -- A child of the visited node that is not pending sees no change.
    · have hc : x ∈ n.children := (hg.linked.mem_children_iff hd.node).2 ⟨m, hm, hpe ▸ hpm⟩
      have hunchanged : v.outcome.isChange = false := by
        by_contra hchange
        exact hx (hd.mem_woken_of_child hg (by simpa using hchange) hc)
      rw [hpe, hd.node?, if_pos rfl, hd.node, Option.map_some, Option.map_some]
      cases ho : v.outcome <;> rw [ho] at hunchanged
      · cases hunchanged
      · cases hunchanged
      · rfl
      · rfl
    · rw [hother hpe]

/-- Evaluation leaves all formulas up to date. -/
theorem Propagates.upToDate {pass : Nat} {g last : Graph} {pending : PendingSet} {visits : List Visit}
    (hrun : Propagates pass g pending visits last) (hg : g.Ready) (hk : g.Keyed pending) (h : g.UpToDate pending) :
    last.UpToDate .empty := by
  induction hrun with
  | drained => exact h
  | visit hp hv _ ih =>
    obtain ⟨n, hd⟩ := hg.visitDone hk hp hv
    exact ih (hg.congr hd.same) (hd.keyed hk hp) (hd.upToDate hg hp h)

/-! ### Edits -/

namespace UpToDate

variable {g g' : Graph} {s s' : PendingSet} {id : NodeId} {n : Node}

/-- Adding a node leaves the others up to date. -/
theorem added (h : g.UpToDate s) (hw : g.WellLinked) (ha : g.Added n id g') {x : NodeId} (hx : x ∉ s.nodes)
    (hne : x ≠ id) : g'.UpToDateAt x := by
  have hcontent : ∀ {y}, y ≠ id → (g'.node? y).map Node.content = (g.node? y).map Node.content := by
    intro y hy
    rw [ha.node?, if_neg hy]
    split
    · cases g.node? y <;> simp
    · rfl
  refine (h x hx).congr (hcontent hne) fun m hm p hp => seen_of_content (hcontent ?_)
  obtain ⟨q, hq⟩ := hw.exists_parent ⟨m, hm, hp⟩
  exact ha.ne hq

/-- Removing a node leaves the others up to date, for it is no parent of theirs. -/
theorem removed (h : g.UpToDate s) (hw : g.WellLinked) (hr : g.Removed id n g') : g'.UpToDate (s.remove id) := by
  have hcontent : ∀ {y}, y ≠ id → (g'.node? y).map Node.content = (g.node? y).map Node.content := by
    intro y hy
    cases hm : g.node? y with
    | none =>
      have hy' := hr.others y
      rw [if_neg hy, hm, Option.map_none, Option.map_eq_none_iff] at hy'
      rw [hy']
    | some m =>
      obtain ⟨m', hm', he⟩ := hr.of_some hm hy
      rw [hm', Option.map_some, Option.map_some, Node.content_of_evaluated (Node.evaluated_of_anonymous he)]
      split <;> simp
  intro x hx
  by_cases hxe : x = id
  · intro m t rule _ _ _ hm
    rw [hxe, hr.gone] at hm
    cases hm
  · have hxs : x ∉ s.nodes := fun hxs => hx (PendingSet.mem_nodes_remove.2 ⟨hxe, hxs⟩)
    refine (h x hxs).congr (hcontent hxe) fun m hm p hp => seen_of_content (hcontent ?_)
    rintro rfl
    have hc := (hw.mem_children_iff hr.node).2 ⟨m, hm, hp⟩
    rw [hr.children] at hc
    cases hc

/-- Giving a node other parents leaves the others up to date, for they see no more of it than its value. -/
theorem relinked {parents : List NodeId} (h : g.UpToDate s) (hr : g.Relinked id n parents g') (hid : id ∈ s'.nodes)
    (hs : ∀ x ∈ s.nodes, x ∈ s'.nodes) : g'.UpToDate s' := by
  intro x hx
  have hne : x ≠ id := fun he => hx (he ▸ hid)
  refine (h x fun hxs => hx (hs x hxs)).congr ?_ fun m hm p hp => ?_
  · cases hm : g.node? x with
    | none => rw [hr.of_none hm]
    | some m =>
      obtain ⟨cs, hcs, -⟩ := hr.of_some hm
      rw [hcs, if_neg hne]
      rfl
  · cases hq : g.node? p with
    | none => rw [hr.of_none hq]
    | some q =>
      obtain ⟨cs, hcs, -⟩ := hr.of_some hq
      rw [hcs]
      rfl

end UpToDate

end Graph

end Dataflow
