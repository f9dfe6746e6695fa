import Dataflow.Proofs.Engine.Reports

/-!
# Pass numbers

A pass is given a number if anything is pending for evaluation, before it is known whether anything will be evaluated.
What is pending may be skipped: a scope, a function group, or a formula that reads a node without a value.  Skipping a
node changes nothing that evaluation looks at, so that something is evaluated exactly if a pending node is not to be
skipped (`Propagates.exists_isEvaluation_iff`).

* `Reachable.numbers`: the number of a pass, and when it counts the passes that evaluate anything.
-/

namespace Dataflow

open Dataflow.Graph

variable {σ : Type} {created : Nat} {e e' : Engine σ}

/-! ### What is skipped -/

/-- Evaluation skips what is no data node, and formulas for which some argument is missing. -/
theorem Node.outcome_eq_skip_iff {n : Node} {args : List Arg} : n.outcome args = .skip ↔
    n.kind.isData = false ∨ (∃ t rule, n.kind = .formula t rule) ∧ args.any Arg.isMissing = true := by
  unfold outcome
  cases hk : n.kind with
  | formula t rule =>
    cases args.any Arg.isMissing with
    | true => simp [NodeKind.isData]
    | false =>
      simp only [NodeKind.isData]
      grind
  | scope _ | functionGroup _ => simp [NodeKind.isData]
  | _ =>
    simp only [NodeKind.isData]
    grind

namespace Graph

variable {g g' last : Graph} {pass : Nat} {pending : PendingSet} {visits : List Visit} {x : NodeId}
  {parents : List NodeId} {args : List Arg}

/-- A rule that reads the node gets something: it is a trigger, or has a value. -/
def Readable (g : Graph) (x : NodeId) : Prop :=
  ∃ n, g.node? x = some n ∧ (n.value? = none → n.kind.isTrigger = true)

/-- The node takes part in evaluation, and all that a formula reads is readable. -/
def Evaluable (g : Graph) (x : NodeId) : Prop :=
  ∃ n, g.node? x = some n ∧ n.kind.isData = true ∧
    ∀ t rule, n.kind = .formula t rule → ∀ p ∈ n.parents, g.Readable p

theorem Readable.congr (h : SameUpTo Node.content g g') (hx : g.Readable x) : g'.Readable x := by
  obtain ⟨n, hn, hread⟩ := hx
  obtain ⟨m, hm, he⟩ := h.exists_of_some hn
  simp only [Node.content, Prod.mk.injEq] at he
  obtain ⟨hkind, -, hvalue⟩ := he
  refine ⟨m, hm, fun hnone => ?_⟩
  rw [← NodeKind.isTrigger_emptied, hkind, NodeKind.isTrigger_emptied]
  exact hread (hvalue ▸ hnone)

theorem Evaluable.congr (h : SameUpTo Node.content g g') (hx : g.Evaluable x) : g'.Evaluable x := by
  obtain ⟨n, hn, hdata, hread⟩ := hx
  obtain ⟨m, hm, he⟩ := h.exists_of_some hn
  simp only [Node.content, Prod.mk.injEq] at he
  obtain ⟨hkind, hparents, -⟩ := he
  refine ⟨m, hm, ?_, fun t rule hk p hp => ?_⟩
  · rw [← NodeKind.isData_emptied, hkind, NodeKind.isData_emptied, hdata]
  · refine (hread t rule ?_ p (hparents ▸ hp)).congr h
    exact NodeKind.of_emptied_eq_formula (by rw [← hkind, hk]; rfl)

private theorem evaluable_congr (h : SameUpTo Node.content g g') :
    g'.Evaluable x ↔ g.Evaluable x := ⟨.congr h.symm, .congr h⟩

/-- An argument is missing if what is read is not readable. -/
theorem any_isMissing_iff (ha : g.args? pass parents = some args) :
    args.any Arg.isMissing = true ↔ ∃ p ∈ parents, ¬ g.Readable p := by
  induction parents generalizing args with
  | nil =>
    cases ha
    simp
  | cons p parents ih =>
    obtain ⟨n, rest, hn, hrest, rfl⟩ := args?_cons_eq_some.1 ha
    have hmissing : (n.toArg pass).isMissing = true ↔ ¬ g.Readable p := by
      have hreadable : g.Readable p ↔ (n.value? = none → n.kind.isTrigger = true) := by
        simp only [Readable, hn, Option.some.injEq, exists_eq_left']
      rw [hreadable]
      unfold Arg.isMissing Node.toArg
      cases n.kind.isTrigger <;> simp
    rw [List.any_cons, Bool.or_eq_true, ih hrest, hmissing, List.exists_mem_cons_iff]

/-- A node is skipped exactly if it is not evaluable. -/
theorem evaluable_iff {n : Node} (hn : g.node? x = some n) (ha : g.args? pass n.parents = some args) :
    g.Evaluable x ↔ n.outcome args ≠ .skip := by
  have hx : g.Evaluable x ↔
      n.kind.isData = true ∧ ∀ t rule, n.kind = .formula t rule → ∀ p ∈ n.parents, g.Readable p := by
    simp only [Evaluable, hn, Option.some.injEq, exists_eq_left']
  rw [hx, Ne, Node.outcome_eq_skip_iff, any_isMissing_iff ha]
  simp only [not_or, not_and, not_exists, Bool.not_eq_false, not_not]
  refine and_congr_right fun _ => ⟨?_, ?_⟩
  · rintro h ⟨t, rule, hk⟩
    exact h t rule hk
  · exact fun h t rule hk => h ⟨t, rule, hk⟩

/-- Something is evaluated exactly if something that is pending is evaluable. -/
theorem Propagates.exists_isEvaluation_iff (h : Propagates pass g pending visits last) (hg : g.Ready)
    (hk : g.Keyed pending) : (∃ v ∈ visits, v.isEvaluation = true) ↔ ∃ x ∈ pending.nodes, g.Evaluable x := by
  induction h with
  | drained => simp [PendingSet.nodes, PendingSet.empty]
  | @visit g next last pending rest woken e v visits hp hv hrun ih =>
    obtain ⟨n, hd⟩ := hg.visitDone hk hp hv
    have hfirst : g.Evaluable e.node ↔ v.isEvaluation = true := by
      rw [evaluable_iff hd.node hd.args, ← hd.outcome, Visit.isEvaluation, decide_eq_true_iff]
    rw [List.exists_mem_cons_iff, ih (hg.congr hd.same) (hd.keyed hk hp), ← hfirst]
    by_cases hx : g.Evaluable e.node
    · exact ⟨fun _ => ⟨e.node, (PendingSet.mem_nodes_pop hp).2 (.inl rfl), hx⟩, fun _ => .inl hx⟩
    · -- A node that is skipped makes nothing pending, and all nodes keep what evaluation looks at.
      have hskip : v.outcome = .skip := by
        simpa [Visit.isEvaluation, hx] using hfirst
      have hwoken : woken = rest := by
        rw [hd.pending, hskip]
        rfl
      have hsame : SameUpTo Node.content g next := by
        intro y
        rw [hd.node?, hskip]
        split
        · next hy => rw [hy, hd.node]; rfl
        · rfl
      simp only [hwoken, evaluable_congr hsame, hx, false_or]
      constructor
      · rintro ⟨y, hy, he⟩
        exact ⟨y, (PendingSet.mem_nodes_pop hp).2 (.inr hy), he⟩
      · rintro ⟨y, hy, he⟩
        rcases (PendingSet.mem_nodes_pop hp).1 hy with rfl | hy
        · exact absurd he hx
        · exact ⟨y, hy, he⟩

end Graph

/-! ### The number of a pass -/

namespace Engine

/-- Edits of observers start no pass. -/
theorem pass_applyEdit {edit : Edit} {changed : Bool} (h : e.applyEdit edit = .ok (changed, e')) :
    e'.pass = e.pass := by
  cases edit with
  | setValue id v => obtain ⟨n, -, -, ⟨rfl, -⟩ | ⟨-, rfl⟩ | ⟨-, rfl⟩⟩ := setInput_eq_ok h <;> rfl
  | provoke id => obtain ⟨n, -, -, ⟨rfl, -⟩ | ⟨-, rfl⟩⟩ := provoke_eq_ok h <;> rfl

private theorem pass_applyEdits (e : Engine σ) (edits : List Edit) : (e.applyEdits edits).2.pass = e.pass := by
  unfold applyEdits
  induction edits using List.reverseRecOn with
  | nil => rfl
  | append_singleton edits edit ih =>
    rw [List.foldl_append, List.foldl_cons, List.foldl_nil]
    generalize edits.foldl _ (0, e) = state at ih ⊢
    obtain ⟨rejected, f⟩ := state
    simp only at ih ⊢
    split
    · next h => exact (pass_applyEdit h).trans ih
    · exact ih

/-- An evaluation takes a new number if anything is pending. -/
theorem pass_drainEval (hs : e.schedule.Sound created) :
    e.drainEval.2.2.pass = (if e.eval.isEmpty then e.pass else e.pass + 1) ∧
    e.drainEval.2.2.report.pass = (if e.eval.isEmpty then e.report.pass else e.pass + 1) := by
  have hpass := schedule_drainUpdate_pass e
  have hreport : e.drainUpdate.2.2.report.pass = e.report.pass := by
    unfold drainUpdate
    split <;> rfl
  have hempty : e.drainUpdate.2.2.eval.isEmpty = e.eval.isEmpty := by
    have hnodes : ∀ s : PendingSet, s.isEmpty = true ↔ ∀ x, x ∉ s.nodes := fun s => by
      rw [PendingSet.isEmpty, List.isEmpty_iff, ← List.eq_nil_iff_forall_not_mem, PendingSet.nodes, List.map_eq_nil_iff]
    rw [Bool.eq_iff_iff, hnodes, hnodes]
    simp only [mem_eval_drainUpdate hs]
  unfold drainEval
  generalize e.drainUpdate = d at hpass hreport hempty
  obtain ⟨changes, events, e₁⟩ := d
  simp only at hpass hreport hempty ⊢
  rw [hempty]
  split
  · exact ⟨hpass, hreport⟩
  · rw [hpass]
    exact ⟨rfl, rfl⟩

/-- The pass after this one counts as a pass if it evaluates anything, and only then: it gets the next number, and
reports it. -/
def CountsEvaluations (e : Engine σ) : Prop :=
  if 0 < e.runPass.1.evaluated then e.runPass.2.2.pass = e.pass + 1 ∧ e.runPass.1.pass = e.pass + 1
  else e.runPass.2.2.pass = e.pass ∧ e.runPass.1.pass = 0

/-- What the number of the next pass says. -/
structure Numbers (e : Engine σ) : Prop where
  /-- The pass gets the next number if anything is pending, and reports it.  Otherwise it reports the number that an
  evaluation has left in the report. -/
  pass : e.runPass.2.2.pass = (if e.eval.isEmpty then e.pass else e.pass + 1) ∧
    e.runPass.1.pass = if e.eval.isEmpty then e.report.pass else e.pass + 1
  /-- Anything is evaluated if anything that is pending is not to be skipped. -/
  evaluated_iff : 0 < e.runPass.1.evaluated ↔ ∃ x ∈ e.eval.nodes, e.graph.Evaluable x
  /-- So passes are counted as they should be unless all that is pending is to be skipped, or has been skipped by an
  evaluation since the last pass. -/
  countsEvaluations_iff : e.CountsEvaluations ↔
    if e.eval.isEmpty then e.report.pass = 0 else ∃ x ∈ e.eval.nodes, e.graph.Evaluable x

end Engine

open Engine

/-- What the number of a pass says, in every engine that a host can bring about in which nothing has been done for the
pass yet. -/
theorem Reachable.numbers (h : Reachable created e) (hlevel : e.groupLevel = 0) (hreport : e.report.isEmpty = true) :
    e.Numbers := by
  have hs := h.sound
  obtain ⟨hpass, hnumber⟩ := pass_drainEval hs
  have hpass' : e.runPass.2.2.pass = if e.eval.isEmpty then e.pass else e.pass + 1 := by
    rw [(runPass_eq hlevel).1, ← hpass]
    exact pass_applyEdits e.drainEval.2.2.atRest e.drainEval.2.2.asked
  have hnumber' : e.runPass.1.pass = if e.eval.isEmpty then e.report.pass else e.pass + 1 := by
    rw [(runPass_eq hlevel).2, (Engine.finalize_eq _).1]
    exact hnumber
  have hevaluated : 0 < e.runPass.1.evaluated ↔ ∃ x ∈ e.eval.nodes, e.graph.Evaluable x := by
    obtain ⟨hready, hkeyed⟩ := ready_drainUpdate hs
    have hzero : e.report.evaluated = 0 := by
      simp only [PassReport.isEmpty, Bool.and_eq_true, decide_eq_true_iff] at hreport
      exact hreport.1.1.1.1.2
    have hsame : SameUpTo Node.content e.graph e.drainUpdate.2.2.graph :=
      (same_drainUpdate hs).weaken fun n m he => by
        obtain ⟨hkind, hparents, hvalue, -⟩ := Node.of_flat_eq he
        simp only [Node.content, hkind, hparents, hvalue]
    rw [(report_runPass hs hlevel).2.2, hzero, Nat.zero_add, List.countP_pos_iff,
      (propagates_visits hs).1.exists_isEvaluation_iff hready hkeyed]
    simp only [mem_eval_drainUpdate hs, evaluable_congr hsame]
  refine ⟨⟨hpass', hnumber'⟩, hevaluated, ?_⟩
  unfold CountsEvaluations
  rw [hpass', hnumber']
  cases hempty : e.eval.isEmpty with
  | true =>
    have hnone : ¬ ∃ x ∈ e.eval.nodes, e.graph.Evaluable x := by
      rw [PendingSet.isEmpty_iff.1 hempty]
      rintro ⟨x, hx, -⟩
      cases hx
    rw [if_neg (hevaluated.not.2 hnone)]
    simp
  | false =>
    by_cases hx : ∃ x ∈ e.eval.nodes, e.graph.Evaluable x
    · rw [if_pos (hevaluated.2 hx)]
      simp [hx]
    · rw [if_neg (hevaluated.not.2 hx)]
      simp [hx]

/-- The input is evaluated, and so the pass is counted. -/
theorem rewrittenInput_counted : rewrittenInput.CountsEvaluations ∧ 0 < rewrittenInput.runPass.1.evaluated := by
  have h : Reachable _ rewrittenInput := (Reachable.new .default ()).run _
  have hnumbers := h.numbers rfl rfl
  have hinput : ∃ x ∈ rewrittenInput.eval.nodes, rewrittenInput.graph.Evaluable x :=
    ⟨⟨1, 0⟩, by decide +kernel, _, rfl, rfl, fun _ _ hk => NodeKind.noConfusion hk⟩
  refine ⟨hnumbers.countsEvaluations_iff.2 ?_, hnumbers.evaluated_iff.2 hinput⟩
  rw [if_neg (by decide +kernel)]
  exact hinput

/-- An input without a value, and a formula that has been given it to read. -/
def unsetInput : Engine Unit :=
  (Engine.new .default ()).run [.createNode (.input .int) [],
    .createNode (.formula .int ⟨"none", fun _ _ => none⟩) [], .addChild ⟨1, 0⟩ ⟨2, 0⟩]

/-- The formula is skipped, and the pass gets a number although nothing is evaluated. -/
theorem unsetInput_miscounted : unsetInput.report = .none ∧ unsetInput.runPass.1.evaluated = 0 ∧
    unsetInput.runPass.2.2.pass = unsetInput.pass + 1 ∧ unsetInput.runPass.1.pass = 1 ∧
    ¬ unsetInput.CountsEvaluations := by
  have hevaluated : unsetInput.runPass.1.evaluated = 0 := by decide +kernel
  have hpass : unsetInput.runPass.2.2.pass = unsetInput.pass + 1 := by decide +kernel
  refine ⟨rfl, hevaluated, hpass, by decide +kernel, fun h => ?_⟩
  unfold Engine.CountsEvaluations at h
  rw [if_neg (by omega), hpass] at h
  omega

end Dataflow
