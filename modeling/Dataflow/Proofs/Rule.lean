import Dataflow.Proofs.Graph.UpToDate

/-!
# Types of rules

An operator makes a value of one type of arguments that hold values of given types, and of nothing else
(`ValueRule.IsOperator`).  Of the rules of the standard library all are operators but two: one looks at the value that
its node holds, and one at what fired (`ValueRule.Wired`).

* `isOperator_of_values`: a rule is an operator if it is a function of the values of its arguments;
* `Wired.dataType_of_compute`: a wired rule makes values of its type only.
-/

namespace Dataflow

/-- What is known of an argument that comes from a node of the type. -/
structure Arg.Fits (a : Arg) (t : DataType) : Prop where
  trigger : a.isTrigger = true → t = .trigger
  value : ∀ v, a.value? = some v → v.dataType = t

/-- The argument holds a value of the type. -/
def Arg.Holds (a : Arg) (t : DataType) : Prop := ∃ v, a.value? = some v ∧ v.dataType = t

variable {args : List Arg} {params : List DataType} {t : DataType}

/-- Arguments that are not missing and that come from nodes of types of values hold values. -/
theorem forall₂_holds (h : List.Forall₂ Arg.Fits args params) (hp : .trigger ∉ params)
    (hm : args.any Arg.isMissing = false) : List.Forall₂ Arg.Holds args params := by
  induction h with
  | nil => exact .nil
  | @cons a u args params ha _ ih =>
    rw [List.mem_cons, not_or] at hp
    rw [List.any_cons, Bool.or_eq_false_iff] at hm
    refine .cons ?_ (ih hp.2 hm.2)
    have htrigger : a.isTrigger = false := by
      cases ht : a.isTrigger with
      | false => rfl
      | true => exact absurd (ha.trigger ht).symm hp.1
    cases hv : a.value? with
    | some v => exact ⟨v, hv, ha.value v hv⟩
    | none => simp [Arg.isMissing, htrigger, hv] at hm

/-- An argument of which nothing but the value is known. -/
def Arg.bare (value? : Option Value) : Arg := ⟨value?, false, false⟩

/-- The values that arguments hold. -/
theorem exists_values (h : List.Forall₂ Arg.Holds args params) :
    ∃ vs : List Value, args.map Arg.value? = vs.map some ∧ vs.map Value.dataType = params := by
  induction h with
  | nil => exact ⟨[], rfl, rfl⟩
  | cons ha _ ih =>
    obtain ⟨v, hv, rfl⟩ := ha
    obtain ⟨vs, hvs, rfl⟩ := ih
    exact ⟨v :: vs, by rw [List.map_cons, hv, hvs, List.map_cons], rfl⟩

namespace ValueRule

/-- The rule makes values of type `t` of the values of its arguments, which are of the given types. -/
structure IsOperator (rule : ValueRule) (params : List DataType) (t : DataType) : Prop where
  /-- The rule has a result for all arguments that hold values of these types. -/
  result : ∀ args current, List.Forall₂ Arg.Holds args params →
    ∃ v, rule.compute args current = some v ∧ v.dataType = t
  pure : rule.IsPure
  values : .trigger ∉ params

/-- A rule that reads values only is an operator if it computes a value of the type from all values of the parameters.
-/
theorem isOperator_of_values {rule : ValueRule}
    (hbare : ∀ args current, rule.compute args current = rule.compute ((args.map Arg.value?).map Arg.bare) none)
    (h : ∀ vs : List Value, vs.map Value.dataType = params →
      ∃ v, rule.compute ((vs.map some).map Arg.bare) none = some v ∧ v.dataType = t)
    (hp : .trigger ∉ params) : rule.IsOperator params t := by
  refine ⟨fun args current hargs => ?_, fun args args' current current' hsame => ?_, hp⟩
  · obtain ⟨vs, hvs, htypes⟩ := exists_values hargs
    rw [hbare, hvs]
    exact h vs htypes
  · have hvalues : ∀ args : List Arg, args.map Arg.value? = (args.map Arg.unfired).map Arg.value? := by
      intro args
      rw [List.map_map]
      rfl
    rw [hbare args, hbare args', hvalues args, hsame, ← hvalues args']

/-! ### The rules of the standard library -/

private theorem mem_of_map_eq_replicate {vs : List Value} {n : Nat} (h : vs.map Value.dataType = List.replicate n t) :
    vs.length = n ∧ ∀ v ∈ vs, v.dataType = t := by
  rw [List.eq_replicate_iff, List.length_map, List.forall_mem_map] at h
  exact h

private theorem not_mem_replicate {n : Nat} (ht : t ≠ .trigger) : .trigger ∉ List.replicate n t :=
  fun hm => ht (List.eq_of_mem_replicate hm).symm

/-- Folding an operation over integers, or over doubles, makes one of the same. -/
theorem exists_foldlM_onValues? (op : ArithmeticOp) (ht : t = .int ∨ t = .double) {first : Value} {rest : List Value}
    (hfirst : first.dataType = t) (hrest : ∀ v ∈ rest, v.dataType = t) :
    ∃ v, rest.foldlM op.onValues? first = some v ∧ v.dataType = t := by
  induction rest generalizing first with
  | nil => exact ⟨first, rfl, hfirst⟩
  | cons second rest ih =>
    rw [List.forall_mem_cons] at hrest
    obtain ⟨v, hv, hvt⟩ : ∃ v, op.onValues? first second = some v ∧ v.dataType = t := by
      rcases ht with rfl | rfl <;> cases first <;> cases hfirst <;> cases second <;> cases hrest.1 <;>
        exact ⟨_, rfl, rfl⟩
    rw [List.foldlM_cons, hv]
    exact ih hvt hrest.2

/-- Arithmetic on integers, or on doubles, is an operator. -/
theorem arithmetic_isOperator (op : ArithmeticOp) (ht : t = .int ∨ t = .double) {n : Nat} (hn : 0 < n) :
    (arithmetic op).IsOperator (List.replicate n t) t := by
  refine isOperator_of_values (fun args current => ?_) (fun vs hvs => ?_) ?_
  · unfold arithmetic
    simp only
    rw [List.map_map, List.filterMap_map]
    rfl
  · obtain ⟨hlength, htypes⟩ := mem_of_map_eq_replicate hvs
    have hvalues : ((vs.map some).map Arg.bare).filterMap Arg.value? = vs := by
      rw [List.map_map, List.filterMap_map]
      exact List.filterMap_some
    unfold arithmetic
    simp only [hvalues]
    cases vs with
    | nil =>
      rw [List.length_nil] at hlength
      omega
    | cons first rest =>
      rw [List.forall_mem_cons] at htypes
      exact exists_foldlM_onValues? op ht htypes.1 htypes.2
  · refine not_mem_replicate ?_
    rcases ht with rfl | rfl <;> simp

/-- Where every one of the values is as asked for, all can be read. -/
private theorem exists_mapM {α : Type} (as? : Value → Option α) {vs : List Value} (h : ∀ v ∈ vs, ∃ a, as? v = some a) :
    ∃ as, as.length = vs.length ∧
      ((vs.map some).map Arg.bare).mapM (fun a => a.value?.bind as?) = some as := by
  induction vs with
  | nil => exact ⟨[], rfl, rfl⟩
  | cons v vs ih =>
    rw [List.forall_mem_cons] at h
    obtain ⟨a, ha⟩ := h.1
    obtain ⟨as, hlength, has⟩ := ih h.2
    refine ⟨a :: as, by rw [List.length_cons, List.length_cons, hlength], ?_⟩
    rw [List.map_cons, List.map_cons, List.mapM_cons, Arg.bare, Option.bind_some, ha, has]
    rfl

/-- Reading the values of arguments takes nothing but the values. -/
private theorem mapM_bare {α : Type} (as? : Value → Option α) (args : List Arg) :
    ((args.map Arg.value?).map Arg.bare).mapM (fun a => a.value?.bind as?) =
      args.mapM fun a => a.value?.bind as? := by
  rw [List.map_map, List.mapM_map]
  rfl

theorem concat_isOperator (n : Nat) : concat.IsOperator (List.replicate n .text) .text := by
  refine isOperator_of_values (fun args current => ?_) (fun vs hvs => ?_) (not_mem_replicate (by simp))
  · unfold concat
    simp only [mapM_bare]
  · obtain ⟨texts, -, htexts⟩ := exists_mapM Value.asText? fun v (hv : v ∈ vs) => by
      have ht := (mem_of_map_eq_replicate hvs).2 v hv
      cases v <;> cases ht
      exact ⟨_, rfl⟩
    unfold concat
    simp only [htexts]
    exact ⟨_, rfl, rfl⟩

theorem combined_isOperator (name : String) (op : Bool → Bool → Bool) {n : Nat} (hn : 0 < n) :
    (combined name op).IsOperator (List.replicate n .bool) .bool := by
  refine isOperator_of_values (fun args current => ?_) (fun vs hvs => ?_) (not_mem_replicate (by simp))
  · unfold combined truth?
    simp only [mapM_bare]
  · obtain ⟨hlength, htypes⟩ := mem_of_map_eq_replicate hvs
    obtain ⟨truths, hsame, htruths⟩ := exists_mapM Value.asBool? fun v (hv : v ∈ vs) => by
      have ht := htypes v hv
      cases v <;> cases ht
      exact ⟨_, rfl⟩
    unfold combined truth?
    simp only [htruths]
    cases truths with
    | nil =>
      rw [List.length_nil] at hsame
      omega
    | cons first rest => exact ⟨_, rfl, rfl⟩

theorem comparison_isOperator (name : String) (test : Value → Value → Bool) (ht : t ≠ .trigger) :
    (comparison name test).IsOperator [t, t] .bool := by
  refine isOperator_of_values (fun args current => ?_) (fun vs hvs => ?_) (by simpa using ht.symm)
  · rcases args with _ | ⟨a, _ | ⟨b, args⟩⟩ <;> rfl
  · obtain ⟨a, b, rfl⟩ := List.length_eq_two.1 ((List.length_map Value.dataType).symm.trans (congrArg List.length hvs))
    exact ⟨_, rfl, rfl⟩

theorem not_isOperator : not.IsOperator [.bool] .bool := by
  refine isOperator_of_values (fun args current => ?_) (fun vs hvs => ?_) (by simp)
  · cases args <;> rfl
  · obtain ⟨v, rfl⟩ := List.length_eq_one_iff.1 ((List.length_map Value.dataType).symm.trans (congrArg List.length hvs))
    cases v <;> cases hvs
    exact ⟨_, rfl, rfl⟩

/-- The rule of a conversion is an operator if the conversion makes values of the target type only. -/
theorem map_isOperator (name : String) {f : Value → Value} {source : DataType} (hs : source ≠ .trigger)
    (hf : ∀ v, (f v).dataType = t) :
    IsOperator ⟨name, fun args _ => (args.head?.bind Arg.value?).map f⟩ [source] t := by
  refine isOperator_of_values (fun args current => ?_) (fun vs hvs => ?_) (by simpa using hs.symm)
  · cases args <;> rfl
  · obtain ⟨v, rfl⟩ := List.length_eq_one_iff.1 ((List.length_map Value.dataType).symm.trans (congrArg List.length hvs))
    exact ⟨_, rfl, hf v⟩

/-! ### How formulas are wired -/

/-- The types that the parents of a formula have, and the type of its values, by its rule. -/
inductive Wired : ValueRule → List DataType → DataType → Prop
  | operator {rule : ValueRule} {params : List DataType} {t : DataType} :
      rule.IsOperator params t → Wired rule params t
  | count : Wired .count [.trigger] .int
  | sample (t : DataType) : Wired .sample [t, .trigger] t

/-- What a wired rule computes is of the type that the node is declared to be of. -/
theorem Wired.dataType_of_compute {rule : ValueRule} (h : rule.Wired params t) {current : Option Value} {v : Value}
    (ha : List.Forall₂ Arg.Fits args params) (hm : args.any Arg.isMissing = false)
    (hv : rule.compute args current = some v) : v.dataType = t := by
  cases h with
  | operator hop =>
    obtain ⟨w, hw, ht⟩ := hop.result args current (forall₂_holds ha hop.values hm)
    rw [hv, Option.some.injEq] at hw
    rw [hw, ht]
  | count =>
    cases hv
    rfl
  | sample =>
    obtain _ | ⟨hsource, _ | ⟨-, ⟨⟩⟩⟩ := ha
    simp only [ValueRule.sample] at hv
    split at hv
    · exact hsource.value v hv
    · cases hv

/-- A wired rule that is pure is an operator: the other two look at what fired. -/
theorem Wired.isOperator {rule : ValueRule} (h : rule.Wired params t) (hp : rule.IsPure) :
    rule.IsOperator params t := by
  cases h with
  | operator hop => exact hop
  | count =>
    have hsame := hp [⟨none, true, true⟩] [⟨none, false, true⟩] none none rfl
    cases hsame
  | sample =>
    have hsame := hp [⟨some (.bool true), false, false⟩, ⟨none, true, true⟩]
      [⟨some (.bool true), false, false⟩, ⟨none, false, true⟩] none none rfl
    cases hsame

end ValueRule

end Dataflow
