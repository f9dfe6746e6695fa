import Dataflow.Proofs.Overload
import Dataflow.Proofs.Rule
import Dataflow.StandardLibrary

/-!
# The definitions of the standard library

Whatever definition of the library a call picks, and however many arguments it has, the node that the call builds runs
by a rule that is wired for the types of the parameters (`FunctionDef.IsWired`).  For the usual operators the rule is an
operator (`FunctionDef.IsOperator`), and so is that of a usual conversion between values.

* `isWired_of_mem_groups`, `isOperator_of_mem_groups`: the definitions of the library;
* `eq_of_mem_groups`: the groups are told apart by their names;
* `rule?_standard`, `behavior_standard`: the usual conversions.
-/

namespace Dataflow

namespace FunctionDef

variable {d : FunctionDef} {t : DataType}

/-- A formula that a call builds is wired as its rule asks. -/
def IsWired (d : FunctionDef) : Prop :=
  ∀ rule n, d.behavior = .value rule → d.minArgs ≤ n → n ≤ d.maxArgs → rule.Wired (d.paramsFor n) d.result

/-- What a call builds is a formula of an operator. -/
def IsOperator (d : FunctionDef) : Prop :=
  ∃ rule, d.behavior = .value rule ∧
    ∀ n, d.minArgs ≤ n → n ≤ d.maxArgs → rule.IsOperator (d.paramsFor n) d.result

theorem IsOperator.isWired (h : d.IsOperator) : d.IsWired := by
  obtain ⟨rule, hb, hop⟩ := h
  intro rule' n hb' hmin hmax
  rw [hb, Behavior.value.injEq] at hb'
  exact hb' ▸ .operator (hop n hmin hmax)

/-- A definition without variadic parameters that runs by an operator. -/
theorem value_isOperator {name : String} {params : List DataType} {rule : ValueRule} (hne : params ≠ [])
    (h : rule.IsOperator params t) : (value name params t rule).IsOperator := by
  refine ⟨rule, rfl, fun n hmin hmax => ?_⟩
  obtain rfl : n = params.length := Nat.le_antisymm hmax hmin
  have hparams : (value name params t rule).paramsFor params.length = params := paramsFor_length hne
  rw [hparams]
  exact h

private theorem value_isWired {name : String} {params : List DataType} {rule : ValueRule} (hne : params ≠ [])
    (h : rule.Wired params t) : (value name params t rule).IsWired := by
  intro rule' n hb hmin hmax
  cases hb
  obtain rfl : n = params.length := Nat.le_antisymm hmax hmin
  have hparams : (value name params t rule).paramsFor params.length = params := paramsFor_length hne
  rw [hparams]
  exact h

/-- A definition of a trigger builds no formula. -/
theorem isWired_of_trigger {rule : TriggerRule} (h : d.behavior = .trigger rule) : d.IsWired := by
  intro rule' n hb
  rw [h] at hb
  cases hb

end FunctionDef

namespace StandardLibrary

/-! ### The groups -/

/-- The names of the groups of operators. -/
def operators : List String := ["add", "sub", "mul", "div", "eq", "lt", "not", "and", "or"]

private theorem many_isOperator {maxArgs : Nat} {name : String} {t : DataType} {rule : ValueRule}
    (h : ∀ n, 0 < n → rule.IsOperator (List.replicate n t) t) : (many maxArgs name t rule).IsOperator := by
  refine ⟨rule, rfl, fun n hmin _ => ?_⟩
  have hparams : (many maxArgs name t rule).paramsFor n = List.replicate n t :=
    FunctionDef.paramsFor_eq_replicate (List.cons_ne_nil t [t]) (fun u hu => List.eq_of_mem_replicate (n := 2) hu) n
  have htwo : 2 ≤ n := hmin
  rw [hparams]
  exact h n (by omega)

private theorem binary_isOperator (op : ArithmeticOp) {d : FunctionDef} (hd : d ∈ (binary op).defs) :
    d.IsOperator := by
  obtain ⟨t, ht, rfl⟩ := List.mem_map.1 hd
  refine FunctionDef.value_isOperator (List.cons_ne_nil _ _) ?_
  have hop : (ValueRule.arithmetic op).IsOperator (List.replicate 2 t) t :=
    ValueRule.arithmetic_isOperator op (by simpa using ht) (by omega)
  exact hop

/-- The comparisons run by operators. -/
theorem comparison_isOperator {name : String} {test : Value → Value → Bool} {d : FunctionDef}
    (hd : d ∈ (comparison name (.comparison name test)).defs) : d.IsOperator := by
  obtain ⟨t, ht, rfl⟩ := List.mem_map.1 hd
  refine FunctionDef.value_isOperator (List.cons_ne_nil _ _) (ValueRule.comparison_isOperator name test ?_)
  rintro rfl
  simp [DataType.valueTypes] at ht

/-- The definitions of a group are operators, or the group is none of operators and its definitions are wired. -/
private theorem groups_cases (maxArgs : Nat) : ∀ g ∈ groups maxArgs,
    (∀ d ∈ g.defs, d.IsOperator) ∨ (g.name ∉ operators ∧ ∀ d ∈ g.defs, d.IsWired) := by
  have harithmetic : ∀ op name t, t = .int ∨ t = .double → (many maxArgs name t (.arithmetic op)).IsOperator :=
    fun op _ _ ht => many_isOperator fun _ hn => ValueRule.arithmetic_isOperator op ht hn
  have htriggers : ∀ name rule, name ∉ operators → (triggers maxArgs name rule).name ∉ operators ∧
      ∀ d ∈ (triggers maxArgs name rule).defs, d.IsWired := by
    intro name rule hname
    refine ⟨hname, fun d hd => ?_⟩
    obtain rfl := List.mem_singleton.1 hd
    exact FunctionDef.isWired_of_trigger rfl
  unfold groups
  repeat' refine List.forall_mem_cons.2 ⟨?_, ?_⟩
  · refine .inl fun d hd => ?_
    simp only [List.mem_cons, List.not_mem_nil, or_false] at hd
    rcases hd with rfl | rfl | rfl
    · exact harithmetic .add _ _ (.inl rfl)
    · exact harithmetic .add _ _ (.inr rfl)
    · exact many_isOperator fun n _ => ValueRule.concat_isOperator n
  · exact .inl fun d hd => binary_isOperator .sub hd
  · refine .inl fun d hd => ?_
    simp only [List.mem_cons, List.not_mem_nil, or_false] at hd
    rcases hd with rfl | rfl
    · exact harithmetic .mul _ _ (.inl rfl)
    · exact harithmetic .mul _ _ (.inr rfl)
  · exact .inl fun d hd => binary_isOperator .div hd
  · exact .inl fun d hd => comparison_isOperator hd
  · exact .inl fun d hd => comparison_isOperator hd
  · refine .inl fun d hd => ?_
    obtain rfl := List.mem_singleton.1 hd
    exact FunctionDef.value_isOperator (List.cons_ne_nil _ _) ValueRule.not_isOperator
  · refine .inl fun d hd => ?_
    obtain rfl := List.mem_singleton.1 hd
    exact many_isOperator fun _ hn => ValueRule.combined_isOperator "and" Bool.and hn
  · refine .inl fun d hd => ?_
    obtain rfl := List.mem_singleton.1 hd
    exact many_isOperator fun _ hn => ValueRule.combined_isOperator "or" Bool.or hn
  · exact .inr (htriggers "both" .both (by decide))
  · exact .inr (htriggers "either" .either (by decide))
  · refine .inr ⟨by decide, fun d hd => ?_⟩
    obtain ⟨t, -, rfl⟩ := List.mem_map.1 hd
    exact FunctionDef.isWired_of_trigger rfl
  · refine .inr ⟨by decide, fun d hd => ?_⟩
    obtain rfl := List.mem_singleton.1 hd
    exact FunctionDef.value_isWired (List.cons_ne_nil _ _) .count
  · refine .inr ⟨by decide, fun d hd => ?_⟩
    obtain ⟨t, -, rfl⟩ := List.mem_map.1 hd
    exact FunctionDef.value_isWired (List.cons_ne_nil _ _) (.sample t)
  · exact List.forall_mem_nil _

variable {maxArgs : Nat} {g g' : FunctionGroup} {d : FunctionDef}

/-- The definitions of the groups of operators are operators. -/
theorem isOperator_of_mem_groups (hg : g ∈ groups maxArgs) (hname : g.name ∈ operators) (hd : d ∈ g.defs) :
    d.IsOperator := by
  rcases groups_cases maxArgs g hg with hop | ⟨hnot, -⟩
  · exact hop d hd
  · exact absurd hname hnot

/-- The definitions of the library are wired. -/
theorem isWired_of_mem_groups (hg : g ∈ groups maxArgs) (hd : d ∈ g.defs) : d.IsWired := by
  rcases groups_cases maxArgs g hg with hop | ⟨-, hwired⟩
  · exact (hop d hd).isWired
  · exact hwired d hd

private theorem map_name_groups (maxArgs : Nat) : (groups maxArgs).map FunctionGroup.name =
    ["add", "sub", "mul", "div", "eq", "lt", "not", "and", "or", "both", "either", "changed", "count", "sample"] :=
  rfl

theorem nodup_names (maxArgs : Nat) : ((groups maxArgs).map FunctionGroup.name).Nodup := by
  rw [map_name_groups]
  decide

/-- No two groups have the same name. -/
theorem eq_of_mem_groups (hg : g ∈ groups maxArgs) (hg' : g' ∈ groups maxArgs) (hname : g.name = g'.name) : g = g' :=
  List.inj_on_of_nodup_map (nodup_names maxArgs) hg hg' hname

/-- The name of every group can be a name in a scope. -/
theorem isValid_of_mem_groups (hg : g ∈ groups maxArgs) : Name.isValid g.name = true := by
  have hvalid : ∀ name ∈ (groups maxArgs).map FunctionGroup.name, Name.isValid name = true := by
    rw [map_name_groups]
    decide
  exact hvalid g.name (List.mem_map_of_mem hg)

theorem defs_count (hg : g ∈ groups maxArgs) (hname : g.name = "count") :
    g.defs = [.value "count" [.trigger] .int .count] := by
  have hcount : ⟨"count", [.value "count" [.trigger] .int .count]⟩ ∈ groups maxArgs := by simp [groups]
  rw [eq_of_mem_groups hg hcount hname]

/-- The function that samples has a definition for each type of values. -/
theorem defs_sample (hg : g ∈ groups maxArgs) (hname : g.name = "sample") :
    g.defs = DataType.valueTypes.map fun t => .value "sample" [t, .trigger] t .sample := by
  have hsample : ⟨"sample", DataType.valueTypes.map fun t => .value "sample" [t, .trigger] t .sample⟩ ∈
      groups maxArgs := by simp [groups]
  rw [eq_of_mem_groups hg hsample hname]

end StandardLibrary

/-! ### Conversions -/

/-- What one of the conversions registered one after the other is for. -/
theorem rule?_foldl_register {rules : List (DataType × DataType × CastRule)} {r : CastRegistry} {s t : DataType}
    {rule : CastRule}
    (h : (rules.foldl (fun r (source, target, rule) => r.register source target rule) r).rule? s t = some rule) :
    (s, t, rule) ∈ rules ∨ r.rule? s t = some rule := by
  induction rules generalizing r with
  | nil => exact .inr h
  | cons first rules ih =>
    rcases ih h with hm | hr
    · exact .inl (List.mem_cons_of_mem _ hm)
    · simp only [CastRegistry.rule?_register] at hr
      split at hr
      · next hst =>
        obtain ⟨source, target, rule'⟩ := first
        obtain ⟨rfl, rfl⟩ := hst
        cases hr
        exact .inl (List.mem_cons_self ..)
      · exact .inr hr

/-- A usual conversion makes values of the target type, or, on request only, triggers.  Triggers are not converted. -/
theorem rule?_standard {s t : DataType} {rule : CastRule} (h : CastRegistry.standard.rule? s t = some rule) :
    s ≠ .trigger ∧ ((∃ name f, rule.conversion = .map name f ∧ ∀ v, (f v).dataType = t) ∨
      (rule.conversion = .onChange ∧ t = .trigger ∧ rule.weight? = none)) := by
  unfold CastRegistry.standard at h
  rcases rule?_foldl_register h with hm | hr
  · simp only [List.mem_cons, Prod.mk.injEq, List.not_mem_nil, or_false] at hm
    rcases hm with ⟨rfl, rfl, rfl⟩ | ⟨rfl, rfl, rfl⟩ | ⟨rfl, rfl, rfl⟩ | ⟨rfl, rfl, rfl⟩ | ⟨rfl, rfl, rfl⟩ |
      ⟨rfl, rfl, rfl⟩ | ⟨rfl, rfl, rfl⟩ | ⟨rfl, rfl, rfl⟩ | ⟨rfl, rfl, rfl⟩ | ⟨rfl, rfl, rfl⟩ | ⟨rfl, rfl, rfl⟩ |
      ⟨rfl, rfl, rfl⟩ | ⟨rfl, rfl, rfl⟩ | ⟨rfl, rfl, rfl⟩ | ⟨rfl, rfl, rfl⟩
    all_goals refine ⟨by simp, ?_⟩
    all_goals first | exact .inr ⟨rfl, rfl, rfl⟩ | exact .inl ⟨_, _, rfl, fun _ => rfl⟩
  · cases hr

/-- The node of a usual conversion runs by an operator, or, if it is made on request, is a trigger. -/
theorem behavior_standard {s t : DataType} {rule : CastRule} (h : CastRegistry.standard.rule? s t = some rule) :
    (∃ op, rule.conversion.behavior = .value op ∧ op.IsOperator [s] t) ∨
      (rule.conversion.behavior = .trigger .changed ∧ t = .trigger ∧ rule.weight? = none) := by
  obtain ⟨hvalue, ⟨name, f, hconv, hf⟩ | ⟨hconv, htrigger, hweight⟩⟩ := rule?_standard h
  · exact .inl ⟨_, by rw [hconv]; rfl, ValueRule.map_isOperator name hvalue hf⟩
  · exact .inr ⟨by rw [hconv]; rfl, htrigger, hweight⟩

end Dataflow
