import Dataflow.Overload
import Mathlib.Data.List.Basic
import Mathlib.Data.List.Induction

/-!
# Definitions that accept a call

A definition that accepts arguments of given types has a parameter for each of them, at a distance that is known
(`exists_param_of_score?`).  So the positions at which an argument has to be converted are those where its type is not
that of the parameter (`FunctionDef.mismatched`), and the usual way to list the types of the parameters agrees with
asking for one at a time (`getElem?_paramsFor`).

* `FunctionGroup.resolve?_eq_some`: a call picks a definition of its group that accepts it;
* `FunctionGroup.resolve?_eq_none_iff`: it picks none exactly if none accepts it.
-/

namespace Dataflow

/-- A type is at some distance from another if they are equal or the conversion has a weight. -/
theorem CastRegistry.isSome_distance?_iff {casts : CastRegistry} {s t : DataType} :
    (casts.distance? s t).isSome = true ↔ s = t ∨ ∃ rule, casts.rule? s t = some rule ∧ rule.weight?.isSome = true := by
  unfold distance?
  split
  · next hsame => simp [hsame]
  · next hne => cases casts.rule? s t <;> simp [hne]

namespace FunctionDef

variable {d : FunctionDef} {t : DataType} {casts : CastRegistry} {types : List DataType}

/-- The types of the parameters of a call with `n` arguments. -/
def paramsFor (d : FunctionDef) (n : Nat) : List DataType := (List.range n).filterMap d.paramType?

/-- The last parameter repeats. -/
theorem paramsFor_eq (hne : d.params ≠ []) (n : Nat) :
    d.paramsFor n = (List.range n).map fun i => d.params.getD i (d.params.getLast hne) := by
  unfold paramsFor
  rw [← List.filterMap_eq_map]
  refine List.filterMap_congr fun i _ => ?_
  unfold paramType?
  rw [List.getLast?_eq_some_getLast hne, Function.comp_apply, List.getD_eq_getElem?_getD]
  cases d.params[i]? <;> rfl

private theorem length_paramsFor (hne : d.params ≠ []) (n : Nat) : (d.paramsFor n).length = n := by
  rw [paramsFor_eq hne, List.length_map, List.length_range]

/-- With all parameters of one type, so are the arguments. -/
theorem paramsFor_eq_replicate (hne : d.params ≠ []) (hp : ∀ u ∈ d.params, u = t) (n : Nat) :
    d.paramsFor n = List.replicate n t := by
  refine List.eq_replicate_iff.2 ⟨length_paramsFor hne n, fun u hu => ?_⟩
  rw [paramsFor_eq hne, List.mem_map] at hu
  obtain ⟨i, -, rfl⟩ := hu
  rw [List.getD_eq_getElem?_getD]
  cases hi : d.params[i]? with
  | some u => exact hp u (List.mem_of_getElem? hi)
  | none => exact hp _ (List.getLast_mem hne)

/-- With as many arguments as parameters, the types are those of the parameters. -/
theorem paramsFor_length (hne : d.params ≠ []) : d.paramsFor d.params.length = d.params := by
  refine List.ext_getElem (length_paramsFor hne _) fun i _ hi => ?_
  simp only [paramsFor_eq hne, List.getElem_map, List.getElem_range, List.getD_eq_getElem?_getD,
    List.getElem?_eq_getElem hi, Option.getD_some]

theorem getElem?_paramsFor {n i : Nat} (hi : i < n) : (d.paramsFor n)[i]? = d.paramType? i := by
  by_cases hne : d.params = []
  · have hnone : d.paramType? = fun _ => none := by
      funext i
      simp [paramType?, hne]
    have hempty : d.paramsFor n = [] := by
      rw [paramsFor, hnone, List.filterMap_eq_nil_iff]
      exact fun _ _ => rfl
    rw [hnone, hempty, List.getElem?_nil]
  · rw [paramsFor_eq hne, List.getElem?_map, List.getElem?_range hi, Option.map_some]
    unfold paramType?
    rw [List.getLast?_eq_some_getLast hne, List.getD_eq_getElem?_getD]
    cases d.params[i]? <;> rfl

/-- The positions at which a call with arguments of the given types does not find the type of the parameter. -/
def mismatched (d : FunctionDef) (types : List DataType) : List Nat :=
  (List.range types.length).filter fun i => d.paramType? i ≠ types[i]?

/-! ### Scores -/

/-- Unless a call gives its argument back, the number of arguments is in the limits. -/
theorem arity_of_score? {casts : CastRegistry} {args : List DataType} (h : (d.score? casts args).isSome = true)
    (hp : d.isPassthrough args.length = false) : d.minArgs ≤ args.length ∧ args.length ≤ d.maxArgs := by
  unfold score? at h
  rw [hp] at h
  simp only [Bool.false_eq_true, if_false] at h
  split at h
  · cases h
  · omega

private theorem exists_of_mapM {α β : Type} {f : α → Option β} {l : List α} {l' : List β} (h : l.mapM f = some l') :
    ∀ a ∈ l, ∃ b, f a = some b := by
  induction l generalizing l' with
  | nil => exact fun a ha => absurd ha List.not_mem_nil
  | cons a l ih =>
    rw [List.mapM_cons] at h
    simp only [Option.bind_eq_bind, Option.bind_eq_some_iff] at h
    obtain ⟨b, hb, rest, hrest, -⟩ := h
    exact List.forall_mem_cons.2 ⟨⟨b, hb⟩, ih hrest⟩

/-- A definition that accepts a call has a parameter for each argument, and the type of the argument is at some distance
from it. -/
theorem exists_param_of_score? (h : (d.score? casts types).isSome = true) {i : Nat} (ht : types[i]? = some t) :
    ∃ p, d.paramType? i = some p ∧ (casts.distance? t p).isSome = true := by
  unfold score? at h
  split at h
  · next hpass =>
    have hone : types.length = 1 := by
      simp only [isPassthrough, Bool.and_eq_true, decide_eq_true_eq] at hpass
      exact hpass.1.2
    obtain ⟨only, rfl⟩ := List.length_eq_one_iff.1 hone
    obtain ⟨rfl, rfl⟩ : i = 0 ∧ only = t := by
      cases i with
      | zero => exact ⟨rfl, Option.some.inj ht⟩
      | succ i => cases ht
    simp only [List.head?_cons, Option.bind_some] at h
    cases hp : d.paramType? 0 with
    | none =>
      rw [hp] at h
      cases h
    | some p =>
      rw [hp] at h
      exact ⟨p, rfl, h⟩
  split at h
  · cases h
  · obtain ⟨distance, hdistance⟩ := Option.isSome_iff_exists.1 h
    simp only [Option.bind_eq_bind, Option.bind_eq_some_iff] at hdistance
    obtain ⟨distances, hall, -⟩ := hdistance
    obtain ⟨b, hb⟩ := exists_of_mapM hall (t, i) (List.mk_mem_zipIdx_iff_getElem?.2 ht)
    simp only [Option.bind_eq_bind, Option.bind_eq_some_iff] at hb
    obtain ⟨p, hp, hb⟩ := hb
    exact ⟨p, hp, Option.isSome_iff_exists.2 ⟨b, hb⟩⟩

theorem length_paramsFor_of_score? (h : (d.score? casts types).isSome = true) :
    (d.paramsFor types.length).length = types.length := by
  cases types with
  | nil => rfl
  | cons t types =>
    obtain ⟨p, hp, -⟩ := exists_param_of_score? h (List.getElem?_cons_zero : (t :: types)[0]? = some t)
    refine length_paramsFor (fun hnone => ?_) _
    unfold paramType? at hp
    rw [hnone] at hp
    cases hp

end FunctionDef

/-! ### Choices -/

/-- A call picks a definition of the group that accepts the types of its arguments. -/
theorem FunctionGroup.resolve?_eq_some {g : FunctionGroup} {casts : CastRegistry} {args : List DataType}
    {r : Resolution} (h : g.resolve? casts args = some r) :
    r.definition ∈ g.defs ∧ (r.definition.score? casts args).isSome = true ∧
      r.passthrough = r.definition.isPassthrough args.length := by
  unfold resolve? at h
  have hdefs : ∀ entry ∈ g.defs.zipIdx, entry.1 ∈ g.defs := fun entry he => List.fst_mem_of_mem_zipIdx he
  revert hdefs h
  generalize g.defs.zipIdx = entries
  induction entries using List.reverseRecOn generalizing r with
  | nil =>
    intro h _
    cases h
  | append_singleton entries entry ih =>
    intro h hdefs
    rw [List.foldl_append, List.foldl_cons, List.foldl_nil] at h
    have hbefore := fun hr : _ = some r => ih hr fun entry he => hdefs entry (List.mem_append_left _ he)
    unfold better at h
    simp only at h
    split at h
    · exact hbefore h
    · next distance hscore =>
      split at h
      · cases h
        exact ⟨hdefs entry (by simp), by rw [hscore]; rfl, rfl⟩
      · exact hbefore h

private theorem better_eq_none_iff {casts : CastRegistry} {types : List DataType} {best : Option Resolution}
    {entry : FunctionDef × Nat} :
    FunctionGroup.better casts types best entry = none ↔ best = none ∧ entry.1.score? casts types = none := by
  unfold FunctionGroup.better
  simp only
  split
  · next hnone => simp [hnone]
  · next distance hscore =>
    rw [hscore]
    refine ⟨fun h => ?_, fun h => by cases h.2⟩
    split at h
    · cases h
    · next hbetter => simp [h] at hbetter

/-- A call picks nothing exactly if no definition of the group accepts it. -/
theorem FunctionGroup.resolve?_eq_none_iff {g : FunctionGroup} {casts : CastRegistry} {types : List DataType} :
    g.resolve? casts types = none ↔ ∀ d ∈ g.defs, d.score? casts types = none := by
  have hfold : ∀ entries : List (FunctionDef × Nat), entries.foldl (better casts types) none = none ↔
      ∀ entry ∈ entries, entry.1.score? casts types = none := by
    intro entries
    induction entries using List.reverseRecOn with
    | nil => simp
    | append_singleton entries entry ih =>
      rw [List.foldl_append, List.foldl_cons, List.foldl_nil, better_eq_none_iff, ih, List.forall_mem_append,
        List.forall_mem_singleton]
  rw [resolve?, hfold]
  constructor
  · intro h d hd
    obtain ⟨i, hi⟩ := List.mem_iff_getElem?.1 hd
    exact h (d, i) (List.mk_mem_zipIdx_iff_getElem?.2 hi)
  · exact fun h entry he => h entry.1 (List.fst_mem_of_mem_zipIdx he)

end Dataflow
