import Dataflow.Proofs.Engine.Calls
import Dataflow.Proofs.Resolution

/-!
# Arguments that need no conversion

A score is a sum of distances, and nothing else tells whether a type is that of the parameter.  So what a choice makes of
arguments of the very types of the parameters depends on the distances: with a conversion of weight 0, its source counts
as if it were its target.  Without one (`CastRegistry.Weighted`), a score of 0 means that there is nothing to convert.

* `FunctionDef.score?_eq_zero_iff`: a definition has the score 0 if the types are those of its parameters;
* `CastRegistry.exactFirst_iff`: arguments that some definition takes as they are, are converted by no call, and a
  definition that needs such an argument finds one, exactly if no conversion has weight 0.
-/

namespace Dataflow

open Dataflow.Graph

/-! ### Distances of 0 -/

/-- Every implicit conversion counts for something. -/
def CastRegistry.Weighted (casts : CastRegistry) : Prop :=
  ∀ s t rule, s ≠ t → casts.rule? s t = some rule → rule.weight? ≠ some 0

namespace CastRegistry

variable {casts : CastRegistry} {s t : DataType}

private theorem weighted_empty : empty.Weighted := fun s t rule _ h => by cases s <;> cases t <;> cases h

/-- Registering a conversion of another weight than 0 leaves all implicit ones counting for something. -/
theorem Weighted.register (h : casts.Weighted) (s t : DataType) {rule : CastRule} (hrule : rule.weight? ≠ some 0) :
    (casts.register s t rule).Weighted := by
  intro s' t' other hne hother
  rw [rule?_register] at hother
  split at hother
  · cases hother
    exact hrule
  · exact h s' t' other hne hother

/-- The usual conversions all count for something. -/
theorem weighted_standard : standard.Weighted := by
  refine List.foldlRecOn _ _ weighted_empty fun casts h entry hentry => h.register _ _ ?_
  revert entry
  simp

/-- If all implicit conversions count for something, only equal types are at distance 0. -/
theorem Weighted.distance?_eq_zero_iff (h : casts.Weighted) : casts.distance? s t = some 0 ↔ s = t := by
  refine ⟨fun hzero => ?_, fun hsame => hsame ▸ casts.distance?_self s⟩
  by_contra hne
  rw [distance?, if_neg hne] at hzero
  obtain ⟨rule, hrule, hweight⟩ := Option.bind_eq_some_iff.1 hzero
  exact absurd hweight (h s t rule hne hrule)

end CastRegistry

namespace FunctionDef

variable {d : FunctionDef} {casts : CastRegistry} {types : List DataType} {s : Nat}

/-- Nothing has to be converted if the types are those of the parameters. -/
theorem mismatched_eq_nil_iff : d.mismatched types = [] ↔ ∀ i < types.length, d.paramType? i = types[i]? := by
  unfold mismatched
  rw [List.filter_eq_nil_iff]
  refine forall_congr' fun i => ?_
  rw [List.mem_range, decide_eq_true_eq, ne_eq, not_not]

/-- A definition that accepts a call is at a distance from each argument, and its score is 0 if all of them are. -/
private theorem exists_distances (h : d.score? casts types = some s) :
    ∃ distances : List Nat, distances.length = types.length ∧
      (∀ i t, types[i]? = some t → ∃ p, d.paramType? i = some p ∧ casts.distance? t p = distances[i]?) ∧
      (s = 0 ↔ ∀ x ∈ distances, x = 0) := by
  cases hpass : d.isPassthrough types.length with
  | true =>
    obtain ⟨t, rfl⟩ := List.length_eq_one_iff.1 (FunctionGroup.isPassthrough_iff.1 hpass).2.1
    rw [score?, if_pos hpass, List.head?_cons, Option.bind_some, Option.bind_eq_some_iff] at h
    obtain ⟨p, hp, hs⟩ := h
    refine ⟨[s], rfl, fun i u hu => ?_, by simp⟩
    cases i with
    | zero => exact ⟨p, hp, Option.some.inj hu ▸ hs⟩
    | succ i => cases hu
  | false =>
    obtain ⟨distances, htakes, rfl⟩ := (score?_eq_some_iff hpass).1 h
    refine ⟨distances, htakes.length, fun i t ht => ?_, ?_⟩
    · rw [paramType?_eq_getElem?]
      exact htakes.converts i t ht
    · have hmax : 0 < maxScore := by decide
      rw [← List.sum_eq_zero_iff]
      omega

/-- A score of 0 is that of a call in which nothing has to be converted. -/
theorem score?_eq_zero_iff (hw : casts.Weighted) (h : d.score? casts types = some s) :
    s = 0 ↔ d.mismatched types = [] := by
  obtain ⟨distances, hlength, hconverts, hzero⟩ := exists_distances h
  have hposition : ∀ (i : Nat) (hi : i < distances.length), distances[i] = 0 ↔ d.paramType? i = types[i]? := by
    intro i hi
    have hlt : i < types.length := hlength ▸ hi
    obtain ⟨p, hp, hdistance⟩ := hconverts i _ (List.getElem?_eq_getElem hlt)
    rw [List.getElem?_eq_getElem hi] at hdistance
    rw [hp, List.getElem?_eq_getElem hlt, Option.some.injEq, eq_comm (a := p), ← hw.distance?_eq_zero_iff, hdistance,
      Option.some.injEq]
  rw [hzero, mismatched_eq_nil_iff, List.forall_mem_iff_getElem]
  exact ⟨fun h i hi => (hposition i (hlength ▸ hi)).1 (h i _), fun h i hi => (hposition i hi).2 (h i (hlength ▸ hi))⟩

/-- A definition that needs an argument as it is finds one. -/
private theorem exists_matched (hw : casts.Weighted) (h : d.score? casts types = some s)
    (hneeds : d.needsExact = true) (hpass : d.isPassthrough types.length = false) (hne : types ≠ []) :
    ∃ i < types.length, d.paramType? i = types[i]? := by
  obtain ⟨distances, htakes, -⟩ := (score?_eq_some_iff hpass).1 h
  obtain ⟨i, hi, hzero⟩ := List.getElem_of_mem ((htakes.exact hneeds).resolve_left hne)
  have hlt : i < types.length := htakes.length ▸ hi
  obtain ⟨p, hp, hdistance⟩ := htakes.converts i _ (List.getElem?_eq_getElem hlt)
  rw [List.getElem?_eq_getElem hi, hzero, hw.distance?_eq_zero_iff] at hdistance
  exact ⟨i, hlt, by rw [paramType?_eq_getElem?, hp, List.getElem?_eq_getElem hlt, hdistance]⟩

end FunctionDef

/-! ### Choices and calls -/

/-- Some definition of the group accepts the types, and they are those of its parameters. -/
def FunctionGroup.FitsExactly (g : FunctionGroup) (casts : CastRegistry) (types : List DataType) : Prop :=
  ∃ d ∈ g.defs, (d.score? casts types).isSome = true ∧ ∀ i < types.length, d.paramType? i = types[i]?

/-- The call is not refused, and it gives its argument back, or it creates a single node, which reads the arguments
themselves. -/
def Engine.CallsAsIs {σ : Type} (e : Engine σ) (id : NodeId) (args : List NodeId) : Prop :=
  (∃ a, args = [a] ∧ e.call id args = (.ok a, e)) ∨
  ∃ x n, (e.call id args).1 = .ok x ∧ e.graph.node? x = none ∧ (e.call id args).2.graph.node? x = some n ∧
    n.parents = args ∧ (e.call id args).2.nodeCount = e.nodeCount + 1

/-- Arguments that can be taken as they are come before any that have to be converted. -/
structure CastRegistry.ExactFirst (casts : CastRegistry) : Prop where
  /-- If some definition takes arguments of the types as they are, so does the one that is chosen. -/
  chosen : ∀ (g : FunctionGroup) (types : List DataType), g.FitsExactly casts types →
    ∃ r, g.resolve? casts types = some r ∧ ∀ i < types.length, r.definition.paramType? i = types[i]?
  /-- A call of such a group converts nothing. -/
  call : ∀ {σ : Type} {created : Nat} {e : Engine σ}, Reachable created e → e.casts = casts →
    ∀ (id : NodeId) (g : FunctionGroup) (args : List NodeId) (types : List DataType), e.functionGroup id = .ok g →
      List.Forall₂ e.graph.HasType args types → g.FitsExactly casts types → e.CallsAsIs id args
  /-- A definition that rejects calls in which every argument needs a conversion is not chosen for them. -/
  needing : ∀ (g : FunctionGroup) (types : List DataType) (r : Resolution), g.resolve? casts types = some r →
    r.definition.needsExact = true → r.passthrough = false → types ≠ [] →
      ∃ i < types.length, r.definition.paramType? i = types[i]?

namespace CastRegistry.Weighted

variable {casts : CastRegistry} {g : FunctionGroup} {types : List DataType}

private theorem exists_exact (hw : casts.Weighted) (h : g.FitsExactly casts types) :
    ∃ r, g.resolve? casts types = some r ∧ r.definition.mismatched types = [] := by
  obtain ⟨d, hd, hscore, hfits⟩ := h
  obtain ⟨r, hr⟩ := Option.isSome_iff_exists.1 (FunctionGroup.isSome_resolve?_iff.2 ⟨d, hd, hscore⟩)
  have hleads := FunctionGroup.resolve?_eq_some_iff.1 hr
  obtain ⟨s, hs⟩ := Option.isSome_iff_exists.1 hscore
  obtain ⟨i, hi⟩ := List.mem_iff_getElem?.1 hd
  have hzero : s = 0 := (FunctionDef.score?_eq_zero_iff hw hs).2 (FunctionDef.mismatched_eq_nil_iff.2 hfits)
  have hleast := hleads.least i d s hi hs
  exact ⟨r, hr, (FunctionDef.score?_eq_zero_iff hw hleads.score).1 (by omega)⟩

private theorem callsAsIs (hw : casts.Weighted) {σ : Type} {created : Nat} {e : Engine σ} (h : Reachable created e)
    (hcasts : e.casts = casts) {id : NodeId} {args : List NodeId} (hg : e.functionGroup id = .ok g)
    (ht : List.Forall₂ e.graph.HasType args types) (hfits : g.FitsExactly casts types) : e.CallsAsIs id args := by
  obtain ⟨r, hr, hmatch⟩ := hw.exists_exact hfits
  rw [← hcasts] at hr
  cases hpass : r.definition.isPassthrough args.length with
  | true => exact .inl (Engine.call_of_passthrough hg ht hr hpass)
  | false =>
    unfold Engine.CallsAsIs
    rw [Engine.call_of_some hg ht hr hpass]
    have hscore : (r.definition.score? e.casts types).isSome = true := (FunctionGroup.resolve?_eq_some hr).2.1
    rcases Engine.build_cases h.sound.graph.store ht hscore with ⟨⟨x, wired, hx, hbuilt⟩, -⟩ | ⟨-, i, hi, -⟩
    · obtain ⟨n, hn, -, hparents⟩ := hbuilt.node
      have hlength := hbuilt.length
      have hwired : wired = args := by
        refine List.ext_getElem? fun i => ?_
        by_cases hi : i < args.length
        · exact hbuilt.asIs i hi (by rw [hmatch]; exact List.not_mem_nil)
        · rw [List.getElem?_eq_none (by omega), List.getElem?_eq_none (by omega)]
      have hcount := hbuilt.count
      rw [hmatch] at hcount
      exact .inr ⟨x, n, hx, hbuilt.fresh, hn, hparents.trans hwired, hcount⟩
    · rw [hmatch] at hi
      cases hi

/-- If all implicit conversions count for something, exact arguments are preferred, and required where they are asked
for. -/
theorem exactFirst (hw : casts.Weighted) : casts.ExactFirst where
  chosen _ _ hfits := (hw.exists_exact hfits).imp fun _ => And.imp_right FunctionDef.mismatched_eq_nil_iff.1
  call h hcasts _ _ _ _ hg ht hfits := hw.callsAsIs h hcasts hg ht hfits
  needing _ _ _ hr hneeds hpass hne := by
    have hleads := FunctionGroup.resolve?_eq_some_iff.1 hr
    exact FunctionDef.exists_matched hw hleads.score hneeds (hleads.passthrough.symm.trans hpass) hne

end CastRegistry.Weighted

/-- A function of one argument of the type that needs no conversion. -/
def exactly (t : DataType) : FunctionDef := .needingExact (.value "exactly" [t] t ⟨"exactly", fun _ _ => none⟩)

/-- With a conversion of weight 0, a definition that needs an argument as it is takes one that has to be converted. -/
private theorem resolve?_exactly {casts : CastRegistry} {s t : DataType} (h : casts.distance? s t = some 0) :
    FunctionGroup.resolve? ⟨"exactly", [exactly t]⟩ casts [s] = some ⟨exactly t, 0, 0, false⟩ := by
  have hscore : (exactly t).score? casts [s] = some 0 := by
    refine (FunctionDef.score?_eq_some_iff rfl).2 ⟨[0], ⟨Nat.le_refl 1, Nat.le_refl 1, rfl, fun i u hu => ?_, ?_⟩, rfl⟩
    · cases i with
      | zero => exact ⟨t, rfl, Option.some.inj hu ▸ h⟩
      | succ i => cases hu
    · exact fun _ => .inr List.mem_cons_self
  refine FunctionGroup.resolve?_eq_some_iff.2 ⟨rfl, hscore, rfl, fun i d u _ _ => Nat.zero_le u, fun i d u _ _ hi => ?_⟩
  exact absurd hi (Nat.not_lt_zero i)

/-- Arguments that can be taken as they are come first exactly if no conversion has weight 0. -/
theorem CastRegistry.exactFirst_iff {casts : CastRegistry} : casts.ExactFirst ↔ casts.Weighted := by
  refine ⟨fun h s t rule hne hrule hweight => ?_, Weighted.exactFirst⟩
  have hdistance : casts.distance? s t = some 0 := by rw [distance?, if_neg hne, hrule, Option.bind_some, hweight]
  obtain ⟨i, hi, hmatch⟩ := h.needing _ _ _ (resolve?_exactly hdistance) rfl rfl (List.cons_ne_nil s [])
  obtain rfl : i = 0 := by simpa using hi
  exact hne (Option.some.inj hmatch).symm

/-- The usual conversions, but the one from integers to doubles counts for nothing. -/
def CastRegistry.weightless : CastRegistry :=
  standard.register .int .double ⟨some 0, .map "int_to_double" Conversion.intToDouble⟩

/-- A function of doubles, with a definition for integers after it. -/
def doubleFirst : FunctionGroup := ⟨"exactly", [exactly .double, exactly .int]⟩

/-- The integer is converted to a double, although both definitions ask for an argument that is not converted, and one
of them takes integers. -/
theorem weightless_converts :
    doubleFirst.FitsExactly CastRegistry.weightless [.int] ∧
    (doubleFirst.resolve? CastRegistry.weightless [.int]).map
      (fun r => (r.index, r.distance, r.passthrough, r.definition.needsExact, r.definition.mismatched [.int])) =
        some (0, 0, false, true, [0]) ∧
    ¬ CastRegistry.weightless.ExactFirst := by
  have hfits : doubleFirst.FitsExactly CastRegistry.weightless [.int] :=
    ⟨exactly .int, by simp [doubleFirst], by decide +kernel, by decide +kernel⟩
  refine ⟨hfits, by decide +kernel, fun h => ?_⟩
  obtain ⟨r, hr, hmatch⟩ := h.chosen doubleFirst [.int] hfits
  have hchoice : (doubleFirst.resolve? CastRegistry.weightless [.int]).map (fun r => r.definition.paramType? 0) =
      some (some .double) := by decide +kernel
  rw [hr, Option.map_some, hmatch 0 Nat.one_pos] at hchoice
  cases hchoice

end Dataflow
