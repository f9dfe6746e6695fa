import Dataflow.Proofs.Overload
import Mathlib.Algebra.Order.Ring.Nat

/-!
# The choice of a definition

The definitions of a group are compared in the order in which they were declared, and one takes the place of the best
so far only if its score is less.  So the choice has the least score of all definitions that have one, and of those with
the least score it is the first (`Leads`); there is no other such definition.

* `FunctionDef.score?_eq_scan`: a score adds up the distances from left to right, each sum capped, up to the first
  argument without a conversion;
* `FunctionDef.score?_eq_some_iff`: which calls have a score, and which;
* `FunctionGroup.resolve?_eq_some_iff`: the choice is the definition that leads;
* `FunctionGroup.chooses`: all of it, for every registry, group and list of types.
-/

namespace Dataflow

/-! ### Scores -/

namespace FunctionDef

variable {d : FunctionDef} {casts : CastRegistry} {types : List DataType}

private theorem mapM_zipIdx_eq_some_iff {α β : Type} {f : α × Nat → Option β} {l : List α} {k : Nat} {l' : List β} :
    (l.zipIdx k).mapM f = some l' ↔ l'.length = l.length ∧ ∀ i a, l[i]? = some a → f (a, k + i) = l'[i]? := by
  induction l generalizing k l' with
  | nil =>
    rw [List.zipIdx_nil, List.mapM_nil, List.length_nil, List.length_eq_zero_iff]
    exact ⟨fun h => ⟨(Option.some.inj h).symm, fun i a ha => by cases ha⟩, fun h => h.1 ▸ rfl⟩
  | cons a l ih =>
    rw [List.zipIdx_cons, List.mapM_cons]
    simp only [Option.bind_eq_bind, Option.bind_eq_some_iff, ih]
    constructor
    · rintro ⟨b, hb, rest, ⟨hlength, hrest⟩, h⟩
      cases h
      refine ⟨by rw [List.length_cons, List.length_cons, hlength], fun i c hc => ?_⟩
      cases i with
      | zero => rw [← Option.some.inj hc, Nat.add_zero, hb, List.getElem?_cons_zero]
      | succ i => rw [List.getElem?_cons_succ, ← hrest i c hc, Nat.add_right_comm, Nat.add_assoc]
    · rintro ⟨hlength, h⟩
      cases l' with
      | nil => cases hlength
      | cons b rest =>
        refine ⟨b, h 0 a rfl, rest, ⟨Nat.succ.inj hlength, fun i c hc => ?_⟩, rfl⟩
        have hnext := h (i + 1) c hc
        rwa [List.getElem?_cons_succ, ← Nat.add_assoc, Nat.add_right_comm] at hnext

/-- The last parameter repeats. -/
theorem paramType?_eq_getElem? (d : FunctionDef) (i : Nat) : d.paramType? i = d.params[min i (d.params.length - 1)]? := by
  unfold paramType?
  rw [List.getLast?_eq_getElem?]
  by_cases hi : i < d.params.length
  · rw [List.getElem?_eq_getElem hi, Nat.min_eq_left (by omega), List.getElem?_eq_getElem hi]
    rfl
  · rw [List.getElem?_eq_none (by omega), Nat.min_eq_right (by omega)]
    rfl

/-- There is a distance for each argument if each can be converted to the parameter at its position. -/
theorem distances?_eq_some_iff {distances : List Nat} :
    d.distances? casts types = some distances ↔ distances.length = types.length ∧
      ∀ i t, types[i]? = some t →
        ∃ p, d.params[min i (d.params.length - 1)]? = some p ∧ casts.distance? t p = distances[i]? := by
  unfold distances?
  rw [mapM_zipIdx_eq_some_iff]
  refine and_congr_right fun hlength => forall_congr' fun i => forall_congr' fun t => forall_congr' fun ht => ?_
  have hi : i < distances.length := hlength ▸ (List.getElem?_eq_some_iff.1 ht).1
  simp only [Nat.zero_add, Option.bind_eq_bind, paramType?_eq_getElem?, List.getElem?_eq_getElem hi,
    Option.bind_eq_some_iff]

/-- Goes through the arguments with their positions, up to the first one without a conversion.  Adds up the distances,
each sum capped, and notes whether some distance was 0. -/
def scan (d : FunctionDef) (casts : CastRegistry) : List (DataType × Nat) → Nat → Bool → Option (Nat × Bool)
  | [], total, exact => some (total, exact)
  | (arg, i) :: rest, total, exact =>
    ((d.paramType? i).bind (casts.distance? arg)).bind fun distance =>
      scan d casts rest (min maxScore (total + distance)) (exact || distance = 0)

private theorem scan_eq (args : List (DataType × Nat)) {total : Nat} (htotal : total ≤ maxScore) (exact : Bool) :
    d.scan casts args total exact =
      (args.mapM fun arg => (d.paramType? arg.2).bind (casts.distance? arg.1)).map fun distances =>
        (min maxScore (total + distances.foldr (· + ·) 0), exact || decide (0 ∈ distances)) := by
  induction args generalizing total exact with
  | nil => simp [scan, htotal]
  | cons arg rest ih =>
    obtain ⟨t, i⟩ := arg
    unfold scan
    rw [List.mapM_cons]
    cases (d.paramType? i).bind (casts.distance? t) with
    | none => rfl
    | some distance =>
      simp only [Option.bind_some, Option.bind_eq_bind]
      rw [ih (Nat.min_le_left _ _)]
      cases rest.mapM fun arg => (d.paramType? arg.2).bind (casts.distance? arg.1) with
      | none => rfl
      | some distances =>
        have hsum : min maxScore (min maxScore (total + distance) + distances.foldr (· + ·) 0) =
            min maxScore (total + (distance + distances.foldr (· + ·) 0)) := by omega
        simp only [Option.map_some, Option.bind_some, Option.pure_def, List.foldr_cons, hsum, List.mem_cons,
          Bool.decide_or, Bool.or_assoc, eq_comm]

/-- A score adds up the distances one argument after the other.  A sum that reaches the cap stays there. -/
theorem score?_eq_scan (hpass : d.isPassthrough types.length = false) :
    d.score? casts types =
      if types.length < d.minArgs ∨ d.maxArgs < types.length then none
      else (d.scan casts types.zipIdx 0 false).bind fun (total, exact) =>
        if d.needsExact ∧ exact = false ∧ types ≠ [] then none else some total := by
  unfold score? distances?
  rw [hpass, scan_eq _ (Nat.zero_le _)]
  simp only [Bool.false_eq_true, if_false]
  split
  · rfl
  · simp only [Option.bind_eq_bind, Option.bind_map, Function.comp_def, Nat.zero_add, Bool.false_or,
      decide_eq_false_iff_not, and_comm]

/-- The definition takes arguments of the types, at the given distances from its parameters. -/
structure Takes (d : FunctionDef) (casts : CastRegistry) (types : List DataType) (distances : List Nat) : Prop where
  atLeast : d.minArgs ≤ types.length
  atMost : types.length ≤ d.maxArgs
  length : distances.length = types.length
  /-- An argument that is not of the type of its parameter has an implicit conversion to it. -/
  converts : ∀ i t, types[i]? = some t →
    ∃ p, d.params[min i (d.params.length - 1)]? = some p ∧ casts.distance? t p = distances[i]?
  exact : d.needsExact = true → types = [] ∨ 0 ∈ distances

/-- The score of a call that is not passed through. -/
theorem score?_eq_some_iff (hpass : d.isPassthrough types.length = false) {s : Nat} :
    d.score? casts types = some s ↔ ∃ distances, d.Takes casts types distances ∧ s = min maxScore distances.sum := by
  have hiff : d.score? casts types = some s ↔ (d.minArgs ≤ types.length ∧ types.length ≤ d.maxArgs) ∧
      ∃ distances, d.distances? casts types = some distances ∧ (d.needsExact = true → types = [] ∨ 0 ∈ distances) ∧
        s = min maxScore distances.sum := by
    unfold score?
    rw [hpass]
    simp only [Bool.false_eq_true, if_false]
    split
    · next harity =>
      exact ⟨nofun, fun h => absurd h.1 (by omega)⟩
    · next harity =>
      simp only [Option.bind_eq_bind, Option.bind_eq_some_iff]
      refine ⟨fun h => ⟨by omega, ?_⟩, fun h => ?_⟩
      · obtain ⟨distances, hdistances, h⟩ := h
        refine ⟨distances, hdistances, ?_⟩
        split at h
        · cases h
        · next hexact =>
          refine ⟨fun hneeds => ?_, (Option.some.inj h).symm⟩
          by_contra hnot
          exact hexact ⟨hneeds, not_or.1 hnot⟩
      · obtain ⟨-, distances, hdistances, hexact, rfl⟩ := h
        refine ⟨distances, hdistances, if_neg fun hneeds => ?_⟩
        exact (hexact hneeds.1).elim hneeds.2.1 hneeds.2.2
  rw [hiff]
  constructor
  · rintro ⟨⟨hmin, hmax⟩, distances, hdistances, hexact, hs⟩
    obtain ⟨hlength, hconverts⟩ := distances?_eq_some_iff.1 hdistances
    exact ⟨distances, ⟨hmin, hmax, hlength, hconverts, hexact⟩, hs⟩
  · rintro ⟨distances, h, hs⟩
    exact ⟨⟨h.atLeast, h.atMost⟩, distances, distances?_eq_some_iff.2 ⟨h.length, h.converts⟩, h.exact, hs⟩

end FunctionDef

/-! ### The least score -/

namespace FunctionGroup

variable {casts : CastRegistry} {types : List DataType} {defs : List FunctionDef} {r r' : Resolution}

/-- The resolution is to the first one of the definitions with the least score. -/
structure Leads (casts : CastRegistry) (types : List DataType) (defs : List FunctionDef) (r : Resolution) : Prop where
  definition : defs[r.index]? = some r.definition
  score : r.definition.score? casts types = some r.distance
  passthrough : r.passthrough = r.definition.isPassthrough types.length
  least : ∀ (i : Nat) (d : FunctionDef) (s : Nat), defs[i]? = some d → d.score? casts types = some s → r.distance ≤ s
  first : ∀ (i : Nat) (d : FunctionDef) (s : Nat), defs[i]? = some d → d.score? casts types = some s →
    i < r.index → r.distance < s

/-- At most one candidate leads. -/
theorem Leads.unique (h : Leads casts types defs r) (h' : Leads casts types defs r') : r = r' := by
  have hindex : r.index = r'.index := by
    rcases Nat.lt_trichotomy r.index r'.index with hlt | heq | hgt
    · have hless := h'.first _ _ _ h.definition h.score hlt
      exact absurd (h.least _ _ _ h'.definition h'.score) (by omega)
    · exact heq
    · have hless := h.first _ _ _ h'.definition h'.score hgt
      exact absurd (h'.least _ _ _ h.definition h.score) (by omega)
  have hdefinition : r.definition = r'.definition :=
    Option.some.inj (h.definition.symm.trans ((congrArg (defs[·]?) hindex).trans h'.definition))
  have hdistance : r.distance = r'.distance :=
    Option.some.inj (h.score.symm.trans (hdefinition ▸ h'.score))
  have hpassthrough : r.passthrough = r'.passthrough := by rw [h.passthrough, h'.passthrough, hdefinition]
  cases r
  cases r'
  cases hindex
  cases hdefinition
  cases hdistance
  cases hpassthrough
  rfl

/-- What is known when the definitions so far have been compared. -/
private def Compared (casts : CastRegistry) (types : List DataType) (defs : List FunctionDef) :
    Option Resolution → Prop
  | none => ∀ d ∈ defs, d.score? casts types = none
  | some r => Leads casts types defs r

private theorem getElem?_concat_cases {d c : FunctionDef} {i : Nat} (h : (defs ++ [d])[i]? = some c) :
    defs[i]? = some c ∨ i = defs.length ∧ c = d := by
  by_cases hi : i < defs.length
  · rw [List.getElem?_append_left hi] at h
    exact .inl h
  · have hbound := (List.getElem?_eq_some_iff.1 h).1
    rw [List.length_append, List.length_singleton] at hbound
    obtain rfl : i = defs.length := by omega
    rw [List.getElem?_concat_length] at h
    exact .inr ⟨rfl, (Option.some.inj h).symm⟩

/-- A definition whose score is not less, if it has one, changes nothing. -/
private theorem Leads.concat (h : Leads casts types defs r) {d : FunctionDef}
    (hd : ∀ s, d.score? casts types = some s → r.distance ≤ s) : Leads casts types (defs ++ [d]) r where
  definition := by rw [List.getElem?_append_left (List.getElem?_eq_some_iff.1 h.definition).1, h.definition]
  score := h.score
  passthrough := h.passthrough
  least i c s hc hs := by
    obtain hc | ⟨-, rfl⟩ := getElem?_concat_cases hc
    · exact h.least i c s hc hs
    · exact hd s hs
  first i c s hc hs hi := by
    obtain hc | ⟨rfl, -⟩ := getElem?_concat_cases hc
    · exact h.first i c s hc hs hi
    · exact absurd (List.getElem?_eq_some_iff.1 h.definition).1 (by omega)

/-- A definition whose score is less than that of all before it leads. -/
private theorem leads_concat {d : FunctionDef} {s : Nat} (hs : d.score? casts types = some s)
    (hless : ∀ (i : Nat) (c : FunctionDef) (u : Nat), defs[i]? = some c → c.score? casts types = some u → s < u) :
    Leads casts types (defs ++ [d]) ⟨d, defs.length, s, d.isPassthrough types.length⟩ where
  definition := List.getElem?_concat_length
  score := hs
  passthrough := rfl
  least i c u hc hu := by
    obtain hc | ⟨-, rfl⟩ := getElem?_concat_cases hc
    · exact Nat.le_of_lt (hless i c u hc hu)
    · exact Nat.le_of_eq (Option.some.inj (hs.symm.trans hu))
  first i c u hc hu hi := by
    obtain hc | ⟨rfl, -⟩ := getElem?_concat_cases hc
    · exact hless i c u hc hu
    · exact absurd hi (Nat.lt_irrefl _)

/-- One more definition is compared. -/
private theorem Compared.step {best : Option Resolution} (h : Compared casts types defs best) (d : FunctionDef) :
    Compared casts types (defs ++ [d]) (better casts types best (d, defs.length)) := by
  unfold better
  simp only
  cases hs : d.score? casts types with
  | none =>
    cases best with
    | none => exact List.forall_mem_append.2 ⟨h, List.forall_mem_singleton.2 hs⟩
    | some r => exact Leads.concat h fun s hs' => by rw [hs] at hs'; cases hs'
  | some s =>
    cases best with
    | none =>
      refine leads_concat hs fun i c u hc hu => ?_
      rw [h c (List.mem_of_getElem? hc)] at hu
      cases hu
    | some r =>
      by_cases hless : s < r.distance
      · simp only [Option.all_some, hless, decide_true, if_true]
        exact leads_concat hs fun i c u hc hu => Nat.lt_of_lt_of_le hless (Leads.least h i c u hc hu)
      · simp only [Option.all_some, hless, decide_false, Bool.false_eq_true, if_false]
        refine Leads.concat h fun u hu => ?_
        rw [hs] at hu
        cases hu
        exact Nat.le_of_not_lt hless

private theorem compared (casts : CastRegistry) (types : List DataType) (defs : List FunctionDef) :
    Compared casts types defs (defs.zipIdx.foldl (better casts types) none) := by
  induction defs using List.reverseRecOn with
  | nil => exact fun d hd => absurd hd List.not_mem_nil
  | append_singleton defs d ih =>
    rw [List.zipIdx_append, List.foldl_append, List.zipIdx_singleton, List.foldl_cons, List.foldl_nil, Nat.zero_add]
    exact ih.step d

/-- The choice is the first definition with the least score. -/
theorem resolve?_eq_some_iff {g : FunctionGroup} : g.resolve? casts types = some r ↔ Leads casts types g.defs r := by
  have h := compared casts types g.defs
  unfold resolve?
  constructor
  · intro hr
    rw [hr] at h
    exact h
  · intro hleads
    cases hbest : g.defs.zipIdx.foldl (better casts types) none with
    | none =>
      rw [hbest] at h
      have hnone := h _ (List.mem_of_getElem? hleads.definition)
      rw [hleads.score] at hnone
      cases hnone
    | some best =>
      rw [hbest] at h
      rw [Leads.unique h hleads]

/-! ### Choices -/

/-- What a group chooses for arguments of the types. -/
structure Chooses (g : FunctionGroup) (casts : CastRegistry) (types : List DataType) : Prop where
  /-- There is a choice exactly if some definition has a score. -/
  succeeds : (g.resolve? casts types).isSome = true ↔ ∃ d ∈ g.defs, (d.score? casts types).isSome = true
  /-- The index and the distance are those of the definition that was chosen. -/
  chosen : ∀ r, g.resolve? casts types = some r →
    g.defs[r.index]? = some r.definition ∧ r.definition.score? casts types = some r.distance
  /-- No definition has a smaller score, and those before have a larger one. -/
  least : ∀ r, g.resolve? casts types = some r → ∀ i d s, g.defs[i]? = some d → d.score? casts types = some s →
    r.distance ≤ s ∧ (i < r.index → r.distance < s)
  /-- A single argument is given back where the definition asks for it and needs two or more. -/
  passthrough : ∀ r, g.resolve? casts types = some r → (r.passthrough = true ↔
    r.definition.passesOne = true ∧ types.length = 1 ∧ 2 ≤ r.definition.minArgs)
  /-- Such a definition is at the distance of its first parameter. -/
  passed : ∀ d ∈ g.defs, d.passesOne = true → 2 ≤ d.minArgs → ∀ t, types = [t] →
    d.score? casts types = d.params.head?.bind (casts.distance? t)
  /-- Any other definition scores the calls that it takes, at the sum of the distances. -/
  score : ∀ d ∈ g.defs, ¬ (d.passesOne = true ∧ types.length = 1 ∧ 2 ≤ d.minArgs) → ∀ s,
    d.score? casts types = some s ↔
      ∃ distances, d.Takes casts types distances ∧ s = min FunctionDef.maxScore distances.sum
  /-- The sum is added up from left to right and never exceeds the cap on the way. -/
  scanned : ∀ d ∈ g.defs, ¬ (d.passesOne = true ∧ types.length = 1 ∧ 2 ≤ d.minArgs) →
    d.minArgs ≤ types.length → types.length ≤ d.maxArgs →
      d.score? casts types = (d.scan casts types.zipIdx 0 false).bind fun (total, exact) =>
        if d.needsExact ∧ exact = false ∧ types ≠ [] then none else some total

/-- An argument is passed through if it is alone, the definition passes one through, and it asks for two at least. -/
theorem isPassthrough_iff {d : FunctionDef} {n : Nat} :
    d.isPassthrough n = true ↔ d.passesOne = true ∧ n = 1 ∧ 2 ≤ d.minArgs := by
  simp [FunctionDef.isPassthrough, and_assoc]

private theorem score?_passed {d : FunctionDef} (hone : d.passesOne = true) (hmin : 2 ≤ d.minArgs) (t : DataType) :
    d.score? casts [t] = d.params.head?.bind (casts.distance? t) := by
  have hpass : d.isPassthrough [t].length = true := isPassthrough_iff.2 ⟨hone, rfl, hmin⟩
  have hparam : d.paramType? 0 = d.params.head? := by
    unfold FunctionDef.paramType?
    cases d.params <;> rfl
  rw [FunctionDef.score?, if_pos hpass, List.head?_cons, Option.bind_some, hparam]

/-- There is a choice if some definition has a score. -/
theorem isSome_resolve?_iff {g : FunctionGroup} :
    (g.resolve? casts types).isSome = true ↔ ∃ d ∈ g.defs, (d.score? casts types).isSome = true := by
  rw [← Option.ne_none_iff_isSome, ne_eq, resolve?_eq_none_iff]
  simp only [not_forall, exists_prop, Option.isSome_iff_ne_none, ne_eq]

/-- For all registries, groups and types, the choice is the first definition with the least score. -/
theorem chooses (g : FunctionGroup) (casts : CastRegistry) (types : List DataType) : g.Chooses casts types where
  succeeds := isSome_resolve?_iff
  chosen r hr := ⟨(resolve?_eq_some_iff.1 hr).definition, (resolve?_eq_some_iff.1 hr).score⟩
  least r hr i d s hd hs :=
    ⟨(resolve?_eq_some_iff.1 hr).least i d s hd hs, (resolve?_eq_some_iff.1 hr).first i d s hd hs⟩
  passthrough r hr := by rw [(resolve?_eq_some_iff.1 hr).passthrough, isPassthrough_iff]
  passed d _ hone hmin t ht := ht ▸ score?_passed hone hmin t
  score d _ hpass s := FunctionDef.score?_eq_some_iff (Bool.eq_false_iff.2 (mt isPassthrough_iff.1 hpass))
  scanned d _ hpass hmin hmax := by
    rw [FunctionDef.score?_eq_scan (Bool.eq_false_iff.2 (mt isPassthrough_iff.1 hpass)), if_neg (by omega)]

end FunctionGroup

end Dataflow
