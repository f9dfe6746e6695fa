import Dataflow.Name

/-!
# Names and paths

The names that are accepted are the texts of the form `[A-Za-z_][A-Za-z0-9_]*` (`isValid_iff`).  None of them contains
the point that separates the names of a path, so that a path can be read in one way only: the paths are the lists of
one or more names, written down (`ofPath?_eq_some_iff`).
-/

namespace Dataflow.Name

/-- An ASCII letter or an underscore. -/
def Initial (c : Char) : Prop := ('A' ≤ c ∧ c ≤ 'Z') ∨ ('a' ≤ c ∧ c ≤ 'z') ∨ c = '_'

/-- An ASCII letter or digit, or an underscore. -/
def Following (c : Char) : Prop := Initial c ∨ ('0' ≤ c ∧ c ≤ '9')

/-- The text is of the form `[A-Za-z_][A-Za-z0-9_]*`. -/
def WellFormed (s : String) : Prop := ∃ c rest, s.toList = c :: rest ∧ Initial c ∧ ∀ d ∈ rest, Following d

private theorem isInitial_iff {c : Char} : isInitial c = true ↔ Initial c := by
  have hupper : c.isUpper = true ↔ 'A' ≤ c ∧ c ≤ 'Z' := decide_eq_true_iff
  have hlower : c.isLower = true ↔ 'a' ≤ c ∧ c ≤ 'z' :=
    (Bool.and_eq_true_iff ..).trans (and_congr decide_eq_true_iff decide_eq_true_iff)
  have halpha : c.isAlpha = true ↔ c.isUpper = true ∨ c.isLower = true := Bool.or_eq_true_iff ..
  rw [isInitial, Bool.or_eq_true, decide_eq_true_iff, halpha, hupper, hlower, or_assoc]
  rfl

private theorem isFollowing_iff {c : Char} : isFollowing c = true ↔ Following c := by
  have hdigit : c.isDigit = true ↔ '0' ≤ c ∧ c ≤ '9' := by
    simp only [Char.isDigit, Bool.and_eq_true, decide_eq_true_eq, ge_iff_le]
    rfl
  unfold isFollowing Following
  rw [← isInitial_iff, ← hdigit]
  simp only [isInitial, Char.isAlphanum, Bool.or_eq_true]
  exact or_right_comm

/-- A text is a valid name exactly if it is of the form `[A-Za-z_][A-Za-z0-9_]*`. -/
theorem isValid_iff {s : String} : isValid s = true ↔ WellFormed s := by
  unfold isValid WellFormed
  cases s.toList with
  | nil => simp [isName]
  | cons c rest =>
    simp only [isName, Bool.and_eq_true, isInitial_iff, List.all_eq_true, isFollowing_iff, List.cons.injEq]
    constructor
    · exact fun h => ⟨c, rest, ⟨rfl, rfl⟩, h⟩
    · rintro ⟨_, _, ⟨rfl, rfl⟩, h⟩
      exact h

/-! ### Paths -/

/-- The pieces of a text are those between its points. -/
theorem pieces_eq_splitOn (cs : List Char) : pieces cs = cs.splitOn '.' := by
  induction cs with
  | nil => rfl
  | cons c cs ih =>
    rw [pieces, ih, List.splitOn_cons_eq_if_modifyHead]
    simp only [beq_iff_eq]
    split
    · rfl
    · cases hrest : cs.splitOn '.' with
      | nil => exact absurd hrest (List.splitOn_ne_nil _ _)
      | cons piece more => rfl

/-- No name contains the point that separates names. -/
theorem point_notMem_of_isValid {s : String} (h : isValid s = true) : '.' ∉ s.toList := by
  obtain ⟨c, rest, hs, hc, hrest⟩ := isValid_iff.1 h
  have hpoint : ¬ Following '.' := by
    unfold Following Initial
    decide
  rw [hs, List.mem_cons, not_or]
  exact ⟨fun he => hpoint (.inl (he ▸ hc)), fun hm => hpoint (hrest _ hm)⟩

/-- A path can be read in one way: it is made of one or more names, written down. -/
theorem ofPath?_eq_some_iff {path : String} {names : List String} :
    ofPath? path = some names ↔ names ≠ [] ∧ (∀ s ∈ names, isValid s = true) ∧ path = toPath names := by
  have htext : (String.ofList ∘ String.toList : String → String) = id := funext fun s => String.ofList_toList
  have hchars : (String.toList ∘ String.ofList : List Char → List Char) = id := funext fun l => String.toList_ofList
  unfold ofPath? toPath
  simp only [pieces_eq_splitOn]
  constructor
  · intro h
    split at h
    · next hall =>
      cases h
      refine ⟨?_, fun s hs => ?_, ?_⟩
      · rw [Ne, List.map_eq_nil_iff]
        exact List.splitOn_ne_nil '.' path.toList
      · obtain ⟨l, hl, rfl⟩ := List.mem_map.1 hs
        rw [isValid, String.toList_ofList]
        exact List.all_eq_true.1 hall l hl
      · rw [List.map_map, hchars, List.map_id, List.intercalate_splitOn, String.ofList_toList]
    · cases h
  · rintro ⟨hne, hvalid, rfl⟩
    have hsplit : (List.intercalate ['.'] (names.map String.toList)).splitOn '.' = names.map String.toList := by
      refine List.splitOn_intercalate '.' (fun l hl => ?_) (by simpa using hne)
      obtain ⟨s, hs, rfl⟩ := List.mem_map.1 hl
      exact point_notMem_of_isValid (hvalid s hs)
    have hall : (names.map String.toList).all isName = true := by
      rw [List.all_map, List.all_eq_true]
      exact hvalid
    rw [String.toList_ofList, hsplit, if_pos hall, List.map_map, htext, List.map_id]

end Dataflow.Name
