import Dataflow.Text.Blank
import Mathlib.Data.List.DropRight

/-!
# Trimming

Every text is some blanks, a text that neither begins nor ends with a blank, and some blanks again, and the text between
them is the same however the text is taken apart.  It is what trimming leaves (`trim_eq_iff`).
-/

namespace Dataflow.Text

/-- The text consists of blanks. -/
def AllBlank (s : List Char) : Prop := ∀ c ∈ s, isBlank c = true

/-- The text neither begins nor ends with a blank. -/
structure IsBare (s : List Char) : Prop where
  head : ∀ c ∈ s.head?, isBlank c = false
  last : ∀ c ∈ s.getLast?, isBlank c = false

/-- The first text is the second, which is bare, between blanks. -/
def Pads (s core : List Char) : Prop :=
  IsBare core ∧ ∃ u w, AllBlank u ∧ AllBlank w ∧ s = u ++ core ++ w

variable {s core u w : List Char}

private theorem AllBlank.reverse (h : AllBlank s) :
    AllBlank s.reverse := fun c hc => h c (List.mem_reverse.1 hc)

private theorem dropWhile_padded (hu : AllBlank u) (hs : ∀ c ∈ s.head?, isBlank c = false) :
    (u ++ s).dropWhile isBlank = s := by
  rw [List.dropWhile_append_of_pos hu]
  cases s with
  | nil => rfl
  | cons c s => exact List.dropWhile_cons_of_neg (by simp [hs c rfl])

/-- Trimming takes the blanks away from a bare text and no more. -/
theorem trim_padded (h : IsBare core) (hu : AllBlank u) (hw : AllBlank w) : trim (u ++ core ++ w) = core := by
  unfold trim
  rw [List.append_assoc]
  cases core with
  | nil =>
    -- Blanks only: all of them go from the front.
    have hnone : (u ++ w).dropWhile isBlank = [] :=
      List.dropWhile_eq_nil_iff.2 fun c hc => (List.mem_append.1 hc).elim (hu c) (hw c)
    rw [List.nil_append, hnone]
    rfl
  | cons c rest =>
    have hfront : (u ++ (c :: rest ++ w)).dropWhile isBlank = c :: rest ++ w := dropWhile_padded hu h.head
    have hback : (w.reverse ++ (c :: rest).reverse).dropWhile isBlank = (c :: rest).reverse := by
      refine dropWhile_padded hw.reverse ?_
      rw [List.head?_reverse]
      exact h.last
    rw [hfront, List.reverse_append, hback, List.reverse_reverse]

private theorem head_dropWhile (s : List Char) : ∀ c ∈ (s.dropWhile isBlank).head?, isBlank c = false := by
  intro c hc
  have hnot := List.head?_dropWhile_not isBlank s
  rwa [hc] at hnot

/-- What trimming takes away are blanks, and what it leaves is bare. -/
theorem pads_trim (s : List Char) : Pads s (trim s) := by
  have hback : trim s ++ (s.dropWhile isBlank).rtakeWhile isBlank = s.dropWhile isBlank :=
    List.rdropWhile_append_rtakeWhile
  refine ⟨⟨fun c hc => ?_, fun c hc => ?_⟩, s.takeWhile isBlank, (s.dropWhile isBlank).rtakeWhile isBlank,
    fun c => List.mem_takeWhile_imp, fun c => List.mem_rtakeWhile_imp, ?_⟩
  · -- What is left begins as the text without the blanks in front does.
    refine head_dropWhile s c ?_
    rw [← hback, List.head?_append, hc]
    rfl
  · rw [trim, List.getLast?_reverse] at hc
    exact head_dropWhile _ c hc
  · rw [List.append_assoc, hback, List.takeWhile_append_dropWhile]

/-- Trimming leaves the one bare text that the text is, apart from blanks around it. -/
theorem trim_eq_iff : trim s = core ↔ Pads s core := by
  constructor
  · rintro rfl
    exact pads_trim s
  · rintro ⟨hbare, u, w, hu, hw, rfl⟩
    exact trim_padded hbare hu hw

end Dataflow.Text
