import Dataflow.Proofs.Binary64.Key
import Dataflow.Rule.Operators

/-!
# Values are totally ordered

The order of values is total and ties equal values only, and it is transitive, also where it compares values of different
types.  So of two values either they are equal or one comes before the other, and the rules of the standard library say
which.

For values of one type this comes from the order of the type (here texts and doubles; for truth values and integers it is
known).  Values of different types are in the order of the types (`compare_of_dataType_ne`), so along a chain of values
the types never go back (`rank_le_of_isLE`).

* `compare_eq_iff`, and the instances of `OrientedOrd` and `TransOrd`: the laws of a total order;
* `compare_ordered`: these laws and what the rules say, for any values.
-/

namespace Dataflow

open Std (OrientedCmp OrientedOrd TransCmp TransOrd LawfulEqCmp LawfulEqOrd)

/-! ### Texts and doubles -/

namespace Text

instance : OrientedCmp order := ⟨(order_swap _ _).symm⟩

instance : LawfulEqCmp order where
  compare_self := order_eq_iff.2 rfl
  eq_of_compare := order_eq_iff.1

instance : TransCmp order where
  isLE_trans {s t u} h h' := by
    cases hst : order s t with
    | gt =>
      rw [hst] at h
      cases h
    | eq => rwa [order_eq_iff.1 hst]
    | lt =>
      cases htu : order t u with
      | gt =>
        rw [htu] at h'
        cases h'
      | eq => rwa [← order_eq_iff.1 htu]
      | lt =>
        rw [show order s u = .lt from before_trans hst htu]
        rfl

end Text

namespace Binary64

instance : TransOrd Binary64 := inferInstanceAs (TransCmp (compareOn rank))

instance : LawfulEqOrd Binary64 where
  eq_of_compare h := rank_inj (Std.compare_eq_iff_eq.1 h)

end Binary64

namespace Value

variable {a b c : Value}

/-! ### Values of different types -/

/-- Values of different types compare as their types do. -/
theorem compare_of_dataType_ne (h : a.dataType ≠ b.dataType) :
    compare a b = compare a.dataType.rank b.dataType.rank := by
  cases a <;> cases b <;> first | rfl | exact absurd rfl h

private theorem rank_le_of_isLE (h : (compare a b).isLE) : a.dataType.rank ≤ b.dataType.rank := by
  by_cases ht : a.dataType = b.dataType
  · exact Nat.le_of_eq (congrArg DataType.rank ht)
  · rw [compare_of_dataType_ne ht] at h
    exact Nat.isLE_compare.1 h

private theorem isLE_of_rank_lt (h : a.dataType.rank < b.dataType.rank) : (compare a b).isLE := by
  have ht : a.dataType ≠ b.dataType := fun e => Nat.ne_of_lt h (congrArg DataType.rank e)
  rw [compare_of_dataType_ne ht]
  exact Nat.isLE_compare.2 (Nat.le_of_lt h)

/-! ### The laws of the order -/

/-- Values that compare as equal are equal. -/
theorem compare_eq_iff : compare a b = .eq ↔ a = b := by
  by_cases ht : a.dataType = b.dataType
  · match a, b, ht with
    | bool a, bool b, _ =>
      rw [bool.injEq]
      exact Std.compare_eq_iff_eq (a := a)
    | int a, int b, _ =>
      rw [int.injEq, ← Int64.toInt_inj]
      exact Std.compare_eq_iff_eq (a := a.toInt)
    | double a, double b, _ =>
      rw [double.injEq]
      exact Std.compare_eq_iff_eq (a := a)
    | text a, text b, _ =>
      rw [text.injEq]
      exact Text.order_eq_iff
  · rw [compare_of_dataType_ne ht]
    refine iff_of_false (fun h => ht (DataType.rank_inj (Nat.compare_eq_eq.1 h))) ?_
    rintro rfl
    exact ht rfl

instance : OrientedOrd Value where
  eq_swap {a b} := by
    by_cases ht : a.dataType = b.dataType
    · match a, b, ht with
      | bool a, bool b, _ => exact (inferInstance : OrientedOrd Bool).eq_swap
      | int a, int b, _ => exact (inferInstance : OrientedOrd Int).eq_swap
      | double a, double b, _ => exact (inferInstance : OrientedOrd Binary64).eq_swap
      | text a, text b, _ => exact (inferInstance : OrientedCmp Text.order).eq_swap
    · rw [compare_of_dataType_ne ht, compare_of_dataType_ne (Ne.symm ht)]
      exact OrientedCmp.eq_swap

instance : TransOrd Value where
  isLE_trans {a b c} h h' := by
    have hab := rank_le_of_isLE h
    have hbc := rank_le_of_isLE h'
    rcases Nat.lt_or_eq_of_le (Nat.le_trans hab hbc) with hlt | heq
    · exact isLE_of_rank_lt hlt
    · have hta : a.dataType = b.dataType := DataType.rank_inj (by omega)
      have htb : b.dataType = c.dataType := DataType.rank_inj (by omega)
      match a, b, c, hta, htb with
      | bool a, bool b, bool c, _, _ => exact (inferInstance : TransOrd Bool).isLE_trans h h'
      | int a, int b, int c, _, _ => exact (inferInstance : TransOrd Int).isLE_trans h h'
      | double a, double b, double c, _, _ => exact (inferInstance : TransOrd Binary64).isLE_trans h h'
      | text a, text b, text c, _, _ => exact (inferInstance : TransCmp Text.order).isLE_trans h h'

/-- Comparison is transitive, for each way in which two values may compare. -/
theorem compare_trans {o : Ordering} (h : compare a b = o) (h' : compare b c = o) : compare a c = o := by
  cases o with
  | lt => exact TransCmp.lt_trans h h'
  | eq => exact TransCmp.eq_trans h h'
  | gt => exact TransCmp.gt_trans h h'

end Value

/-! ### What the rules say -/

/-- What a rule makes of two values, if its first two arguments hold them, whatever else it sees. -/
def ValueRule.Tells (rule : ValueRule) (a b : Value) (answer : Bool) : Prop :=
  ∀ (x y : Arg) (rest : List Arg) (current : Option Value), x.value? = some a → y.value? = some b →
    rule.compute (x :: y :: rest) current = some (.bool answer)

/-- A comparison tells of two values what its test tells. -/
theorem ValueRule.tells_comparison (name : String) (test : Value → Value → Bool) (a b : Value) :
    (comparison name test).Tells a b (test a b) := by
  intro x y rest current hx hy
  change (x.value?.bind fun left => y.value?.bind fun right => some (Value.bool (test left right))) = _
  rw [hx, hy]
  rfl

namespace Value

/-- What there is to know of the order of three values, and of what the rules say of the first two. -/
structure Ordered (a b c : Value) : Prop where
  eq_iff : compare a b = .eq ↔ a = b
  swap : compare b a = (compare a b).swap
  trans : ∀ o, compare a b = o → compare b c = o → compare a c = o
  isLE_trans : (compare a b).isLE → (compare b c).isLE → (compare a c).isLE
  /-- Doubles are in the order of the integers that the machine makes of their bits. -/
  double : ∀ d e, a = double d → b = double e → compare a b = compare d.key.toInt e.key.toInt
  /-- Just one is so: the values are equal, or the first comes before the second, or the second before the first. -/
  one : ∃ same before after, ValueRule.eq.Tells a b same ∧ ValueRule.lt.Tells a b before ∧
    ValueRule.lt.Tells b a after ∧ [same, before, after].count true = 1

/-- The order of values is total, and it agrees with equality and with the rules. -/
theorem compare_ordered (a b c : Value) : Ordered a b c := by
  refine ⟨compare_eq_iff, OrientedCmp.eq_swap, fun o => compare_trans, TransCmp.isLE_trans, ?_, ?_⟩
  · rintro d e rfl rfl
    exact d.compare_eq_compare_key e
  · refine ⟨_, _, _, ValueRule.tells_comparison "eq" _ a b, ValueRule.tells_comparison "lt" _ a b,
      ValueRule.tells_comparison "lt" _ b a, ?_⟩
    have heq : a = b ↔ compare a b = .eq := compare_eq_iff.symm
    have hswap : compare b a = (compare a b).swap := OrientedCmp.eq_swap
    simp only [heq, hswap]
    cases compare a b <;> rfl

end Value

end Dataflow
