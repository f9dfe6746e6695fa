/-!
# The order of texts

Texts are in the order of the code points of their characters, a text before those that it begins.

* `order_eq_iff`: the order ties equal texts only;
* `order_swap`, `before_trans`: it is a strict total order.
-/

namespace Dataflow.Text

/-- The order of two lists of characters. -/
def orderChars : List Char → List Char → Ordering
  | [], [] => .eq
  | [], _ :: _ => .lt
  | _ :: _, [] => .gt
  | a :: as, b :: bs =>
    if a.toNat < b.toNat then .lt else if b.toNat < a.toNat then .gt else orderChars as bs

def order (s t : String) : Ordering := orderChars s.toList t.toList

def Before (s t : String) : Prop := order s t = .lt

instance (s t : String) : Decidable (Before s t) := inferInstanceAs (Decidable (_ = _))

private theorem orderChars_eq_iff {as bs : List Char} : orderChars as bs = .eq ↔ as = bs := by
  induction as generalizing bs with
  | nil => cases bs <;> simp [orderChars]
  | cons a as ih =>
    cases bs with
    | nil => simp [orderChars]
    | cons b bs =>
      unfold orderChars
      rw [List.cons.injEq, ← ih]
      split
      · next h =>
        have : a ≠ b := fun e => Nat.lt_irrefl _ (e ▸ h)
        simp [this]
      · split
        · next h =>
          have : a ≠ b := fun e => Nat.lt_irrefl _ (e ▸ h)
          simp [this]
        · next h h' =>
          have : a = b := Char.toNat_inj.1 (by omega)
          simp [this]

private theorem orderChars_swap (as bs : List Char) :
    (orderChars as bs).swap = orderChars bs as := by
  induction as generalizing bs with
  | nil => cases bs <;> rfl
  | cons a as ih =>
    cases bs with
    | nil => rfl
    | cons b bs =>
      unfold orderChars
      by_cases h : a.toNat < b.toNat
      · rw [if_pos h, if_neg (by omega), if_pos h]
        rfl
      · rw [if_neg h]
        by_cases h' : b.toNat < a.toNat
        · rw [if_pos h', if_pos h']
          rfl
        · rw [if_neg h', if_neg h', if_neg h]
          exact ih bs

private theorem orderChars_lt_trans {as bs cs : List Char} (h : orderChars as bs = .lt)
    (h' : orderChars bs cs = .lt) : orderChars as cs = .lt := by
  induction as generalizing bs cs with
  | nil =>
    cases bs with
    | nil => exact h'
    | cons b bs => cases cs <;> simp_all [orderChars]
  | cons a as ih =>
    cases bs with
    | nil => simp [orderChars] at h
    | cons b bs =>
      cases cs with
      | nil => simp [orderChars] at h'
      | cons c cs =>
        unfold orderChars at h h' ⊢
        by_cases hab : a.toNat < b.toNat
        · by_cases hbc : b.toNat < c.toNat
          · rw [if_pos (by omega)]
          · rw [if_neg hbc] at h'
            by_cases hcb : c.toNat < b.toNat
            · rw [if_pos hcb] at h'; cases h'
            · rw [if_pos (by omega)]
        · rw [if_neg hab] at h
          by_cases hba : b.toNat < a.toNat
          · rw [if_pos hba] at h; cases h
          · rw [if_neg hba] at h
            by_cases hbc : b.toNat < c.toNat
            · rw [if_pos (by omega)]
            · rw [if_neg hbc] at h'
              by_cases hcb : c.toNat < b.toNat
              · rw [if_pos hcb] at h'; cases h'
              · rw [if_neg hcb] at h'
                rw [if_neg (by omega), if_neg (by omega)]
                exact ih h h'

theorem order_eq_iff {s t : String} : order s t = .eq ↔ s = t := by
  unfold order
  rw [orderChars_eq_iff, String.toList_inj]

theorem order_swap (s t : String) : (order s t).swap = order t s := orderChars_swap _ _

theorem before_trans {s t u : String} (h : Before s t) (h' : Before t u) : Before s u :=
  orderChars_lt_trans h h'

/-- Of two different texts one comes before the other. -/
theorem before_of_not_before {s t : String} (h : ¬ Before s t) (hne : s ≠ t) : Before t s := by
  unfold Before at *
  rw [← order_swap]
  cases hc : order s t with
  | lt => exact absurd hc h
  | eq => exact absurd (order_eq_iff.1 hc) hne
  | gt => rfl

end Dataflow.Text
