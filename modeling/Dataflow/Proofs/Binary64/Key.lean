import Dataflow.Binary64.Order
import Mathlib.Algebra.Group.Nat.Defs

/-!
# The total order on the bits

The machine compares two doubles as integers.  It takes the bits of each as an integer with a sign, and where the sign
bit is set it turns all the others over, since of two negative numbers the one of larger magnitude comes first
(`Binary64.key`).

* `toInt_key`: the integer is the position of the number in the total order, counted from the middle;
* `compare_eq_compare_key`: so the order of the integers is the total order.
-/

namespace Dataflow.Binary64

/-- The bits of a number as an integer, with all bits but the sign turned over if the sign bit is set. -/
def key (d : Binary64) : Int64 :=
  let n := d.bits.toInt64
  n ^^^ ((n >>> 63).toUInt64 >>> 1).toInt64

private theorem xor_two_pow_sub_one {m n : Nat} (h : m < 2 ^ n) : m ^^^ (2 ^ n - 1) = 2 ^ n - 1 - m := by
  have hnot := congrArg BitVec.toNat (BitVec.xor_allOnes (x := BitVec.ofNat n m))
  rwa [BitVec.toNat_xor, BitVec.toNat_not, BitVec.toNat_allOnes, BitVec.toNat_ofNat, Nat.mod_eq_of_lt h] at hnot

/-- Turning over all bits of a number but the leading one. -/
private theorem two_pow_add_xor {m n : Nat} (h : m < 2 ^ n) :
    (2 ^ n + m) ^^^ (2 ^ n - 1) = 2 ^ (n + 1) - 1 - m := by
  have hones : 2 ^ n - 1 < 2 ^ n := Nat.sub_lt (Nat.two_pow_pos n) Nat.one_pos
  have hdiv : ((2 ^ n + m) ^^^ (2 ^ n - 1)) / 2 ^ n = 1 := by
    rw [Nat.xor_div_two_pow, Nat.add_div_left m (Nat.two_pow_pos n), Nat.div_eq_of_lt h, Nat.div_eq_of_lt hones]
    rfl
  have hmod : ((2 ^ n + m) ^^^ (2 ^ n - 1)) % 2 ^ n = 2 ^ n - 1 - m := by
    rw [Nat.xor_mod_two_pow, Nat.add_mod_left, Nat.mod_eq_of_lt h, Nat.mod_eq_of_lt hones, xor_two_pow_sub_one h]
  rw [← Nat.div_add_mod ((2 ^ n + m) ^^^ (2 ^ n - 1)) (2 ^ n), hdiv, hmod, Nat.pow_succ]
  omega

/-- Shifting all other bits out leaves the sign bit in every place. -/
private theorem sshiftRight_last (x : BitVec 64) :
    x.sshiftRight 63 = if x.msb then BitVec.allOnes 64 else 0#64 := by
  cases hx : x.msb with
  | true =>
    rw [BitVec.sshiftRight_eq_of_msb_true hx, if_pos rfl, BitVec.not_eq_comm, BitVec.not_allOnes]
    rw [BitVec.msb_eq_decide, decide_eq_true_iff] at hx
    refine BitVec.eq_of_toNat_eq ?_
    rw [BitVec.toNat_ushiftRight, BitVec.toNat_not, Nat.shiftRight_eq_div_pow, BitVec.toNat_ofNat]
    omega
  | false =>
    rw [BitVec.sshiftRight_eq_of_msb_false hx, if_neg Bool.false_ne_true]
    rw [BitVec.msb_eq_decide, decide_eq_false_iff_not] at hx
    refine BitVec.eq_of_toNat_eq ?_
    rw [BitVec.toNat_ushiftRight, Nat.shiftRight_eq_div_pow, BitVec.toNat_ofNat]
    omega

private theorem msb_bits (d : Binary64) : d.bits.toBitVec.msb = d.isNegative := by
  rw [BitVec.msb_eq_decide]
  rfl

/-- The key of a double is its magnitude, with all bits turned over if the double is negative. -/
theorem toNat_key (d : Binary64) :
    d.key.toBitVec.toNat = if d.isNegative then 2 ^ 64 - 1 - d.magnitude else d.magnitude := by
  have hbits := d.toNat_bits
  change (d.bits.toBitVec ^^^ (d.bits.toBitVec.sshiftRight 63 >>> 1)).toNat = _
  rw [sshiftRight_last, msb_bits]
  cases hs : d.isNegative with
  | true =>
    rw [hs, if_pos rfl] at hbits
    rw [if_pos rfl, if_pos rfl, BitVec.toNat_xor, UInt64.toNat_toBitVec, hbits]
    exact two_pow_add_xor (n := 63) d.magnitude_lt
  | false =>
    rw [hs, if_neg Bool.false_ne_true] at hbits
    rw [if_neg Bool.false_ne_true, if_neg Bool.false_ne_true]
    change (d.bits.toBitVec ^^^ 0#64).toNat = _
    rw [BitVec.xor_zero]
    exact hbits

/-- As a signed integer, the key is the rank among all doubles, less half of their number. -/
theorem toInt_key (d : Binary64) : d.key.toInt = d.rank - 0x8000000000000000 := by
  have hd := d.magnitude_lt
  change d.key.toBitVec.toInt = _
  rw [BitVec.toInt_eq_toNat_cond, toNat_key]
  unfold rank
  split <;> split <;> omega

/-- Doubles compare as their keys do. -/
theorem compare_eq_compare_key (d e : Binary64) : compare d e = compare d.key.toInt e.key.toInt := by
  change compare d.rank e.rank = _
  rw [toInt_key, toInt_key]
  cases h : compare d.rank e.rank with
  | lt =>
    rw [Nat.compare_eq_lt] at h
    exact (Int.compare_eq_lt.2 (by omega)).symm
  | eq => rw [Nat.compare_eq_eq.1 h, Int.compare_eq_eq.2 rfl]
  | gt =>
    rw [Nat.compare_eq_gt] at h
    exact (Int.compare_eq_gt.2 (by omega)).symm

/-- The zeros have different signs, so the negative one comes first, and a NaN with its sign bit set before everything
else. -/
example : compare (zero.neg) zero = .lt ∧ compare (nan true) (infinity true) = .lt := by decide

end Dataflow.Binary64
