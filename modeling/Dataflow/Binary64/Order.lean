import Dataflow.Binary64.Basic

/-!
# The total order of double-precision numbers

All bit patterns are ordered, NaNs and zeros included: negative numbers come before positive ones,
the larger magnitude first among the negative and last among the positive.  So
`-NaN < -∞ < -1 < -0 < +0 < 1 < +∞ < +NaN`.

* `rank_inj`: different numbers have different ranks, so the order ties equal numbers only.
-/

namespace Dataflow.Binary64

/-- The position of a number in the total order. -/
def rank (d : Binary64) : Nat :=
  if d.isNegative then 0x7fffffffffffffff - d.magnitude else 0x8000000000000000 + d.magnitude

instance : Ord Binary64 := ⟨fun d e => compare d.rank e.rank⟩

theorem rank_inj {d e : Binary64} (h : d.rank = e.rank) : d = e := by
  have hd := d.magnitude_lt
  have he := e.magnitude_lt
  unfold rank at h
  split at h <;> split at h
  · exact ext_parts (by simp_all) (by omega)
  · omega
  · omega
  · exact ext_parts (by simp_all) (by omega)

end Dataflow.Binary64
