import Dataflow.Binary64.Basic

/-!
# Rounding a fraction to double precision

`ofRatio` gives the double-precision number nearest to a fraction of natural numbers, a tie going to
the even significand.  The quotient is taken on the grid of the numbers next to it, whose spacing is
`2 ^ e`; because a rounded significand of `2 ^ 53` carries into the exponent field by plain
addition, and running over the last finite number lands on infinity, no case is needed for either.
-/

namespace Dataflow.Binary64

/-- The quotient rounded to the nearest natural number, a tie going to the even one. -/
def roundQuotient (num den : Nat) : Nat :=
  let quotient := num / den
  let doubled := 2 * (num % den)
  if den < doubled ∨ (doubled = den ∧ quotient % 2 = 1) then quotient + 1 else quotient

/-- The exponent of the largest power of two that is not above `num / den`, both being positive. -/
def binaryExponent (num den : Nat) : Int :=
  let e : Int := (num.log2 : Int) - den.log2
  if den <<< e.toNat ≤ num <<< (-e).toNat then e else e - 1

/-- The number nearest to `num / den`, with the given sign. -/
def ofRatio (negative : Bool) (num den : Nat) : Binary64 :=
  if num = 0 then
    ofParts negative 0
  else
    -- Below the smallest normal number the spacing does not shrink any further.
    let spacing : Int := max (-1074) (binaryExponent num den - 52)
    let steps := roundQuotient (num <<< (-spacing).toNat) (den <<< spacing.toNat)
    ofParts negative (min infiniteMagnitude ((spacing + 1074).toNat * 0x10000000000000 + steps))

def ofInt (n : Int) : Binary64 := ofRatio (n < 0) n.natAbs 1

end Dataflow.Binary64
