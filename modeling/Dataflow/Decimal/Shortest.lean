import Dataflow.Binary64.Basic

/-!
# Shortest decimals

A finite double-precision number stands for every real number that rounds to it.  `shortest` finds,
among the decimals in that interval with the fewest digits, the one nearest to the number itself; an
exact tie goes up.  It tries one digit, two digits and so on: where some decimal with that many
digits is in the interval, so is one of the two next to the number.
-/

namespace Dataflow

/-- The decimal `coefficient * 10 ^ exponent`. -/
structure Decimal where
  coefficient : Nat
  exponent : Int
  deriving DecidableEq

namespace Decimal

def digitCount (n : Nat) : Nat := (Nat.toDigits 10 n).length

/-- A number with the ends of the interval that rounds to it, all three over one denominator. -/
structure Interval where
  low : Nat
  value : Nat
  high : Nat
  den : Nat
  closed : Bool

/-- The interval of a finite number.  The gap below a power of two is half as wide as the gap above
it.  The ends round to the number when its significand is even. -/
def Interval.around (d : Binary64) : Interval :=
  let gapBelow := if d.fraction = 0 ∧ d.exponentField ≠ 0 then 1 else 2
  let center := 4 * d.significand
  let scale := 1 <<< (d.exponent - 2).toNat
  { low := (center - gapBelow) * scale
    value := center * scale
    high := (center + 2) * scale
    den := 1 <<< (2 - d.exponent).toNat
    closed := d.significand % 2 = 0 }

def Interval.contains (i : Interval) (d : Decimal) : Bool :=
  let point := d.coefficient * Nat.pow 10 d.exponent.toNat * i.den
  let unit := Nat.pow 10 (-d.exponent).toNat
  if i.closed then i.low * unit ≤ point ∧ point ≤ i.high * unit
  else i.low * unit < point ∧ point < i.high * unit

/-- The `k` for which `10 ^ (k - 1) ≤ value < 10 ^ k`. -/
def Interval.decimalExponent (i : Interval) : Int :=
  if i.den ≤ i.value then digitCount (i.value / i.den) else 1 - digitCount ((i.den - 1) / i.value)

/-- The decimal with the given number of digits that is nearest to the value, if one is in the
interval. -/
def Interval.nearest? (i : Interval) (digits : Nat) : Option Decimal :=
  let top := i.decimalExponent
  let exponent := top - digits
  let num := i.value * Nat.pow 10 (-exponent).toNat
  let den := i.den * Nat.pow 10 exponent.toNat
  let below := num / den
  let down : Decimal := ⟨below, exponent⟩
  -- One more than all nines is a power of ten and would have a digit too many.
  let up : Decimal := if below + 1 = Nat.pow 10 digits then ⟨1, top⟩ else ⟨below + 1, exponent⟩
  match i.contains down, i.contains up with
  | true, true => some (if 2 * (num % den) < den then down else up)
  | true, false => some down
  | false, true => some up
  | false, false => none

/-- The shortest decimal that rounds to a finite, non-zero number.  Seventeen digits are always
enough. -/
def shortest (d : Binary64) : Decimal :=
  let interval := Interval.around d
  ((List.range 17).findSome? fun i => interval.nearest? (i + 1)).getD ⟨0, 0⟩

end Decimal

end Dataflow
