import Dataflow.Binary64.Arithmetic
import Dataflow.Decimal.Reading
import Dataflow.Json.Basic

/-!
# Numbers in JSON

An integer is a number without a point and without an exponent, in the range that is asked for; `-0`
is none.

A double is made up in two steps, each of which rounds.  The digits are taken into a significand as
long as it stays below `2 ^ 64`; of the digits left over, those before the point raise the exponent
and those after it are dropped. Then the significand is multiplied or divided by a power of ten.  A
number above the range of doubles is refused.
-/

namespace Dataflow.JsonNumber

/-- The integer that is written, if it lies between the bounds. -/
def toInt? (n : JsonNumber) (low high : Int) : Option Int :=
  if n.fraction?.isSome ∨ n.exponent?.isSome then none
  else
    let size := Decimal.valueOfDigits n.whole
    if n.negative ∧ size = 0 then none
    else
      let value : Int := if n.negative then -size else size
      if low ≤ value ∧ value ≤ high then some value else none

/-- Appends digits to a significand while it stays below `2 ^ 64`, and gives the digits left
over. -/
def takeDigits : Nat → List Char → Nat × List Char
  | significand, [] => (significand, [])
  | significand, c :: rest =>
    let longer := 10 * significand + Decimal.digitValue c
    if longer < 0x10000000000000000 then takeDigits longer rest else (significand, c :: rest)

/-- The significand, and the exponent that the position of the point gives it. -/
def significand (n : JsonNumber) : Nat × Int :=
  let (front, left) := takeDigits 0 n.whole
  let fraction := n.fraction?.getD []
  -- The fraction may go on although digits before the point were left over.
  let (taken, dropped) := takeDigits front fraction
  (taken, left.length - (fraction.length - dropped.length))

def powerOfTen (n : Nat) : Binary64 := Binary64.ofRatio false (Nat.pow 10 n) 1

/-- Divides by a power of ten, in steps of `10 ^ 308` as long as something is left. -/
def divideByTens (d : Binary64) (n : Nat) : Binary64 :=
  if n ≤ 308 then d.div (powerOfTen n)
  else if d.isZero then d
  else divideByTens (d.div (powerOfTen 308)) (n - 308)
termination_by n

/-- Multiplies by a power of ten, and refuses a result that is not finite. -/
def multiplyByTens? (d : Binary64) (n : Nat) : Option Binary64 :=
  if n ≤ 308 then
    let product := d.mul (powerOfTen n)
    if product.isInfinite then none else some product
  else if d.isZero then some d
  else none

/-- The size of the double with a significand and an exponent of ten. -/
def scale? (significand : Nat) (exponent : Int) : Option Binary64 :=
  let d := Binary64.ofRatio false significand 1
  if exponent < 0 then some (divideByTens d exponent.natAbs) else multiplyByTens? d exponent.toNat

/-- The double that is written.  An exponent of more than thirty-one bits is taken for infinite. -/
def toBinary64? (n : JsonNumber) : Option Binary64 :=
  let (significand, exponent) := n.significand
  let size? :=
    match n.exponent? with
    | none => scale? significand exponent
    | some (negative, digits) =>
      let written := Decimal.valueOfDigits digits
      if 0x80000000 ≤ written then
        if significand ≠ 0 ∧ negative = false then none else some Binary64.zero
      else
        let total := if negative then exponent - written else exponent + written
        scale? significand (max (-0x80000000) (min total 0x7fffffff))
  size?.map fun size => if n.negative then size.neg else size

end Dataflow.JsonNumber
