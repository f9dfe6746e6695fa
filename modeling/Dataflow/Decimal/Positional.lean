import Dataflow.Decimal.Shortest

/-!
# Numbers as text

Integers are written in decimal.  Doubles are written with the fewest digits that read back, always
positionally and never with a fraction of zero alone: `20.5`, `3`, `-0`, `0.001`, `inf`, `-inf`,
`NaN`.
-/

namespace Dataflow

namespace Decimal

def natDigits (n : Nat) : List Char := Nat.toDigits 10 n

/-- An integer in decimal, with a minus sign if it is negative. -/
def intDigits (n : Int) : List Char :=
  if n < 0 then '-' :: natDigits n.natAbs else natDigits n.natAbs

/-- A decimal without an exponent: zeros up to the units, or a point before the fraction. -/
def positional (d : Decimal) : List Char :=
  let digits := natDigits d.coefficient
  let places := (-d.exponent).toNat
  if places = 0 then digits ++ List.replicate d.exponent.toNat '0'
  else if places < digits.length then
    digits.take (digits.length - places) ++ '.' :: digits.drop (digits.length - places)
  else '0' :: '.' :: (List.replicate (places - digits.length) '0' ++ digits)

end Decimal

def Binary64.toText (d : Binary64) : String :=
  if d.isNaN then "NaN"
  else
    let size :=
      if d.isInfinite then "inf".toList
      else if d.isZero then ['0']
      else (Decimal.shortest d).positional
    String.ofList (if d.isNegative then '-' :: size else size)

def intText (n : Int) : String := String.ofList (Decimal.intDigits n)

end Dataflow
