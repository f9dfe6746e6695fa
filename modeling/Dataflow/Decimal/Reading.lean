import Dataflow.Binary64.Rounding
import Dataflow.Decimal.Shortest

/-!
# Reading numbers

Integers are read as an optional sign and one or more digits; doubles as an optional sign, digits
with an optional point among them and an optional exponent, or one of the names `inf`, `infinity`
and `nan` in any case.  A double is the number nearest to the decimal that was read.  Every
character has to belong to the numeral.
-/

namespace Dataflow.Decimal

def isDigit (c : Char) : Bool := '0' ≤ c ∧ c ≤ '9'

def digitValue (c : Char) : Nat := c.toNat - '0'.toNat

def valueOfDigits (digits : List Char) : Nat := digits.foldl (fun n c => 10 * n + digitValue c) 0

/-- An optional sign and what follows it; the sign is negative if it is a minus. -/
def splitSign : List Char → Bool × List Char
  | '-' :: rest => (true, rest)
  | '+' :: rest => (false, rest)
  | s => (false, s)

def readNat? (s : List Char) : Option Nat :=
  if s ≠ [] ∧ s.all isDigit then some (valueOfDigits s) else none

def readInt? (s : List Char) : Option Int :=
  let (negative, digits) := splitSign s
  (readNat? digits).map fun n => if negative then -(n : Int) else n

def readInt64? (s : List Char) : Option Int64 := do
  let n ← readInt? s
  if -0x8000000000000000 ≤ n ∧ n < 0x8000000000000000 then some (Int64.ofInt n) else none

/-- The double nearest to a decimal.  Decimals far above and far below the range of doubles are not
expanded. -/
def toBinary64 (negative : Bool) (d : Decimal) : Binary64 :=
  let top := digitCount d.coefficient + d.exponent
  if d.coefficient = 0 ∨ top < -330 then Binary64.ofParts negative 0
  else if 310 < top then Binary64.infinity negative
  else
    Binary64.ofRatio negative (d.coefficient * Nat.pow 10 d.exponent.toNat)
      (Nat.pow 10 (-d.exponent).toNat)

/-- An exponent: nothing, or the letter `e` and an integer. -/
def readExponent? : List Char → Option Int
  | [] => some 0
  | c :: rest => if c = 'e' ∨ c = 'E' then readInt? rest else none

/-- Digits with an optional point, at least one digit in all, and an optional exponent. -/
def readDecimal? (s : List Char) : Option Decimal :=
  let whole := s.takeWhile isDigit
  let (places, rest) :=
    match s.dropWhile isDigit with
    | '.' :: rest => (rest.takeWhile isDigit, rest.dropWhile isDigit)
    | rest => ([], rest)
  if whole = [] ∧ places = [] then none
  else (readExponent? rest).map fun e => ⟨valueOfDigits (whole ++ places), e - places.length⟩

/-- A double without its sign: one of the names, or a decimal. -/
def readMagnitude? (negative : Bool) (s : List Char) : Option Binary64 :=
  let word := String.ofList (s.map Char.toLower)
  if word = "inf" ∨ word = "infinity" then some (Binary64.infinity negative)
  else if word = "nan" then some (Binary64.nan negative)
  else (readDecimal? s).map (toBinary64 negative)

def readBinary64? (s : List Char) : Option Binary64 :=
  let (negative, rest) := splitSign s
  readMagnitude? negative rest

end Dataflow.Decimal
