import Dataflow.Decimal.Reading
import Dataflow.Json.Basic

/-!
# Reading JSON

The grammar of JSON, to the letter: no comments, no commas after the last item, no zeros in front of
a number, no control characters in texts, and nothing but blanks after the document.
-/

namespace Dataflow.Json

def isSpace (c : Char) : Bool := c = ' ' || c = '\n' || c = '\t' || c = '\r'

def skipSpace (s : List Char) : List Char := s.dropWhile isSpace

def hexValue? (c : Char) : Option Nat :=
  if '0' ≤ c ∧ c ≤ '9' then some (c.toNat - '0'.toNat)
  else if 'a' ≤ c ∧ c ≤ 'f' then some (c.toNat - 'a'.toNat + 10)
  else if 'A' ≤ c ∧ c ≤ 'F' then some (c.toNat - 'A'.toNat + 10)
  else none

/-- The code point that four hexadecimal digits give. -/
def hexCode? (a b c d : Char) : Option Nat := do
  return ((← hexValue? a) * 16 + (← hexValue? b)) * 256 + (← hexValue? c) * 16 + (← hexValue? d)

/-- The code point that a character stands for after a backslash. -/
def escaped? : Char → Option Nat
  | '"' => some 0x22
  | '\\' => some 0x5c
  | '/' => some 0x2f
  | 'b' => some 0x08
  | 'f' => some 0x0c
  | 'n' => some 0x0a
  | 'r' => some 0x0d
  | 't' => some 0x09
  | _ => none

/-- The code points of a text up to its closing quotation mark, and what follows. -/
def readCodes : List Char → Option (List Nat × List Char)
  | [] => none
  | '"' :: rest => some ([], rest)
  | '\\' :: 'u' :: a :: b :: c :: d :: rest => do
    let code ← hexCode? a b c d
    let (codes, after) ← readCodes rest
    return (code :: codes, after)
  | '\\' :: c :: rest => do
    let code ← escaped? c
    let (codes, after) ← readCodes rest
    return (code :: codes, after)
  | c :: rest =>
    if c = '\\' ∨ c.toNat < 0x20 then none
    else do
      let (codes, after) ← readCodes rest
      return (c.toNat :: codes, after)

def readDigits (s : List Char) : Option (List Char × List Char) :=
  let digits := s.takeWhile Decimal.isDigit
  if digits = [] then none else some (digits, s.dropWhile Decimal.isDigit)

/-- The digits before the point: a zero alone, or digits that begin with another one. -/
def readWhole (s : List Char) : Option (List Char × List Char) := do
  let (digits, rest) ← readDigits s
  if digits.head? = some '0' ∧ digits ≠ ['0'] then none else return (digits, rest)

def readFraction : List Char → Option (Option (List Char) × List Char)
  | '.' :: rest => (readDigits rest).map fun (digits, after) => (some digits, after)
  | s => some (none, s)

def readExponent : List Char → Option (Option (Bool × List Char) × List Char)
  | c :: rest =>
    if c = 'e' ∨ c = 'E' then
      let (negative, unsigned) := Decimal.splitSign rest
      (readDigits unsigned).map fun (digits, after) => (some (negative, digits), after)
    else some (none, c :: rest)
  | [] => some (none, [])

def readNumber (s : List Char) : Option (JsonNumber × List Char) := do
  let (negative, unsigned) :=
    match s with
    | '-' :: rest => (true, rest)
    | _ => (false, s)
  let (whole, rest) ← readWhole unsigned
  let (fraction?, rest) ← readFraction rest
  let (exponent?, rest) ← readExponent rest
  return (⟨negative, whole, fraction?, exponent?⟩, rest)

mutual

def readValue : Nat → List Char → Option (Json × List Char)
  | 0, _ => none
  | fuel + 1, s =>
    match skipSpace s with
    | 'n' :: 'u' :: 'l' :: 'l' :: rest => some (.null, rest)
    | 't' :: 'r' :: 'u' :: 'e' :: rest => some (.bool true, rest)
    | 'f' :: 'a' :: 'l' :: 's' :: 'e' :: rest => some (.bool false, rest)
    | '"' :: rest => (readCodes rest).map fun (codes, after) => (.text codes, after)
    | '[' :: rest =>
      match skipSpace rest with
      | ']' :: after => some (.array [], after)
      | _ => (readItems fuel rest).map fun (items, after) => (.array items, after)
    | '{' :: rest =>
      match skipSpace rest with
      | '}' :: after => some (.object [], after)
      | _ => (readFields fuel rest).map fun (fields, after) => (.object fields, after)
    | other => (readNumber other).map fun (n, after) => (.number n, after)

/-- The items of an array up to its closing bracket, and what follows. -/
def readItems : Nat → List Char → Option (List Json × List Char)
  | 0, _ => none
  | fuel + 1, s => do
    let (item, rest) ← readValue fuel s
    match skipSpace rest with
    | ',' :: rest =>
      let (items, after) ← readItems fuel rest
      return (item :: items, after)
    | ']' :: after => return ([item], after)
    | _ => none

/-- The fields of an object up to its closing brace, and what follows. -/
def readFields : Nat → List Char → Option (List (List Nat × Json) × List Char)
  | 0, _ => none
  | fuel + 1, s =>
    match skipSpace s with
    | '"' :: rest => do
      let (key, rest) ← readCodes rest
      match skipSpace rest with
      | ':' :: rest =>
        let (value, rest) ← readValue fuel rest
        match skipSpace rest with
        | ',' :: rest =>
          let (fields, after) ← readFields fuel rest
          return ((key, value) :: fields, after)
        | '}' :: after => return ([(key, value)], after)
        | _ => none
      | _ => none
    | _ => none

end

/-- The document that a text is.  Every nesting and every item takes a character, so the fuel does
not run out. -/
def ofText? (s : String) : Option Json :=
  let chars := s.toList
  match readValue (2 * chars.length + 2) chars with
  | some (document, rest) => if skipSpace rest = [] then some document else none
  | none => none

end Dataflow.Json
