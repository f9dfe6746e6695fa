/-!
# JSON documents

A document as a tree that keeps numbers and texts as they are written, so that each reader can
decide what it makes of them.  A text is a list of code points, among which an escape may have put
surrogates.
-/

namespace Dataflow

/-- A number as it is written. -/
structure JsonNumber where
  negative : Bool
  /-- The digits before the point. -/
  whole : List Char
  /-- The digits after the point, if there is one. -/
  fraction? : Option (List Char)
  /-- Whether the exponent is negative, and its digits. -/
  exponent? : Option (Bool × List Char)

inductive Json where
  | null
  | bool (b : Bool)
  | number (n : JsonNumber)
  | text (codes : List Nat)
  | array (items : List Json)
  | object (fields : List (List Nat × Json))

namespace Json

def isHighSurrogate (code : Nat) : Bool := 0xd800 ≤ code && code < 0xdc00

def isLowSurrogate (code : Nat) : Bool := 0xdc00 ≤ code && code < 0xe000

/-- The characters that code points stand for.  A high and a low surrogate stand for one character;
a surrogate alone stands for none. -/
def charsOfCodes? : List Nat → Option (List Char)
  | [] => some []
  | [code] => if isHighSurrogate code || isLowSurrogate code then none else some [Char.ofNat code]
  | code :: next :: rest =>
    if isHighSurrogate code then
      if isLowSurrogate next then
        (charsOfCodes? rest).map
          (Char.ofNat (0x10000 + (code - 0xd800) * 0x400 + (next - 0xdc00)) :: ·)
      else none
    else if isLowSurrogate code then none
    else (charsOfCodes? (next :: rest)).map (Char.ofNat code :: ·)

def textOfCodes? (codes : List Nat) : Option String := (charsOfCodes? codes).map String.ofList

end Json

end Dataflow
