import Dataflow.Decimal.Reading
import Dataflow.Rule.Operators
import Dataflow.Text.Blank

/-!
# Conversions

How a value of one type becomes a value of another.  A conversion is total: a text that is no number
reads as zero, and a value that is not of the source type counts as false, zero or `0.0`.  A value
can also be turned into a trigger that fires whenever the value changes.
-/

namespace Dataflow

/-- How the node of a conversion works: a formula that maps its parent's value, or a trigger that
fires when its parent changes. -/
inductive Conversion where
  | map (name : String) (f : Value → Value)
  | onChange

namespace Conversion

def behavior : Conversion → Behavior
  | map name f => .value ⟨name, fun args _ => (args.head?.bind Arg.value?).map f⟩
  | onChange => .trigger .changed

def toText : Conversion → String
  | map name _ => "Map(\"" ++ name ++ "\")"
  | onChange => "OnChange"

def boolToInt (v : Value) : Value := .int (if v.asBool? = some true then 1 else 0)

def intToDouble (v : Value) : Value :=
  .double (v.asInt?.elim Binary64.zero fun n => Binary64.ofInt n.toInt)

def boolToDouble (v : Value) : Value :=
  .double (Binary64.ofInt (if v.asBool? = some true then 1 else 0))

def doubleToInt (v : Value) : Value := .int (v.asDouble?.elim 0 Binary64.truncate)

def intToBool (v : Value) : Value := .bool (v.asInt?.any (· ≠ 0))

/-- A double is true if it is a number other than the two zeros. -/
def doubleToBool (v : Value) : Value := .bool (v.asDouble?.any fun d => !d.isNaN && !d.isZero)

def toTextValue (v : Value) : Value := .text v.toText

/-- Reads an integer of 64 bits between blanks; any other text gives 0. -/
def textToInt (v : Value) : Value :=
  .int ((v.asText?.bind fun s => Decimal.readInt64? (Text.trim s.toList)).getD 0)

/-- Reads a double between blanks; any other text gives `0.0`. -/
def textToDouble (v : Value) : Value :=
  .double ((v.asText?.bind fun s => Decimal.readBinary64? (Text.trim s.toList)).getD Binary64.zero)

end Conversion

end Dataflow
