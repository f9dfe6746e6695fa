import Dataflow.DataType
import Dataflow.Decimal.Positional

/-!
# Values

What a value node holds.  Equality of values decides whether a node has changed: doubles are
compared by their bits, so that a node which keeps producing the same NaN does not change, while the
two zeros differ.
-/

namespace Dataflow

/-- A value of one of the four value types. -/
inductive Value where
  | bool (b : Bool)
  | int (n : Int64)
  | double (d : Binary64)
  | text (s : String)
  deriving DecidableEq

namespace Value

def dataType : Value → DataType
  | bool _ => .bool
  | int _ => .int
  | double _ => .double
  | text _ => .text

def asBool? : Value → Option Bool
  | bool b => some b
  | _ => none

def asInt? : Value → Option Int64
  | int n => some n
  | _ => none

def asDouble? : Value → Option Binary64
  | double d => some d
  | _ => none

def asText? : Value → Option String
  | text s => some s
  | _ => none

/-- A value as people read it; a text stands for itself. -/
def toText : Value → String
  | bool b => if b then "true" else "false"
  | int n => intText n.toInt
  | double d => d.toText
  | text s => s

theorem dataType_ne_trigger (v : Value) : v.dataType ≠ .trigger := by cases v <;> simp [dataType]

end Value

end Dataflow
