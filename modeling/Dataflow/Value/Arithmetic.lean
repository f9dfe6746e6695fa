import Dataflow.Binary64.Arithmetic
import Dataflow.Value.Basic

/-!
# Arithmetic on values

The four arithmetic operations on integers and on doubles, and the three bitwise ones on integers
and truth values. They never fail: integers wrap around, and dividing by zero gives zero.  Operands
of different types have no result.
-/

namespace Dataflow

inductive ArithmeticOp where
  | add
  | sub
  | mul
  | div
  deriving DecidableEq

namespace ArithmeticOp

def name : ArithmeticOp → String
  | add => "add"
  | sub => "sub"
  | mul => "mul"
  | div => "div"

/-- The operation on integers of 64 bits, modulo `2 ^ 64`.  Division is toward zero; a divisor of 0
gives 0. -/
def onInt : ArithmeticOp → Int64 → Int64 → Int64
  | add, a, b => a + b
  | sub, a, b => a - b
  | mul, a, b => a * b
  | div, a, b => if b = 0 then 0 else a / b

/-- The operation on doubles.  A divisor of either zero gives positive zero. -/
def onDouble : ArithmeticOp → Binary64 → Binary64 → Binary64
  | add, a, b => a.add b
  | sub, a, b => a.sub b
  | mul, a, b => a.mul b
  | div, a, b => if b.isZero then Binary64.zero else a.div b

/-- The operation on two values, if they are two integers or two doubles. -/
def onValues? (op : ArithmeticOp) : Value → Value → Option Value
  | .int a, .int b => some (.int (op.onInt a b))
  | .double a, .double b => some (.double (op.onDouble a b))
  | _, _ => none

end ArithmeticOp

inductive BitwiseOp where
  | and
  | or
  | xor
  deriving DecidableEq

namespace BitwiseOp

def onBool : BitwiseOp → Bool → Bool → Bool
  | and, a, b => a && b
  | or, a, b => a || b
  | xor, a, b => a != b

def onInt : BitwiseOp → Int64 → Int64 → Int64
  | and, a, b => a &&& b
  | or, a, b => a ||| b
  | xor, a, b => a ^^^ b

/-- The operation on two values, if they are two truth values or two integers. -/
def onValues? (op : BitwiseOp) : Value → Value → Option Value
  | .bool a, .bool b => some (.bool (op.onBool a b))
  | .int a, .int b => some (.int (op.onInt a b))
  | _, _ => none

end BitwiseOp

end Dataflow
