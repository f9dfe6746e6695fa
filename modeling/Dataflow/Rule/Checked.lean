import Dataflow.Rule.Operators

/-!
# Arithmetic that may fault

A machine adds, subtracts and multiplies any two integers, but it cannot divide by 0: there it stops the program with a
fault.  Here the arithmetic rules are worked out with what the machine can do.  A fault anywhere ends the computation,
so that only the check for a divisor of 0 stands between the rules and it.
-/

namespace Dataflow

/-- What stops a program. -/
inductive Fault where
  | divisionByZero
  deriving DecidableEq

/-- Division by the machine, toward zero.  The one quotient that is out of range wraps around. -/
def Fault.div (a b : Int64) : Except Fault Int64 := if b = 0 then throw divisionByZero else return a / b

namespace ArithmeticOp

def onIntChecked : ArithmeticOp → Int64 → Int64 → Except Fault Int64
  | add, a, b => return a + b
  | sub, a, b => return a - b
  | mul, a, b => return a * b
  | div, a, b => if b = 0 then return 0 else Fault.div a b

def onValuesChecked (op : ArithmeticOp) : Value → Value → OptionT (Except Fault) Value
  | .int a, .int b => return .int (← op.onIntChecked a b)
  | .double a, .double b => return .double (op.onDouble a b)
  | _, _ => failure

/-- Folds the operation over the values of the arguments. -/
def computeChecked (op : ArithmeticOp) (args : List Arg) : Except Fault (Option Value) :=
  match args.filterMap Arg.value? with
  | [] => return none
  | first :: rest => (rest.foldlM op.onValuesChecked first).run

end ArithmeticOp

end Dataflow
