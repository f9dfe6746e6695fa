import Dataflow.Rule.Basic
import Dataflow.Value.Arithmetic
import Dataflow.Value.Order

/-!
# Operators

The rules of the standard library.  Arithmetic folds from the left over the arguments that have a
value; the other value rules have no result when an argument they need is absent, unset or of
another type.
-/

namespace Dataflow

namespace ValueRule

/-- Folds an arithmetic operation over the values of the arguments. -/
def arithmetic (op : ArithmeticOp) : ValueRule where
  name := op.name
  compute args _ :=
    match args.filterMap Arg.value? with
    | [] => none
    | first :: rest => rest.foldlM op.onValues? first

def concat : ValueRule where
  name := "concat"
  compute args _ :=
    (args.mapM fun (a : Arg) => a.value?.bind Value.asText?).map fun texts =>
      .text (String.join texts)

/-- Applies a test to the first two arguments. -/
def comparison (name : String) (test : Value → Value → Bool) : ValueRule where
  name := name
  compute
    | a :: b :: _, _ => do
      let left ← a.value?
      let right ← b.value?
      return .bool (test left right)
    | _, _ => none

def eq : ValueRule := comparison "eq" fun a b => a = b

/-- The first argument comes before the second in the order of values. -/
def lt : ValueRule := comparison "lt" fun a b => compare a b = .lt

def truth? (a : Arg) : Option Bool := a.value?.bind Value.asBool?

def not : ValueRule where
  name := "not"
  compute args _ := do
    let first ← args.head?.bind truth?
    return .bool !first

/-- Combines the truth values of all arguments, of which there is at least one. -/
def combined (name : String) (op : Bool → Bool → Bool) : ValueRule where
  name := name
  compute args _ := do
    match ← args.mapM truth? with
    | [] => none
    | first :: rest => return .bool (rest.foldl op first)

def and : ValueRule := combined "and" Bool.and

def or : ValueRule := combined "or" Bool.or

/-- Counts the passes in which some parent fired, from 0. -/
def count : ValueRule where
  name := "count"
  compute args current :=
    let n := (current.bind Value.asInt?).getD 0
    some (.int (if args.any Arg.fired then n + 1 else n))

/-- Takes the value of its first parent whenever its second parent fires. -/
def sample : ValueRule where
  name := "sample"
  compute
    | source :: clock :: _, _ => if clock.fired then source.value? else none
    | _, _ => none

end ValueRule

namespace TriggerRule

/-- Fires when its first parent changed or fired. -/
def changed : TriggerRule where
  name := "changed"
  fires args := args.head?.any Arg.fired

/-- Fires when it has parents and all of them fired. -/
def both : TriggerRule where
  name := "both"
  fires args := !args.isEmpty && args.all Arg.fired

def either : TriggerRule where
  name := "either"
  fires args := args.any Arg.fired

end TriggerRule

end Dataflow
