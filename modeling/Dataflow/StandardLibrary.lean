import Dataflow.Overload
import Dataflow.Rule.Operators

/-!
# The standard library

The function groups of the usual operators.

* `add` on integers, doubles and texts (where it joins them), `mul` on integers and doubles, `and`
  and `or` on truth values, `both` and `either` on triggers take any number of arguments up to a
  limit.
* `sub` and `div` take two integers or two doubles, `eq` and `lt` two values of one type, `not` a
  truth value.
* `changed` fires when a value changes, `count` counts how often a trigger fires, and `sample` takes
  a value whenever a trigger fires.
-/

namespace Dataflow.StandardLibrary

/-- A definition with two or more arguments of one type, which passes a single one through. -/
def many (maxArgs : Nat) (name : String) (t : DataType) (rule : ValueRule) : FunctionDef :=
  ((FunctionDef.value name [t, t] t rule).variadic maxArgs).passingOne.needingExact

/-- Definitions of an arithmetic operation on two integers and on two doubles. -/
def binary (op : ArithmeticOp) : FunctionGroup :=
  ⟨op.name, [.int, .double].map fun t => .value op.name [t, t] t (.arithmetic op)⟩

/-- Definitions of a comparison of two values of one type, for each type. -/
def comparison (name : String) (rule : ValueRule) : FunctionGroup :=
  ⟨name, DataType.valueTypes.map fun t => .value name [t, t] .bool rule⟩

/-- A definition of a trigger with two or more triggers as arguments, which passes a single one
through. -/
def triggers (maxArgs : Nat) (name : String) (rule : TriggerRule) : FunctionGroup :=
  ⟨name, [((FunctionDef.trigger name [.trigger, .trigger] rule).variadic maxArgs).passingOne]⟩

/-- The function groups of the library; `maxArgs` limits the arguments of those that take any
number. -/
def groups (maxArgs : Nat) : List FunctionGroup :=
  [⟨"add",
     [many maxArgs "add" .int (.arithmetic .add),
      many maxArgs "add" .double (.arithmetic .add),
      many maxArgs "add" .text .concat]⟩,
   binary .sub,
   ⟨"mul",
     [many maxArgs "mul" .int (.arithmetic .mul),
      many maxArgs "mul" .double (.arithmetic .mul)]⟩,
   binary .div,
   comparison "eq" .eq,
   comparison "lt" .lt,
   ⟨"not", [.value "not" [.bool] .bool .not]⟩,
   ⟨"and", [many maxArgs "and" .bool .and]⟩,
   ⟨"or", [many maxArgs "or" .bool .or]⟩,
   triggers maxArgs "both" .both,
   triggers maxArgs "either" .either,
   ⟨"changed", DataType.valueTypes.map fun t => .trigger "changed" [t] .changed⟩,
   ⟨"count", [.value "count" [.trigger] .int .count]⟩,
   ⟨"sample", DataType.valueTypes.map fun t => .value "sample" [t, .trigger] t .sample⟩]

end Dataflow.StandardLibrary
