import Dataflow.Cast.Conversion
import Dataflow.Table

/-!
# Cast registries

A registry holds at most one conversion for each ordered pair of data types.  A conversion with a
weight may be put in front of an argument without being asked for, and the weight is its distance
when overloads are compared; one without a weight is made on request only.  Every type is at
distance 0 from itself, without any conversion.
-/

namespace Dataflow

structure CastRule where
  /-- The distance when used implicitly; none for conversions made on request only. -/
  weight? : Option Nat
  conversion : Conversion

structure CastRegistry where
  rules : Table (DataType × DataType) CastRule

namespace CastRegistry

def empty : CastRegistry := ⟨.empty⟩

def rule? (r : CastRegistry) (source target : DataType) : Option CastRule :=
  r.rules.find? (source, target)

/-- Registers a conversion in place of any other between the two types. -/
def register (r : CastRegistry) (source target : DataType) (rule : CastRule) : CastRegistry :=
  ⟨r.rules.insert (source, target) rule⟩

def size (r : CastRegistry) : Nat := r.rules.size

def isEmpty (r : CastRegistry) : Bool := r.rules.isEmpty

/-- The distance from one type to another without being asked: 0 to itself, else the weight of the
conversion. -/
def distance? (r : CastRegistry) (source target : DataType) : Option Nat :=
  if source = target then some 0 else (r.rule? source target).bind CastRule.weight?

/-- The one type can be converted to the other on request. -/
def allowsExplicit (r : CastRegistry) (source target : DataType) : Bool :=
  source = target || (r.rule? source target).isSome

/-- The usual conversions.  Only the widening ones, from truth values to integers to doubles, are
implicit. -/
def standard : CastRegistry :=
  let rules : List (DataType × DataType × CastRule) :=
    [(.bool, .int, ⟨some 1, .map "bool_to_int" Conversion.boolToInt⟩),
     (.int, .double, ⟨some 1, .map "int_to_double" Conversion.intToDouble⟩),
     (.bool, .double, ⟨some 2, .map "bool_to_double" Conversion.boolToDouble⟩),
     (.double, .int, ⟨none, .map "double_to_int" Conversion.doubleToInt⟩),
     (.int, .bool, ⟨none, .map "int_to_bool" Conversion.intToBool⟩),
     (.double, .bool, ⟨none, .map "double_to_bool" Conversion.doubleToBool⟩),
     (.text, .int, ⟨none, .map "text_to_int" Conversion.textToInt⟩),
     (.text, .double, ⟨none, .map "text_to_double" Conversion.textToDouble⟩),
     (.bool, .text, ⟨none, .map "to_text" Conversion.toTextValue⟩),
     (.int, .text, ⟨none, .map "to_text" Conversion.toTextValue⟩),
     (.double, .text, ⟨none, .map "to_text" Conversion.toTextValue⟩),
     (.bool, .trigger, ⟨none, .onChange⟩),
     (.int, .trigger, ⟨none, .onChange⟩),
     (.double, .trigger, ⟨none, .onChange⟩),
     (.text, .trigger, ⟨none, .onChange⟩)]
  rules.foldl (fun r (source, target, rule) => r.register source target rule) empty

theorem rule?_register (r : CastRegistry) (s t s' t' : DataType) (c : CastRule) :
    (r.register s t c).rule? s' t' = if s' = s ∧ t' = t then some c else r.rule? s' t' := by
  simp [register, rule?]

theorem distance?_self (r : CastRegistry) (t : DataType) : r.distance? t t = some 0 := by
  simp [distance?]

end CastRegistry

end Dataflow
