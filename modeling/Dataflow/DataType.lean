/-!
# Data types

The closed catalogue of what a node can produce: four types of values, and triggers, which carry no
value.
-/

namespace Dataflow

/-- What a node produces. -/
inductive DataType where
  | bool
  | int
  | double
  | text
  | trigger
  deriving DecidableEq

namespace DataType

def all : List DataType := [bool, int, double, text, trigger]

def valueTypes : List DataType := [bool, int, double, text]

def name : DataType → String
  | bool => "Bool"
  | int => "Int"
  | double => "Double"
  | text => "Text"
  | trigger => "Trigger"

def ofName? (s : String) : Option DataType := all.find? (·.name = s)

/-- The position of a type in the catalogue. -/
def rank : DataType → Nat
  | bool => 0
  | int => 1
  | double => 2
  | text => 3
  | trigger => 4

instance : Ord DataType := ⟨fun a b => compare a.rank b.rank⟩

theorem mem_all (t : DataType) : t ∈ all := by cases t <;> decide

theorem rank_inj {a b : DataType} (h : a.rank = b.rank) : a = b := by
  cases a <;> cases b <;> first | rfl | cases h

/-- Types are told apart by their names. -/
theorem ofName?_name (t : DataType) : ofName? t.name = some t := by cases t <;> decide

end DataType

end Dataflow
