import Dataflow.Binary64.Order
import Dataflow.Text.Order
import Dataflow.Value.Basic

/-!
# The order of values

Values of one type are in their natural order: false before true, integers by size, doubles in the
total order of their bits, texts by the code points of their characters.  Values of different types
are in the order of the types, so that any list of values can be sorted.
-/

namespace Dataflow.Value

/-- The order of values, which is total over all four types. -/
def order : Value → Value → Ordering
  | bool a, bool b => compare a b
  | int a, int b => compare a.toInt b.toInt
  | double a, double b => compare a b
  | text a, text b => Text.order a b
  | a, b => compare a.dataType b.dataType

instance : Ord Value := ⟨order⟩

end Dataflow.Value
