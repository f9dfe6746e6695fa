import Dataflow.Value.Basic

/-!
# Rules

A derived node hands its recomputation to a rule, which sees the state of the node's parents in
order and nothing else of the graph.  A value rule may also see the value the node holds.  Rules do
not fail: a value rule without a result leaves the node as it is.
-/

namespace Dataflow

/-- What a rule sees of one parent. -/
structure Arg where
  /-- The parent's value; triggers have none. -/
  value? : Option Value
  /-- The parent changed or fired in this pass. -/
  fired : Bool
  isTrigger : Bool

/-- A value parent that holds no value yet. -/
def Arg.isMissing (a : Arg) : Bool := !a.isTrigger && a.value?.isNone

/-- Computes the value of a formula from its arguments and the value it holds now. -/
structure ValueRule where
  name : String
  compute : List Arg → Option Value → Option Value

/-- Decides whether a trigger fires. -/
structure TriggerRule where
  name : String
  fires : List Arg → Bool

/-- What a derived node runs by: a formula has a value rule, a trigger a trigger rule. -/
inductive Behavior where
  | value (rule : ValueRule)
  | trigger (rule : TriggerRule)

def Behavior.name : Behavior → String
  | value rule => rule.name
  | trigger rule => rule.name

end Dataflow
