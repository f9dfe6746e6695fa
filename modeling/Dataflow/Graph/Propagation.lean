import Dataflow.Graph.Scope

/-!
# Propagation

Evaluation takes nodes from a pending set, the one of least depth first, and lets each become what
its rule makes of its parents.  A node that changes, and a trigger that fires, make their children
pending.  `propagate` also lists what it did, one entry for each node it came to.
-/

namespace Dataflow

/-- What evaluation did at one node. -/
structure Visit where
  /-- The node, and the depth under which it was pending. -/
  entry : Pending
  /-- What the node's rule saw of its parents. -/
  args : List Arg
  outcome : Outcome
  /-- The node in a line, after the outcome. -/
  description : String

/-- The node was evaluated, and not only looked at. -/
def Visit.isEvaluation (v : Visit) : Bool := v.outcome ≠ .skip

namespace Graph

/-- What a rule sees of the given parents in a pass, if they all exist. -/
def args? (g : Graph) (pass : Nat) (parents : List NodeId) : Option (List Arg) :=
  parents.mapM fun parent => (g.node? parent).map (·.toArg pass)

/-- Evaluates a node that has been taken out, if it and its parents exist.  The pending set receives
its children if it changed. -/
def visit? (g : Graph) (pass : Nat) (pending : PendingSet) (e : Pending) :
    Option (Visit × Graph × PendingSet) := do
  let n ← g.node? e.node
  let args ← g.args? pass n.parents
  let outcome := n.outcome args
  let next := g.modify e.node (·.settled pass outcome)
  let woken := if outcome.isChange then next.withDepths n.children else []
  return (⟨e, args, outcome, next.describe e.node⟩, next, pending.insertAll woken)

def propagateWithin (pass : Nat) : Nat → Graph → PendingSet → List Visit × Graph × PendingSet
  | 0, g, pending => ([], g, pending)
  | fuel + 1, g, pending =>
    match pending.pop? with
    | none => ([], g, pending)
    | some (e, rest) =>
      match g.visit? pass rest e with
      | none => propagateWithin pass fuel g rest
      | some (v, next, woken) =>
        let (more, last) := propagateWithin pass fuel next woken
        (v :: more, last)

/-- Evaluates all pending nodes and all nodes affected by them.  With settled depths every node is
evaluated at most once, after all of its parents. -/
def propagate (g : Graph) (pass : Nat) (pending : PendingSet) : List Visit × Graph × PendingSet :=
  propagateWithin pass (pending.size + g.size + 1) g pending

end Graph

end Dataflow
