import Dataflow.Graph.Basic

/-!
# Settling depths

The depth update takes out the pending nodes, the one stored at the least depth first, and computes
their depths from their parents.  A node whose depth changes makes its children pending, each under
the depth stored for it. `settleDepths` also lists what it did, one entry for each node taken out.
-/

namespace Dataflow

/-- What the depth update did with one entry it took out. -/
structure Settling where
  /-- The node, and the depth under which it was pending. -/
  entry : Pending
  /-- The depth computed from its parents; none if the node or a parent of it does not exist. -/
  depth? : Option Nat
  /-- The computed depth differs from the stored one. -/
  changed : Bool

namespace Graph

def settle (g : Graph) (e : Pending) : Settling × Graph :=
  match g.node? e.node with
  | none => (⟨e, none, false⟩, g)
  | some n =>
    match g.depthBelow n.parents with
    | .error _ => (⟨e, none, false⟩, g)
    | .ok depth =>
      if depth = n.depth then (⟨e, some depth, false⟩, g)
      else
        let moved := g.modify e.node fun n => { n with depth := depth }
        (⟨e, some depth, true⟩,
          { moved with update := moved.update.insertAll (moved.withDepths n.children) })

def settleWithin : Nat → Graph → List Settling × Graph
  | 0, g => ([], g)
  | fuel + 1, g =>
    match g.update.pop? with
    | none => ([], g)
    | some (e, rest) =>
      let (done, next) := { g with update := rest }.settle e
      let (more, last) := settleWithin fuel next
      (done :: more, last)

/-- An upper bound for the number of entries that the depth update takes out: a node changes its
depth no more often than there are paths to it, and each time makes no more than all nodes
pending. -/
def settleBound (g : Graph) : Nat := (g.update.size + 1) * Nat.pow (g.size + 1) (g.size + 2)

/-- Settles the depths of all pending nodes, and of all nodes below them that are affected. -/
def settleDepths (g : Graph) : List Settling × Graph := settleWithin g.settleBound g

/-- Every depth is what the parents' depths make it. -/
def depthsConsistent (g : Graph) : Bool :=
  g.nodes.all fun (_, n) =>
    match g.depthBelow n.parents with
    | .ok depth => depth = n.depth
    | .error _ => false

end Graph

end Dataflow
