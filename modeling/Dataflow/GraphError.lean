import Dataflow.DataType
import Dataflow.NodeId

/-!
# Errors

Why an operation on a graph was refused.  An operation reports its first reason, in the order in
which it checks. Evaluation itself does not fail.
-/

namespace Dataflow

/-- What a node would have to be for an operation to apply to it. -/
inductive Role where
  | dataNode
  | derivedNode
  | removableNode
  | valueNode
  | constant
  | input
  | triggerInput
  | trigger
  | scope
  | functionGroup
  deriving DecidableEq

def Role.description : Role → String
  | dataNode => "a data node"
  | derivedNode => "a derived node"
  | removableNode => "a removable node"
  | valueNode => "a value node"
  | constant => "a constant"
  | input => "an input"
  | triggerInput => "a trigger input"
  | trigger => "a trigger"
  | scope => "a namespace"
  | functionGroup => "a function group"

/-- Why an operation on a graph was refused. -/
inductive GraphError where
  /-- The link would make `parent` depend on itself. -/
  | graphCycle (parent child : NodeId)
  | duplicateName (scope : NodeId) (name : String)
  /-- The text is neither a name nor, where one is asked for, a path. -/
  | invalidName (text : String)
  /-- No definition of the function accepts arguments of these types. -/
  | noOverloadMatch (name : String) (args : List DataType)
  | noCastPath (source target : DataType)
  /-- There is a conversion, but the node cannot feed it. -/
  | castRejected (node : NodeId) (target : DataType)
  /-- Other nodes depend on the node or are its members. -/
  | danglingChild (node : NodeId) (count : Nat)
  | unexpectedParents (label : String)
  | unknownNode (node : NodeId)
  | notFound (path : String)
  /-- The operation does not apply to nodes of this kind. -/
  | wrongKind (node : NodeId) (expected : Role)
  /-- The node holds values of another type. -/
  | typeMismatch (node : NodeId) (expected found : DataType)
  deriving DecidableEq

def GraphError.message : GraphError → String
  | graphCycle parent child =>
    "adding " ++ child.toText ++ " as a child of " ++ parent.toText ++ " would create a cycle"
  | duplicateName scope name => "name '" ++ name ++ "' is already taken in scope " ++ scope.toText
  | invalidName text => "invalid name: '" ++ text ++ "'"
  | noOverloadMatch name args =>
    "no overload of '" ++ name ++ "' matches (" ++ ", ".intercalate (args.map DataType.name) ++ ")"
  | noCastPath source target => "no conversion from " ++ source.name ++ " to " ++ target.name
  | castRejected node target => "node " ++ node.toText ++ " cannot be converted to " ++ target.name
  | danglingChild node count =>
    "node " ++ node.toText ++ " still has " ++ toString count ++ " dependent node(s)"
  | unexpectedParents label => "a " ++ label ++ " node cannot have parents"
  | unknownNode node => "unknown node " ++ node.toText
  | notFound path => "'" ++ path ++ "' not found"
  | wrongKind node expected => "node " ++ node.toText ++ " is not " ++ expected.description
  | typeMismatch node expected found =>
    "node " ++ node.toText ++ " holds " ++ expected.name ++ ", got " ++ found.name

end Dataflow
