import Dataflow.Engine.Scope

/-!
# Calls and conversions

A call picks a definition by the types of its arguments and builds the node of that definition.
Arguments of other types than the parameters are converted by nodes put in front of them.  When a
call fails, the conversion nodes made for it are removed again.
-/

namespace Dataflow.Engine

variable {σ : Type}

def functionGroup (e : Engine σ) (id : NodeId) : Except GraphError FunctionGroup := do
  match (← e.node id).kind with
  | .functionGroup group => .ok group
  | _ => .error (.wrongKind id .functionGroup)

/-- The definition that a call with arguments of the given types would pick. -/
def resolve (e : Engine σ) (group : FunctionGroup) (args : List DataType) :
    Except GraphError Resolution :=
  match group.resolve? e.casts args with
  | some resolution => .ok resolution
  | none => .error (.noOverloadMatch group.name args)

/-- Builds the node of a conversion.  A trigger carries no value to convert. -/
def convert (e : Engine σ) (id : NodeId) (source target : DataType) (rule : CastRule) :
    Except GraphError (NodeId × Engine σ) :=
  if source = .trigger then .error (.castRejected id target)
  else e.createNode (rule.nodeSpec target) [id]

/-- Converts a node to a type by a rule that has been found for the two types; a node of the type is
given back unchanged. -/
def castBy (e : Engine σ) (id : NodeId) (target : DataType) (rule? : DataType → Option CastRule) :
    Except GraphError (NodeId × Engine σ) := do
  let source ← e.dataType id
  if source = target then return (id, e)
  else
    match rule? source with
    | some rule => e.convert id source target rule
    | none => .error (.noCastPath source target)

/-- Converts a node to a type if that may be done without being asked for. -/
def implicitCast (e : Engine σ) (id : NodeId) (target : DataType) :
    Except GraphError (NodeId × Engine σ) :=
  e.castBy id target fun source => (e.casts.rule? source target).filter (·.weight?.isSome)

def explicitCast (e : Engine σ) (id : NodeId) (target : DataType) :
    Except GraphError (NodeId × Engine σ) :=
  e.castBy id target fun source => e.casts.rule? source target

/-- The state while the arguments of a call are converted. -/
structure Wiring (σ : Type) where
  engine : Engine σ
  /-- The conversion nodes made so far, the latest first. -/
  made : List NodeId
  /-- The arguments to be read by the call, unless a conversion was refused. -/
  args : Except GraphError (List NodeId)

def Wiring.add (w : Wiring σ) (arg : NodeId × DataType) : Wiring σ :=
  match w.args with
  | .error _ => w
  | .ok args =>
    match w.engine.implicitCast arg.1 arg.2 with
    | .error err => { w with args := .error err }
    | .ok (id, next) => ⟨next, if id = arg.1 then w.made else id :: w.made, .ok (args ++ [id])⟩

/-- Removes nodes one after the other, as far as they can be removed. -/
def removeAll (e : Engine σ) (ids : List NodeId) : Engine σ :=
  ids.foldl (fun e id =>
    match e.removeNode id with
    | .ok next => next
    | .error _ => e) e

def wire (e : Engine σ) (d : FunctionDef) (args : List NodeId) : Wiring σ :=
  let params := (List.range args.length).filterMap d.paramType?
  (args.zip params).foldl Wiring.add ⟨e, [], .ok []⟩

/-- Builds the node of a definition over arguments that are converted first, or leaves no node
behind. -/
def build (e : Engine σ) (d : FunctionDef) (args : List NodeId) :
    Except GraphError NodeId × Engine σ :=
  let w := e.wire d args
  match w.args.bind fun wired => w.engine.createNode d.nodeSpec wired with
  | .ok (id, next) => (.ok id, next)
  | .error err => (.error err, w.engine.removeAll w.made)

/-- The definition that a call of the function of a group on the given arguments picks. -/
def resolveCall (e : Engine σ) (group : NodeId) (args : List NodeId) :
    Except GraphError Resolution := do
  let group ← e.functionGroup group
  let types ← args.mapM e.dataType
  e.resolve group types

def call (e : Engine σ) (group : NodeId) (args : List NodeId) :
    Except GraphError NodeId × Engine σ :=
  match e.resolveCall group args, args with
  | .error err, _ => (.error err, e)
  | .ok ⟨_, _, _, true⟩, arg :: _ => (.ok arg, e)
  | .ok r, _ => e.build r.definition args

end Dataflow.Engine
