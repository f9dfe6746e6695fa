import Dataflow.Engine.Call
import Dataflow.Engine.Constant
import Dataflow.Engine.Observation
import Dataflow.Engine.Pass

/-!
# Operations

What a host can do with an engine, one operation at a time, in any order.  A refused operation
leaves the engine as it is.  A group of edits is opened and closed by operations of their own, so
that everything in between is an operation too. `Reachable` says which engines there can be, and how
many nodes had to be created for them.
-/

namespace Dataflow

/-- A specification that a host can write down: scopes and function groups are not created this way,
and a constant has a value. -/
structure HostSpec extends NodeSpec where
  isData : kind.isData = true
  isSome_initial : kind = .constant → initial?.isSome = true

namespace HostSpec

def input (t : DataType) : HostSpec := ⟨.input t, rfl, fun h => NodeKind.noConfusion h⟩

def inputWith (v : Value) : HostSpec := ⟨.inputWith v, rfl, fun h => NodeKind.noConfusion h⟩

def constant (v : Value) : HostSpec := ⟨.constant v, rfl, fun _ => rfl⟩

def triggerInput : HostSpec := ⟨.triggerInput, rfl, fun h => NodeKind.noConfusion h⟩

def formula (t : DataType) (rule : ValueRule) : HostSpec :=
  ⟨.formula t rule, rfl, fun h => NodeKind.noConfusion h⟩

end HostSpec

/-- What a host can do with an engine. -/
inductive Operation (σ : Type) where
  | createNode (spec : HostSpec) (parents : List NodeId)
  | createNamed (scope : NodeId) (name : String) (spec : HostSpec) (parents : List NodeId)
  | createScope (scope : NodeId) (name : String)
  | defineFunction (scope : NodeId) (group : FunctionGroup)
  | constant (v : Value)
  | intern (id : NodeId)
  | call (group : NodeId) (args : List NodeId)
  | implicitCast (id : NodeId) (target : DataType)
  | explicitCast (id : NodeId) (target : DataType)
  | removeNode (id : NodeId)
  | addChild (parent child : NodeId)
  | removeChild (parent child : NodeId)
  | setParents (id : NodeId) (parents : List NodeId)
  | setScope (id scope : NodeId) (name : String)
  | setInput (id : NodeId) (v : Value)
  | setConstant (id : NodeId) (v : Value)
  | provoke (id : NodeId)
  | onValue (id : NodeId) (callback : Callback σ)
  | onProvoked (id : NodeId) (callback : Callback σ)
  | removeObserver (id : ObserverId)
  /-- Registers other conversions. -/
  | setCasts (casts : CastRegistry)
  | drainUpdate
  | drainEval
  | finalize
  | runPass
  /-- Begins a group of edits. -/
  | openGroup
  /-- Ends a group of edits, and runs the pass that it put off. -/
  | closeGroup
  /-- Ends a group of edits without its pass, as when the edits break off. -/
  | abandonGroup
  /-- Changes the state that observers work on, from outside. -/
  | setHost (host : σ)

namespace Engine

variable {σ : Type}

/-- The engine after an operation that may have been refused. -/
def accept (e : Engine σ) : Except GraphError (Engine σ) → Engine σ
  | .ok next => next
  | .error _ => e

/-- The number of nodes created to build the node of a definition, those included that are removed
again. -/
def createdByBuild (e : Engine σ) (d : FunctionDef) (args : List NodeId) : Nat :=
  let w := e.wire d args
  match w.args.bind fun wired => w.engine.createNode d.nodeSpec wired with
  | .ok _ => w.made.length + 1
  | .error _ => w.made.length

def createdByCall (e : Engine σ) (group : NodeId) (args : List NodeId) : Nat :=
  match e.resolveCall group args, args with
  | .error _, _ => 0
  | .ok ⟨_, _, _, true⟩, _ :: _ => 0
  | .ok r, _ => e.createdByBuild r.definition args

end Engine

namespace Operation

variable {σ : Type}

def apply : Operation σ → Engine σ → Engine σ
  | createNode spec parents, e => e.accept ((e.createNode spec.toNodeSpec parents).map Prod.snd)
  | createNamed scope name spec parents, e =>
    e.accept ((e.createNamed scope name spec.toNodeSpec parents).map Prod.snd)
  | createScope scope name, e => e.accept ((e.createScope scope name).map Prod.snd)
  | defineFunction scope group, e => e.accept ((e.defineFunction scope group).map Prod.snd)
  | constant v, e => e.accept ((e.constant v).map Prod.snd)
  | intern id, e => e.accept ((e.intern id).map Prod.snd)
  | call group args, e => (e.call group args).2
  | implicitCast id target, e => e.accept ((e.implicitCast id target).map Prod.snd)
  | explicitCast id target, e => e.accept ((e.explicitCast id target).map Prod.snd)
  | removeNode id, e => e.accept (e.removeNode id)
  | addChild parent child, e => e.accept ((e.addChild parent child).map Prod.snd)
  | removeChild parent child, e => e.accept ((e.removeChild parent child).map Prod.snd)
  | setParents id parents, e => e.accept (e.setParents id parents)
  | setScope id scope name, e => e.accept (e.setScope id scope name)
  | setInput id v, e => e.accept ((e.setInput id v).map Prod.snd)
  | setConstant id v, e => e.accept ((e.setConstant id v).map Prod.snd)
  | provoke id, e => e.accept ((e.provoke id).map Prod.snd)
  | onValue id callback, e => e.accept ((e.onValue id callback).map Prod.snd)
  | onProvoked id callback, e => e.accept ((e.onProvoked id callback).map Prod.snd)
  | removeObserver id, e => (e.removeObserver id).2
  | setCasts casts, e => { e with casts := casts }
  | drainUpdate, e => e.drainUpdate.2.2
  | drainEval, e => e.drainEval.2.2
  | finalize, e => e.finalize.2.2
  | runPass, e => e.runPass.2.2
  | openGroup, e => { e with groupLevel := e.groupLevel + 1 }
  | closeGroup, e => { e with groupLevel := e.groupLevel - 1 }.runPass.2.2
  | abandonGroup, e => { e with groupLevel := e.groupLevel - 1 }
  | setHost host, e => { e with host := host }

def created : Operation σ → Engine σ → Nat
  | createNode spec parents, e => count (e.createNode spec.toNodeSpec parents)
  | createNamed scope name spec parents, e => count (e.createNamed scope name spec.toNodeSpec parents)
  | createScope scope name, e => count (e.createScope scope name)
  | defineFunction scope group, e => count (e.defineFunction scope group)
  | constant v, e =>
    if e.config.dedupConstants && (e.shared? v).isSome then 0 else count (e.constant v)
  | call group args, e => e.createdByCall group args
  | implicitCast id target, e => countOther id (e.implicitCast id target)
  | explicitCast id target, e => countOther id (e.explicitCast id target)
  | _, _ => 0
where
  /-- One node, unless the operation is refused. -/
  count {α : Type} : Except GraphError α → Nat
    | .ok _ => 1
    | .error _ => 0
  /-- One node, unless the operation is refused or gives back the node it was given. -/
  countOther {α : Type} (id : NodeId) : Except GraphError (NodeId × α) → Nat
    | .ok (other, _) => if other = id then 0 else 1
    | .error _ => 0

/-- Why an operation is refused, if it is. -/
def refusal? : Operation σ → Engine σ → Option GraphError
  | createNode spec parents, e => reason (e.createNode spec.toNodeSpec parents)
  | createNamed scope name spec parents, e => reason (e.createNamed scope name spec.toNodeSpec parents)
  | createScope scope name, e => reason (e.createScope scope name)
  | defineFunction scope group, e => reason (e.defineFunction scope group)
  | constant v, e => reason (e.constant v)
  | intern id, e => reason (e.intern id)
  | call group args, e => reason (e.call group args).1
  | implicitCast id target, e => reason (e.implicitCast id target)
  | explicitCast id target, e => reason (e.explicitCast id target)
  | removeNode id, e => reason (e.removeNode id)
  | addChild parent child, e => reason (e.addChild parent child)
  | removeChild parent child, e => reason (e.removeChild parent child)
  | setParents id parents, e => reason (e.setParents id parents)
  | setScope id scope name, e => reason (e.setScope id scope name)
  | setInput id v, e => reason (e.setInput id v)
  | setConstant id v, e => reason (e.setConstant id v)
  | provoke id, e => reason (e.provoke id)
  | onValue id callback, e => reason (e.onValue id callback)
  | onProvoked id callback, e => reason (e.onProvoked id callback)
  | _, _ => none
where
  reason {α : Type} : Except GraphError α → Option GraphError
    | .ok _ => none
    | .error err => some err

end Operation

def Engine.run {σ : Type} (e : Engine σ) : List (Operation σ) → Engine σ
  | [] => e
  | op :: ops => (op.apply e).run ops

theorem Engine.run_append {σ : Type} (e : Engine σ) (ops more : List (Operation σ)) :
    e.run (ops ++ more) = (e.run ops).run more := by
  induction ops generalizing e with
  | nil => rfl
  | cons op ops ih => exact ih _

def Engine.createdBy {σ : Type} (e : Engine σ) : List (Operation σ) → Nat
  | [] => 0
  | op :: ops => op.created e + (op.apply e).createdBy ops

/-- The engines that a host can bring about, with the number of nodes created on the way. -/
inductive Reachable {σ : Type} : Nat → Engine σ → Prop
  | new (config : EngineConfig) (host : σ) : Reachable 0 (.new config host)
  | step {created : Nat} {e : Engine σ} (op : Operation σ) :
      Reachable created e → Reachable (created + op.created e) (op.apply e)

theorem Reachable.run {σ : Type} {created : Nat} {e : Engine σ} (h : Reachable created e)
    (ops : List (Operation σ)) : Reachable (created + e.createdBy ops) (e.run ops) := by
  induction ops generalizing created e with
  | nil => exact h
  | cons op ops ih =>
    have hops := ih (h.step op)
    rwa [Nat.add_assoc] at hops

end Dataflow
