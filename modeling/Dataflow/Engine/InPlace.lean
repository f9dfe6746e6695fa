import Dataflow.Engine.Operation
import Dataflow.Graph.InPlace

/-!
# Operations in place

The operations of engines that may be refused, as steps that change the engine one after the other.  If a step is
refused, what has been made on the way is taken back by further steps, or stays.
-/

namespace Dataflow

namespace Engine.InPlace

open Stepwise

variable {σ α : Type}

def onGraph (p : Stepwise Graph α) : Stepwise (Engine σ) α := within Engine.graph (fun e g => { e with graph := g }) p

/-! ### Construction -/

def computeFirst (id : NodeId) : Stepwise Graph Unit := do
  let g ← get
  match g.node? id with
  | none => return ()
  | some n =>
    match n.kind, (g.args? 0 n.parents).map n.outcome with
    | .formula _ _, some (.value v) => Graph.InPlace.alter id (·.settled 0 (.value v))
    | _, _ => return ()

def createNode (spec : NodeSpec) (parents : List NodeId) : Stepwise (Engine σ) NodeId := do
  read fun _ => checkInitial spec
  let initial? := if spec.kind.isTrigger || !spec.kind.isData then none else spec.initial?
  let id ← onGraph (Graph.InPlace.addNode (.fresh spec.kind parents initial?))
  onGraph (computeFirst id)
  return id

/-- Names a node that has just been made.  It is removed again if that is refused. -/
def place (id scope : NodeId) (name : String) : Stepwise (Engine σ) NodeId := do
  tryCatch (onGraph (Graph.InPlace.setScope id scope name)) fun err => do
    let _ ← onGraph (Graph.InPlace.removeNode id)
    throw err
  return id

def createNamed (scope : NodeId) (name : String) (spec : NodeSpec) (parents : List NodeId) :
    Stepwise (Engine σ) NodeId := do
  read (·.graph.checkScope none scope name)
  let id ← createNode spec parents
  place id scope name

def createScope (scope : NodeId) (name : String) : Stepwise (Engine σ) NodeId := do
  read (·.graph.checkScope none scope name)
  let id ← onGraph (Graph.InPlace.store (.fresh (.scope .empty) [] none))
  place id scope name

def defineFunction (scope : NodeId) (group : FunctionGroup) : Stepwise (Engine σ) NodeId := do
  read (·.graph.checkScope none scope group.name)
  let id ← onGraph (Graph.InPlace.addNode (.fresh (.functionGroup group) [] none))
  place id scope group.name

def removeNode (id : NodeId) : Stepwise (Engine σ) Unit := do
  let e ← get
  if id = e.root then throw (.wrongKind id .removableNode)
  else do
    let removed ← onGraph (Graph.InPlace.removeNode id)
    change fun e => { e with eval := e.eval.remove id }
    change fun e => { e with
      constants :=
        match removed.kind, removed.value? with
        | .constant, some v => e.unshare v id
        | _, _ => e.constants }
    change fun e => { e with
      observers := e.observers.forget id
      tasks := e.tasks.filter (·.node ≠ id) }

def addChild (parent child : NodeId) : Stepwise (Engine σ) Bool := do
  let added ← onGraph (Graph.InPlace.addChild parent child)
  change fun e => if added then e.pendEval child else e
  return added

def removeChild (parent child : NodeId) : Stepwise (Engine σ) Bool := do
  let removed ← onGraph (Graph.InPlace.removeChild parent child)
  change fun e => if removed then e.pendEval child else e
  return removed

def setParents (id : NodeId) (parents : List NodeId) : Stepwise (Engine σ) Unit := do
  onGraph (Graph.InPlace.setParents id parents)
  change (·.pendEval id)

def setScope (id scope : NodeId) (name : String) : Stepwise (Engine σ) Unit :=
  onGraph (Graph.InPlace.setScope id scope name)

/-! ### Writes and constants -/

/-- Leaves a change staged for a node, or nothing. -/
def stage (id : NodeId) (staged? : Option Staged) : Stepwise (Engine σ) Unit :=
  onGraph (Graph.InPlace.alter id fun n => { n with staged? := staged? })

def setInput (id : NodeId) (v : Value) : Stepwise (Engine σ) Bool := do
  let n ← read (·.node id)
  match n.kind with
  | .input expected =>
    if v.dataType ≠ expected then throw (.typeMismatch id expected v.dataType)
    else if n.value? = some v then
      if n.staged? = none then return false
      else do
        stage id none
        change fun e => { e with eval := e.eval.remove id }
        return true
    else if n.staged? = some (.value v) then return false
    else do
      stage id (some (.value v))
      change fun e => { e with eval := e.eval.insert id n.depth }
      return true
  | _ => throw (.wrongKind id .input)

def provoke (id : NodeId) : Stepwise (Engine σ) Bool := do
  let n ← read (·.node id)
  match n.kind with
  | .triggerInput =>
    if n.staged? ≠ none then return false
    else do
      stage id (some .provoke)
      change fun e => { e with eval := e.eval.insert id n.depth }
      return true
  | _ => throw (.wrongKind id .triggerInput)

def constant (v : Value) : Stepwise (Engine σ) NodeId := do
  let e ← get
  match if e.config.dedupConstants then e.shared? v else none with
  | some id => return id
  | none => do
    let id ← createNode (.constant v) []
    if e.config.dedupConstants then do
      change fun e => { e with constants := e.constants.insert v id }
      return id
    else return id

def intern (id : NodeId) : Stepwise (Engine σ) NodeId := do
  let n ← read (·.node id)
  let e ← get
  match n.kind, n.value? with
  | .constant, none => return id
  | .constant, some v =>
    match e.shared? v with
    | some other =>
      if other = id ∨ n.children ≠ [] ∨ n.name? ≠ none then return id
      else do
        removeNode id
        return other
    | none => do
      change fun e => { e with constants := e.constants.insert v id }
      return id
  | _, _ => throw (.wrongKind id .constant)

def setConstant (id : NodeId) (v : Value) : Stepwise (Engine σ) Bool := do
  let n ← read (·.node id)
  read fun _ => checkFold id n v
  if n.staged? = some (.value v) ∨ (n.staged? = none ∧ n.value? = some v) then return false
  else do
    stage id (some (.value v))
    change fun e => { e with eval := e.eval.insert id n.depth }
    change fun e => { e with
      constants :=
        match n.value? with
        | some old => e.unshare old id
        | none => e.constants }
    return true

/-! ### Conversions and calls -/

def castBy (id : NodeId) (target : DataType) (rule? : CastRegistry → DataType → Option CastRule) :
    Stepwise (Engine σ) NodeId := do
  let source ← read (·.dataType id)
  if source = target then return id
  else do
    let e ← get
    match rule? e.casts source with
    | some rule =>
      if source = .trigger then throw (.castRejected id target)
      else createNode (rule.nodeSpec target) [id]
    | none => throw (.noCastPath source target)

def implicitCast (id : NodeId) (target : DataType) : Stepwise (Engine σ) NodeId :=
  castBy id target fun casts source => (casts.rule? source target).filter (·.weight?.isSome)

def explicitCast (id : NodeId) (target : DataType) : Stepwise (Engine σ) NodeId :=
  castBy id target fun casts source => casts.rule? source target

/-- Works on the engine, with a list kept beside it. -/
def beside (p : Stepwise (Engine σ) α) : Stepwise (Engine σ × List NodeId) α :=
  within Prod.fst (fun s e => (e, s.2)) p

/-- Converts the arguments of a call one after the other, and lists the conversion nodes made, the latest first. -/
def wire (wired : List NodeId) : List (NodeId × DataType) → Stepwise (Engine σ × List NodeId) (List NodeId)
  | [] => return wired
  | arg :: rest => do
    let id ← beside (implicitCast arg.1 arg.2)
    change fun s => (s.1, if id = arg.1 then s.2 else id :: s.2)
    wire (wired ++ [id]) rest

def removeAll (ids : List NodeId) : Stepwise (Engine σ) Unit :=
  ids.forM fun id => tryCatch (removeNode id) fun _ => return ()

/-- Removes the nodes on the list, and is refused for what made that necessary. -/
def takeBack (err : GraphError) : Stepwise (Engine σ × List NodeId) α := do
  let s ← get
  beside (removeAll s.2)
  throw err

/-- Works with a list beside the engine that is empty at first and given up in the end. -/
def listing (p : Stepwise (Engine σ × List NodeId) α) : Stepwise (Engine σ) α := within (·, []) (fun _ s => s.1) p

/-- Builds the node of a definition over arguments that are converted first.  If anything is refused, the conversion
nodes are removed again. -/
def build (d : FunctionDef) (args : List NodeId) : Stepwise (Engine σ) NodeId :=
  let params := (List.range args.length).filterMap d.paramType?
  listing <| tryCatch (wire [] (args.zip params) >>= fun wired => beside (createNode d.nodeSpec wired)) takeBack

def call (group : NodeId) (args : List NodeId) : Stepwise (Engine σ) NodeId := do
  let r ← read (·.resolveCall group args)
  match r, args with
  | ⟨_, _, _, true⟩, arg :: _ => return arg
  | _, _ => build r.definition args

/-! ### Observers -/

def onValue (id : NodeId) (callback : Callback σ) : Stepwise (Engine σ) ObserverId := do
  let n ← read (·.node id)
  if n.kind.isTrigger || !n.kind.isData then throw (.wrongKind id .valueNode)
  else modifyGet (·.register ⟨id, .value, callback⟩)

def onProvoked (id : NodeId) (callback : Callback σ) : Stepwise (Engine σ) ObserverId := do
  let n ← read (·.node id)
  if n.kind.isTrigger then modifyGet (·.register ⟨id, .provoke, callback⟩)
  else throw (.wrongKind id .trigger)

end Engine.InPlace

namespace Operation

variable {σ : Type}

/-- An operation step by step.  Operations that are never refused are a step each. -/
def inPlace : Operation σ → Stepwise (Engine σ) Unit
  | createNode spec parents => discard (Engine.InPlace.createNode spec.toNodeSpec parents)
  | createNamed scope name spec parents => discard (Engine.InPlace.createNamed scope name spec.toNodeSpec parents)
  | createScope scope name => discard (Engine.InPlace.createScope scope name)
  | defineFunction scope group => discard (Engine.InPlace.defineFunction scope group)
  | constant v => discard (Engine.InPlace.constant v)
  | intern id => discard (Engine.InPlace.intern id)
  | call group args => discard (Engine.InPlace.call group args)
  | implicitCast id target => discard (Engine.InPlace.implicitCast id target)
  | explicitCast id target => discard (Engine.InPlace.explicitCast id target)
  | removeNode id => Engine.InPlace.removeNode id
  | addChild parent child => discard (Engine.InPlace.addChild parent child)
  | removeChild parent child => discard (Engine.InPlace.removeChild parent child)
  | setParents id parents => Engine.InPlace.setParents id parents
  | setScope id scope name => Engine.InPlace.setScope id scope name
  | setInput id v => discard (Engine.InPlace.setInput id v)
  | setConstant id v => discard (Engine.InPlace.setConstant id v)
  | provoke id => discard (Engine.InPlace.provoke id)
  | onValue id callback => discard (Engine.InPlace.onValue id callback)
  | onProvoked id callback => discard (Engine.InPlace.onProvoked id callback)
  | op => Stepwise.change op.apply

end Operation

end Dataflow
