import Dataflow.Graph.Propagation
import Dataflow.Table

/-!
# Observers

An observer is called at the end of every pass in which its node changed or fired.  It does not see
the graph: it is told what happened, and handed the queue of the edits that are to be made once all
observers have been called, to which it may add what it asks for.  What observers do beyond that is a
change to the state of the host, of type `σ`.

Calls to observers, and the resets of triggers that fired, are queued while nodes are evaluated, in
the order of evaluation, and for one node in the order in which its observers were registered.
-/

namespace Dataflow

/-- What an observer is told. -/
inductive Notification where
  | valueChanged (node : NodeId) (value : Value)
  | provoked (node : NodeId)
  deriving DecidableEq

def Notification.node : Notification → NodeId
  | valueChanged node _ | provoked node => node

/-- A change from outside that an observer asks for. -/
inductive Edit where
  | setValue (node : NodeId) (value : Value)
  | provoke (node : NodeId)
  deriving DecidableEq

/-- What an observer waits for. -/
inductive Watch where
  | value
  | provoke
  deriving DecidableEq

/-- What an observer does when it is told something: it is given the edits that have been asked for so far, gives
back those that are to be made, and changes the state of the host. -/
abbrev Callback (σ : Type) := Notification → List Edit → σ → List Edit × σ

structure ObserverId where
  raw : Nat
  deriving DecidableEq

structure Observer (σ : Type) where
  node : NodeId
  watch : Watch
  callback : Callback σ

/-- Work that waits for the end of the pass. -/
inductive Task where
  /-- A trigger that fired is to be reset. -/
  | reset (node : NodeId)
  | notify (observer : ObserverId) (notification : Notification)
  deriving DecidableEq

namespace Task

def node : Task → NodeId
  | reset node => node
  | notify _ notification => notification.node

/-- The work is a call of the given observer. -/
def isCallOf (observer : ObserverId) : Task → Bool
  | reset _ => false
  | notify o _ => o = observer

end Task

/-- The registered observers in the order of their registration, an index of them by node, and the number of the next
one. -/
structure ObserverTable (σ : Type) where
  entries : List (ObserverId × Observer σ)
  /-- The observers of every node that has any, in the order of their registration. -/
  byNode : Table NodeId (List ObserverId)
  next : Nat

namespace ObserverTable

variable {σ : Type}

def empty : ObserverTable σ := ⟨[], .empty, 0⟩

def find? (t : ObserverTable σ) (id : ObserverId) : Option (Observer σ) :=
  (t.entries.find? fun e => e.1 = id).map Prod.snd

/-- The observers that the index lists for a node. -/
def listed (t : ObserverTable σ) (node : NodeId) : List ObserverId := (t.byNode.find? node).getD []

def register (t : ObserverTable σ) (o : Observer σ) : ObserverId × ObserverTable σ :=
  (⟨t.next⟩,
    { entries := t.entries ++ [(⟨t.next⟩, o)]
      byNode := t.byNode.insert o.node (t.listed o.node ++ [⟨t.next⟩])
      next := t.next + 1 })

/-- Takes an observer out of the table, and out of the index with the last one of its node. -/
def unregister (t : ObserverTable σ) (id : ObserverId) : ObserverTable σ :=
  match t.find? id with
  | none => t
  | some o =>
    let others := (t.listed o.node).filter (· ≠ id)
    { t with
      entries := t.entries.filter (·.1 ≠ id)
      byNode := if others = [] then t.byNode.erase o.node else t.byNode.insert o.node others }

/-- Takes out all observers of a node. -/
def forget (t : ObserverTable σ) (node : NodeId) : ObserverTable σ :=
  { t with
    entries := t.entries.filter (·.1 ∉ t.listed node)
    byNode := t.byNode.erase node }

/-- The observers of a node that wait for the given thing, in the order of their registration. -/
def watching (t : ObserverTable σ) (node : NodeId) (watch : Watch) : List ObserverId :=
  (t.listed node).filter fun id => (t.find? id).any (·.watch = watch)

/-- The work that the evaluation of a node leaves for the end of the pass. -/
def tasksAfter (t : ObserverTable σ) (v : Visit) : List Task :=
  let node := v.entry.node
  match v.outcome with
  | .value value => (t.watching node .value).map (.notify · (.valueChanged node value))
  | .fire => .reset node :: (t.watching node .provoke).map (.notify · (.provoked node))
  | .unchanged | .skip => []

end ObserverTable

end Dataflow
