import Dataflow.Stepwise
import Dataflow.Store

/-!
# Stores that are counted

A store that is changed in place, together with the number of things in it, which goes up and down as they come and go.
Taking a thing out empties its slot before it is known whether there was anything in it, so that a removal may be
refused after it has worked on a slot.

`issued` lists the ids that are given out in the course of some requests, and `Holds` says which of them are in use,
looking at nothing but the requests and what was given for them.
-/

namespace Dataflow.Store

open Stepwise

/-- A store together with the number of things in it. -/
structure Counted (α : Type) where
  store : Store α
  count : Nat

namespace Counted

variable {α : Type}

def empty : Counted α := ⟨.empty, 0⟩

/-- The slot that an id names, occupied or vacant. -/
def slot (s : Counted α) (id : NodeId) : Except GraphError (Slot α) :=
  match s.store.slots[id.index]? with
  | some slot => if slot.generation = id.generation then .ok slot else .error (.unknownNode id)
  | none => .error (.unknownNode id)

def get (s : Counted α) (id : NodeId) : Except GraphError α := do
  let slot ← s.slot id
  slot.content?.elim (.error (.unknownNode id)) .ok

def contains (s : Counted α) (id : NodeId) : Bool := (s.get id).isOk

def size (s : Counted α) : Nat := s.count

def isEmpty (s : Counted α) : Bool := s.count = 0

/-- The things stored with their ids, by slot. -/
def entries (s : Counted α) : List (NodeId × α) := s.store.entries

def putSlot (s : Counted α) (index : Nat) (slot : Slot α) : Counted α :=
  { s with store := { s.store with slots := s.store.slots.setIfInBounds index slot } }

def insert (s : Counted α) (a : α) : NodeId × Counted α :=
  let (id, store) := s.store.insert a
  (id, ⟨store, s.count + 1⟩)

/-- Changes a thing, which has to be there. -/
def alter (id : NodeId) (f : α → α) : Stepwise (Counted α) Unit := do
  let slot ← read (·.slot id)
  match slot.content? with
  | none => throw (.unknownNode id)
  | some a => change (·.putSlot id.index { slot with content? := some (f a) })

/-- Takes out a thing and retires its id. -/
def remove (id : NodeId) : Stepwise (Counted α) α := do
  let slot ← read (·.slot id)
  change (·.putSlot id.index { slot with content? := none })
  match slot.content? with
  | none => throw (.unknownNode id)
  | some a => do
    change (·.putSlot id.index { generation := slot.generation + 1, content? := none })
    change fun s => { s with store := { s.store with vacant := id.index :: s.store.vacant } }
    change fun s => { s with count := s.count - 1 }
    return a

/-! ### Sequences of requests -/

/-- What a store is asked for that changes it. -/
inductive Request (α : Type) where
  | insert (a : α)
  | remove (id : NodeId)

def Request.isInsert : Request α → Bool
  | insert _ => true
  | remove _ => false

/-- The store after a request, which may have been refused, and the id that was given for it. -/
def serve (s : Counted α) : Request α → Counted α × Option NodeId
  | .insert a =>
    let (id, next) := s.insert a
    (next, some id)
  | .remove id =>
    match (remove id).run s with
    | .ok _ next => (next, none)
    | .error _ next => (next, none)

/-- What is left of an empty store after some requests, and the ids that were given for them, in the order. -/
def serveAll (requests : List (Request α)) : Counted α × List NodeId :=
  requests.foldl (fun (s, ids) request => let (next, id?) := s.serve request; (next, ids ++ id?.toList)) (empty, [])

def run (requests : List (Request α)) : Counted α := (serveAll requests).1

def issued (requests : List (Request α)) : List NodeId := (serveAll requests).2

/-- One of the requests was to store the thing, for which the id was given, and no later one to remove it. -/
def Holds (requests : List (Request α)) (id : NodeId) (a : α) : Prop :=
  ∃ before later, requests = before ++ .insert a :: later ∧ ((run before).insert a).1 = id ∧ .remove id ∉ later

end Counted

end Dataflow.Store
