import Dataflow.NodeId

/-!
# Stores

A store keeps things in numbered slots and gives out an id for each.  A vacated slot is used again,
the one vacated last first, but with its generation advanced, so that ids are not used again.

* `get?_insert`, `get?_modify`: what storing and changing do to the things found.
-/

namespace Dataflow

structure Slot (α : Type) where
  generation : UInt32
  content? : Option α

/-- Numbered slots, and the vacant ones among them, the one vacated last first. -/
structure Store (α : Type) where
  slots : Array (Slot α)
  vacant : List Nat

namespace Store

variable {α : Type}

def empty : Store α := ⟨#[], []⟩

def get? (s : Store α) (id : NodeId) : Option α := do
  let slot ← s.slots[id.index]?
  if slot.generation = id.generation then slot.content? else none

def contains (s : Store α) (id : NodeId) : Bool := (s.get? id).isSome

/-- Stores a thing in the slot vacated last, or in a new one if none is vacant. -/
def insert (s : Store α) (a : α) : NodeId × Store α :=
  match s.vacant with
  | [] => (⟨s.slots.size, 0⟩, { s with slots := s.slots.push ⟨0, some a⟩ })
  | index :: rest =>
    let generation := (s.slots[index]?.map Slot.generation).getD 0
    (⟨index, generation⟩, ⟨s.slots.setIfInBounds index ⟨generation, some a⟩, rest⟩)

def modify (s : Store α) (id : NodeId) (f : α → α) : Store α :=
  { s with slots := s.slots.modify id.index fun slot =>
      if slot.generation = id.generation then { slot with content? := slot.content?.map f }
      else slot }

/-- Takes out the thing stored under an id and retires the id. -/
def remove? (s : Store α) (id : NodeId) : Option (α × Store α) := do
  let a ← s.get? id
  return (a, ⟨s.slots.setIfInBounds id.index ⟨id.generation + 1, none⟩, id.index :: s.vacant⟩)

/-- The things stored with their ids, by slot. -/
def entries (s : Store α) : List (NodeId × α) :=
  s.slots.toList.zipIdx.filterMap fun (slot, index) =>
    slot.content?.map fun a => (⟨index, slot.generation⟩, a)

def ids (s : Store α) : List NodeId := s.entries.map Prod.fst

def size (s : Store α) : Nat := s.entries.length

def isEmpty (s : Store α) : Bool := s.entries.isEmpty

theorem get?_modify (s : Store α) (id other : NodeId) (f : α → α) :
    (s.modify id f).get? other = if other = id then (s.get? other).map f else s.get? other := by
  unfold modify get?
  obtain ⟨i, g⟩ := id
  obtain ⟨j, h⟩ := other
  simp only [Array.getElem?_modify, NodeId.mk.injEq]
  by_cases hij : i = j
  · subst hij
    cases s.slots[i]? with
    | none => simp
    | some slot => by_cases hg : slot.generation = g <;> by_cases hh : h = g <;> grind
  · have : ¬ j = i := fun e => hij e.symm
    simp [hij, this]

/-- A retired id names nothing, and no other id is affected. -/
theorem get?_remove {s t : Store α} {id : NodeId} {a : α} (h : s.remove? id = some (a, t))
    (other : NodeId) : t.get? other = if other = id then none else s.get? other := by
  unfold remove? at h
  cases hg : s.get? id with
  | none => simp [hg] at h
  | some b =>
    simp only [hg, Option.bind_eq_bind, Option.bind_some, pure, Option.some.injEq,
      Prod.mk.injEq] at h
    obtain ⟨-, rfl⟩ := h
    obtain ⟨i, g⟩ := id
    obtain ⟨j, k⟩ := other
    unfold get? at hg ⊢
    simp only [Array.getElem?_setIfInBounds, NodeId.mk.injEq]
    by_cases hij : i = j
    · subst hij
      cases hs : s.slots[i]? with
      | none => simp [hs] at hg
      | some slot => grind
    · have : ¬ j = i := fun e => hij e.symm
      simp [hij, this]

end Store

end Dataflow
