import Dataflow.PendingSet
import Dataflow.Table

/-!
# Pending sets with an index

A pending set that is kept twice: its entries in the order in which they come out, and the depth of every pending node,
by node.  What is asked about a node is looked up by node, and the entry to be taken out is found under the depth that is
noted there.  To give all nodes new depths, one goes through the nodes in whatever order they are listed
(`Table.Listing`), and puts them into an empty set.

`Request.Denotes` says what the requests mean for the map from pending nodes to depths, for which one of the two is as
good as the other.
-/

namespace Dataflow

/-- A way of going through the keys of a table. -/
structure Table.Listing (κ α : Type) where
  keys : Table κ α → List κ
  perm : ∀ t, (keys t).Perm (t.entries.map Prod.fst)

namespace PendingSet

/-- Entries in the order in which they come out, each once. -/
structure Agenda where
  entries : List Pending
  sorted : entries.Pairwise (· < ·)

namespace Agenda

def empty : Agenda := ⟨[], PendingSet.empty.sorted⟩

def insert (a : Agenda) (e : Pending) : Agenda :=
  if h : e ∈ a.entries then a else ⟨place e a.entries, place_sorted a.sorted h⟩

def erase (a : Agenda) (e : Pending) : Agenda :=
  ⟨a.entries.filter (· ≠ e), a.sorted.sublist List.filter_sublist⟩

theorem sorted_rest {e : Pending} {rest : List Pending} (h : (e :: rest).Pairwise (· < ·)) :
    rest.Pairwise (· < ·) :=
  h.of_cons

def pop? (a : Agenda) : Option (Pending × Agenda) :=
  match a with
  | ⟨[], _⟩ => none
  | ⟨e :: rest, sorted⟩ => some (e, ⟨rest, sorted_rest sorted⟩)

end Agenda

/-- A pending set with the depths of its nodes beside. -/
structure Indexed where
  agenda : Agenda
  depths : Table NodeId Nat

namespace Indexed

def empty : Indexed := ⟨.empty, .empty⟩

def contains (s : Indexed) (n : NodeId) : Bool := (s.depths.find? n).isSome

def size (s : Indexed) : Nat := s.depths.size

def isEmpty (s : Indexed) : Bool := s.depths.isEmpty

/-- Makes a node pending under a depth, and says whether it was not pending before. -/
def insert (s : Indexed) (n : NodeId) (depth : Nat) : Bool × Indexed :=
  if s.contains n then (false, s)
  else (true, ⟨s.agenda.insert ⟨depth, n⟩, s.depths.insert n depth⟩)

/-- Takes out the entry that comes first. -/
def pop (s : Indexed) : Option Pending × Indexed :=
  match s.agenda.pop? with
  | none => (none, s)
  | some (e, agenda) => (some e, ⟨agenda, s.depths.erase e.node⟩)

/-- Takes out a node under the depth that is noted for it, and says whether it was pending. -/
def remove (s : Indexed) (n : NodeId) : Bool × Indexed :=
  match s.depths.find? n with
  | some depth => (true, ⟨s.agenda.erase ⟨depth, n⟩, s.depths.erase n⟩)
  | none => (false, s)

/-- Gives the nodes the depths that a function assigns to them, in the order in which they are listed. -/
def rekey (s : Indexed) (listing : Table.Listing NodeId Nat) (f : NodeId → Option Nat) : Indexed :=
  (listing.keys s.depths).foldl (fun t n => (f n).elim t fun depth => (t.insert n depth).2) empty

end Indexed

/-! ### Requests -/

/-- What a pending set is asked for that changes it. -/
inductive Request where
  | insert (n : NodeId) (depth : Nat)
  | pop
  | remove (n : NodeId)
  | clear
  | rekey (listing : Table.Listing NodeId Nat) (f : NodeId → Option Nat)

inductive Answer where
  | flag (b : Bool)
  | entry (e? : Option Pending)
  | done

/-- What a pending set without an index does. -/
def serve (s : PendingSet) : Request → Answer × PendingSet
  | .insert n depth => (.flag (!s.contains n), s.insert n depth)
  | .pop =>
    match s.pop? with
    | none => (.entry none, s)
    | some (e, rest) => (.entry (some e), rest)
  | .remove n => (.flag (s.contains n), s.remove n)
  | .clear => (.done, empty)
  | .rekey _ f => (.done, s.rekey f)

def Indexed.serve (s : Indexed) : Request → Answer × Indexed
  | .insert n depth => (s.insert n depth).map .flag id
  | .pop => s.pop.map .entry id
  | .remove n => (s.remove n).map .flag id
  | .clear => (.done, empty)
  | .rekey listing f => (.done, s.rekey listing f)

/-- The set after some requests to an empty one. -/
def run (requests : List Request) : PendingSet := requests.foldl (fun s request => (s.serve request).2) empty

def Indexed.run (requests : List Request) : Indexed := requests.foldl (fun s request => (s.serve request).2) empty

/-- The entry comes before all others of the map. -/
structure IsFirst (m : NodeId → Option Nat) (e : Pending) : Prop where
  mem : m e.node = some e.depth
  lt : ∀ n depth, m n = some depth → n ≠ e.node → e < ⟨depth, n⟩

/-- What a request means for a map from nodes to depths: the answer, and the map after it. -/
def Request.Denotes (m m' : NodeId → Option Nat) : Request → Answer → Prop
  | insert n depth, answer =>
    answer = .flag (m n).isNone ∧ ∀ k, m' k = if k = n then some ((m n).getD depth) else m k
  | pop, answer =>
    ((∀ k, m k = none) ∧ answer = .entry none ∧ ∀ k, m' k = none) ∨
      ∃ e, IsFirst m e ∧ answer = .entry (some e) ∧ ∀ k, m' k = if k = e.node then none else m k
  | remove n, answer => answer = .flag (m n).isSome ∧ ∀ k, m' k = if k = n then none else m k
  | clear, answer => answer = .done ∧ ∀ k, m' k = none
  | rekey _ f, answer => answer = .done ∧ ∀ k, m' k = if (m k).isSome then f k else none

end PendingSet

end Dataflow
