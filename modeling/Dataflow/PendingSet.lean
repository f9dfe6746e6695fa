import Dataflow.NodeId

/-!
# Pending sets

A pending set is a worklist of nodes, each under a depth.  The node with the least depth comes out
first, and nodes of one depth come out in the order of their ids.  A node is pending at most once.
A pending set is described by `depth?`, the depth under which a node is pending:

* `depth?_insert`: a node that is already pending keeps its depth;
* `depth?_remove`, `depth?_pop`: a node that is taken out is pending no more;
* `lt_of_mem_pop`: the entry that comes out is before all others;
* `depth?_rekey`: every pending node gets its new depth, or is dropped if it has none.
-/

namespace Dataflow

/-- A node with the depth under which it is pending. -/
structure Pending where
  depth : Nat
  node : NodeId
  deriving DecidableEq

namespace Pending

/-- The order in which pending nodes come out. -/
protected def lt (a b : Pending) : Prop := a.depth < b.depth ∨ (a.depth = b.depth ∧ a.node < b.node)

instance : LT Pending := ⟨Pending.lt⟩

instance (a b : Pending) : Decidable (a < b) := inferInstanceAs (Decidable (_ ∨ _))

theorem lt_def {a b : Pending} :
    a < b ↔ a.depth < b.depth ∨ (a.depth = b.depth ∧ a.node < b.node) := Iff.rfl

theorem lt_irrefl (a : Pending) : ¬ a < a := by simp [lt_def, NodeId.lt_irrefl]

theorem lt_trans {a b c : Pending} (h : a < b) (h' : b < c) : a < c := by
  simp only [lt_def] at *
  rcases h with h | ⟨h, hn⟩ <;> rcases h' with h' | ⟨h', hn'⟩
  · exact .inl (by omega)
  · exact .inl (by omega)
  · exact .inl (by omega)
  · exact .inr ⟨by omega, NodeId.lt_trans hn hn'⟩

theorem lt_of_not_lt {a b : Pending} (h : ¬ a < b) (hne : a ≠ b) : b < a := by
  simp only [lt_def] at *
  rcases NodeId.lt_trichotomy a.node b.node with hn | hn | hn
  · by_cases hd : a.depth = b.depth
    · exact absurd (.inr ⟨hd, hn⟩) h
    · exact .inl (by omega)
  · by_cases hd : a.depth = b.depth
    · cases a
      cases b
      cases hn
      cases hd
      exact absurd rfl hne
    · exact .inl (by omega)
  · by_cases hd : a.depth = b.depth
    · exact .inr ⟨hd.symm, hn⟩
    · exact .inl (by omega)

end Pending

/-- A worklist of nodes in the order in which they come out. -/
structure PendingSet where
  entries : List Pending
  sorted : entries.Pairwise (· < ·)
  distinct : (entries.map Pending.node).Nodup

namespace PendingSet

theorem ext {s t : PendingSet} (h : s.entries = t.entries) : s = t := by
  cases s; cases t; cases h; rfl

def empty : PendingSet := ⟨[], .nil, List.nodup_nil⟩

def size (s : PendingSet) : Nat := s.entries.length

def isEmpty (s : PendingSet) : Bool := s.entries.isEmpty

/-- The pending nodes in the order in which they come out. -/
def nodes (s : PendingSet) : List NodeId := s.entries.map Pending.node

def depth? (s : PendingSet) (n : NodeId) : Option Nat :=
  (s.entries.find? fun e => e.node = n).map Pending.depth

def contains (s : PendingSet) (n : NodeId) : Bool := n ∈ s.nodes

/-- Puts an entry in front of the first one that is not before it. -/
def place (e : Pending) : List Pending → List Pending
  | [] => [e]
  | f :: rest => if e < f then e :: f :: rest else f :: place e rest

theorem mem_place {e f : Pending} {l : List Pending} : f ∈ place e l ↔ f = e ∨ f ∈ l := by
  induction l with
  | nil => simp [place]
  | cons g l ih =>
    unfold place
    split
    · simp
    · simp only [List.mem_cons, ih]
      exact or_left_comm

theorem place_sorted {e : Pending} {l : List Pending} (h : l.Pairwise (· < ·)) (hn : e ∉ l) :
    (place e l).Pairwise (· < ·) := by
  induction l with
  | nil => simp [place]
  | cons f l ih =>
    rw [List.pairwise_cons] at h
    simp only [List.mem_cons, not_or] at hn
    unfold place
    split
    · next hlt =>
      rw [List.pairwise_cons, List.pairwise_cons]
      refine ⟨fun g hg => ?_, h.1, h.2⟩
      rcases List.mem_cons.1 hg with rfl | hg
      · exact hlt
      · exact Pending.lt_trans hlt (h.1 g hg)
    · next hlt =>
      rw [List.pairwise_cons]
      refine ⟨fun g hg => ?_, ih h.2 hn.2⟩
      rcases mem_place.1 hg with rfl | hg
      · exact Pending.lt_of_not_lt hlt hn.1
      · exact h.1 g hg

private theorem place_distinct {e : Pending} {l : List Pending} (h : (l.map Pending.node).Nodup)
    (hn : e.node ∉ l.map Pending.node) : ((place e l).map Pending.node).Nodup := by
  induction l with
  | nil => simp [place]
  | cons f l ih =>
    simp only [List.map_cons, List.mem_cons, not_or, List.nodup_cons] at h hn
    unfold place
    split
    · simp [h.1, h.2, hn.1, hn.2]
    · rw [List.map_cons, List.nodup_cons]
      refine ⟨fun hm => ?_, ih h.2 hn.2⟩
      obtain ⟨g, hg, he⟩ := List.mem_map.1 hm
      rcases mem_place.1 hg with rfl | hg
      · exact hn.1 he
      · exact h.1 (he ▸ List.mem_map_of_mem hg)

/-- Makes a node pending under a depth; one that is pending already stays as it is. -/
def insert (s : PendingSet) (n : NodeId) (depth : Nat) : PendingSet :=
  if h : n ∈ s.nodes then s
  else
    ⟨place ⟨depth, n⟩ s.entries, place_sorted s.sorted fun hm => h (List.mem_map_of_mem hm), place_distinct s.distinct h⟩

/-- Takes out a node, whether it is pending or not. -/
def remove (s : PendingSet) (n : NodeId) : PendingSet :=
  ⟨s.entries.filter (·.node ≠ n), s.sorted.sublist List.filter_sublist,
    s.distinct.sublist (List.filter_sublist.map Pending.node)⟩

def pop? (s : PendingSet) : Option (Pending × PendingSet) :=
  match s with
  | ⟨[], _, _⟩ => none
  | ⟨e :: rest, sorted, distinct⟩ =>
    some (e, ⟨rest, (List.pairwise_cons.1 sorted).2, (List.nodup_cons.1 distinct).2⟩)

/-- Gives every pending node the depth that a function assigns to it, and drops those without
one. -/
def rekey (s : PendingSet) (f : NodeId → Option Nat) : PendingSet :=
  s.nodes.foldl (fun t n => (f n).elim t (t.insert n)) empty

/-- The set with each of the given nodes pending under its depth. -/
def insertAll (s : PendingSet) (entries : List Pending) : PendingSet :=
  entries.foldl (fun t e => t.insert e.node e.depth) s

/-! ### The depth under which a node is pending -/

theorem depth?_eq_some_iff {s : PendingSet} {n : NodeId} {d : Nat} :
    s.depth? n = some d ↔ (⟨d, n⟩ : Pending) ∈ s.entries := by
  unfold depth?
  have hd := s.distinct
  generalize s.entries = l at hd
  induction l with
  | nil => simp
  | cons e l ih =>
    rw [List.map_cons, List.nodup_cons] at hd
    by_cases h : e.node = n
    · subst h
      obtain ⟨k, m⟩ := e
      simp only [List.find?_cons_of_pos, decide_true, Option.map_some, Option.some.injEq,
        List.mem_cons, Pending.mk.injEq, and_true]
      constructor
      · exact fun h => .inl h.symm
      · rintro (h | h)
        · exact h.symm
        · exact absurd (List.mem_map_of_mem h) hd.1
    · rw [List.find?_cons_of_neg (by simpa using h), List.mem_cons]
      refine (ih hd.2).trans ⟨?_, ?_⟩
      · exact .inr
      · rintro (rfl | h')
        · exact absurd rfl h
        · exact h'

theorem mem_nodes_iff {s : PendingSet} {n : NodeId} : n ∈ s.nodes ↔ ∃ d, s.depth? n = some d := by
  simp only [nodes, List.mem_map, depth?_eq_some_iff]
  constructor
  · rintro ⟨⟨d, m⟩, h, rfl⟩
    exact ⟨d, h⟩
  · rintro ⟨d, h⟩
    exact ⟨⟨d, n⟩, h, rfl⟩

theorem depth?_eq_none_iff {s : PendingSet} {n : NodeId} : s.depth? n = none ↔ n ∉ s.nodes := by
  rw [mem_nodes_iff]
  cases s.depth? n <;> simp

@[simp] theorem depth?_empty (n : NodeId) : empty.depth? n = none := rfl

/-- Inserting makes a node pending only if it was not pending before. -/
theorem depth?_insert (s : PendingSet) (n m : NodeId) (d : Nat) :
    (s.insert n d).depth? m = if m = n then some ((s.depth? n).getD d) else s.depth? m := by
  unfold insert
  by_cases h : n ∈ s.nodes
  · obtain ⟨k, hk⟩ := mem_nodes_iff.1 h
    rw [dif_pos h]
    split
    · next he => rw [he, hk, Option.getD_some]
    · rfl
  · rw [dif_neg h]
    apply Option.ext
    intro k
    rw [depth?_eq_some_iff, mem_place, Pending.mk.injEq]
    split
    · next he =>
      subst he
      rw [depth?_eq_none_iff.2 h, Option.getD_none, Option.some.injEq]
      constructor
      · rintro (h' | h')
        · exact h'.1.symm
        · exact absurd (List.mem_map_of_mem h') h
      · exact fun h' => .inl ⟨h'.symm, rfl⟩
    · next he =>
      rw [depth?_eq_some_iff]
      constructor
      · rintro (h' | h')
        · exact absurd h'.2 he
        · exact h'
      · exact .inr

theorem depth?_remove (s : PendingSet) (n m : NodeId) :
    (s.remove n).depth? m = if m = n then none else s.depth? m := by
  apply Option.ext
  intro k
  rw [depth?_eq_some_iff]
  unfold remove
  split
  · next h => simp [h]
  · next h => simp [h, depth?_eq_some_iff]

theorem depth?_pop {s t : PendingSet} {e : Pending} (h : s.pop? = some (e, t)) (m : NodeId) :
    t.depth? m = if m = e.node then none else s.depth? m := by
  obtain ⟨entries, sorted, distinct⟩ := s
  cases entries with
  | nil => simp [pop?] at h
  | cons f rest =>
    simp only [pop?, Option.some.injEq, Prod.mk.injEq] at h
    obtain ⟨rfl, rfl⟩ := h
    rw [List.map_cons, List.nodup_cons] at distinct
    split
    · next he =>
      rw [he]
      exact depth?_eq_none_iff.2 distinct.1
    · next he =>
      unfold depth?
      rw [List.find?_cons_of_neg (by simpa using fun h' => he h'.symm)]

/-- The entry that comes out was pending under its depth. -/
theorem depth?_of_pop {s t : PendingSet} {e : Pending} (h : s.pop? = some (e, t)) :
    s.depth? e.node = some e.depth := by
  obtain ⟨entries, sorted, distinct⟩ := s
  cases entries with
  | nil => simp [pop?] at h
  | cons f rest =>
    simp only [pop?, Option.some.injEq, Prod.mk.injEq] at h
    obtain ⟨rfl, rfl⟩ := h
    exact depth?_eq_some_iff.2 (List.mem_cons_self ..)

theorem lt_of_mem_pop {s t : PendingSet} {e : Pending} (h : s.pop? = some (e, t)) {f : Pending}
    (hf : f ∈ t.entries) : e < f := by
  obtain ⟨entries, sorted, distinct⟩ := s
  cases entries with
  | nil => simp [pop?] at h
  | cons g rest =>
    simp only [pop?, Option.some.injEq, Prod.mk.injEq] at h
    obtain ⟨rfl, rfl⟩ := h
    exact (List.pairwise_cons.1 sorted).1 f hf

theorem depth?_foldl_rekey (f : NodeId → Option Nat) (l : List NodeId) (t : PendingSet)
    (m : NodeId) :
    (l.foldl (fun t n => (f n).elim t (t.insert n)) t).depth? m =
      (t.depth? m).or (if m ∈ l then f m else none) := by
  induction l generalizing t with
  | nil => simp
  | cons n l ih =>
    rw [List.foldl_cons, ih]
    cases hf : f n with
    | none =>
      by_cases h : m = n
      · subst h; simp [hf]
      · simp [h]
    | some d =>
      simp only [Option.elim_some, depth?_insert]
      by_cases h : m = n
      · subst h
        cases t.depth? m <;> simp [hf]
      · simp [h]

theorem depth?_rekey (s : PendingSet) (f : NodeId → Option Nat) (m : NodeId) :
    (s.rekey f).depth? m = if m ∈ s.nodes then f m else none := by
  unfold rekey
  rw [depth?_foldl_rekey]
  simp

/-! ### The pending nodes and their entries -/

theorem isEmpty_iff {s : PendingSet} : s.isEmpty = true ↔ s = empty := by
  constructor
  · intro h
    exact ext (List.isEmpty_iff.1 h)
  · rintro rfl
    rfl

theorem pop?_eq_none_iff {s : PendingSet} : s.pop? = none ↔ s = empty := by
  obtain ⟨entries, sorted, distinct⟩ := s
  cases entries with
  | nil => simp [pop?, empty]
  | cons e rest => simp [pop?, empty]

theorem entries_of_pop {s t : PendingSet} {e : Pending} (h : s.pop? = some (e, t)) :
    s.entries = e :: t.entries := by
  obtain ⟨entries, sorted, distinct⟩ := s
  cases entries with
  | nil => simp [pop?] at h
  | cons f rest =>
    simp only [pop?, Option.some.injEq, Prod.mk.injEq] at h
    obtain ⟨rfl, rfl⟩ := h
    rfl

theorem mem_nodes_pop {s t : PendingSet} {e : Pending} (h : s.pop? = some (e, t)) {n : NodeId} :
    n ∈ s.nodes ↔ n = e.node ∨ n ∈ t.nodes := by
  simp [nodes, entries_of_pop h]

theorem not_mem_nodes_pop {s t : PendingSet} {e : Pending} (h : s.pop? = some (e, t)) : e.node ∉ t.nodes := by
  have hd := s.distinct
  rw [entries_of_pop h, List.map_cons, List.nodup_cons] at hd
  exact hd.1

theorem mem_nodes_insert {s : PendingSet} {n m : NodeId} {d : Nat} :
    m ∈ (s.insert n d).nodes ↔ m = n ∨ m ∈ s.nodes := by
  rw [mem_nodes_iff, mem_nodes_iff]
  simp only [depth?_insert]
  by_cases h : m = n <;> simp [h]

theorem mem_nodes_remove {s : PendingSet} {n m : NodeId} : m ∈ (s.remove n).nodes ↔ m ≠ n ∧ m ∈ s.nodes := by
  rw [mem_nodes_iff, mem_nodes_iff]
  simp only [depth?_remove]
  by_cases h : m = n <;> simp [h]

theorem mem_nodes_insertAll {s : PendingSet} {es : List Pending} {m : NodeId} :
    m ∈ (s.insertAll es).nodes ↔ m ∈ s.nodes ∨ m ∈ es.map Pending.node := by
  unfold insertAll
  induction es generalizing s with
  | nil => simp
  | cons e es ih =>
    rw [List.foldl_cons, ih, mem_nodes_insert, List.map_cons, List.mem_cons]
    constructor
    · rintro ((h | h) | h)
      · exact .inr (.inl h)
      · exact .inl h
      · exact .inr (.inr h)
    · rintro (h | h | h)
      · exact .inl (.inr h)
      · exact .inl (.inl h)
      · exact .inr h

theorem mem_of_mem_insert {s : PendingSet} {n : NodeId} {d : Nat} {e : Pending}
    (h : e ∈ (s.insert n d).entries) : e = ⟨d, n⟩ ∨ e ∈ s.entries := by
  unfold insert at h
  split at h
  · exact .inr h
  · exact mem_place.1 h

theorem mem_of_mem_insertAll {s : PendingSet} {es : List Pending} {e : Pending}
    (h : e ∈ (s.insertAll es).entries) : e ∈ s.entries ∨ e ∈ es := by
  unfold insertAll at h
  induction es generalizing s with
  | nil => exact .inl h
  | cons f es ih =>
    rw [List.foldl_cons] at h
    rcases ih h with h | h
    · rcases mem_of_mem_insert h with rfl | h
      · exact .inr (List.mem_cons_self ..)
      · exact .inl h
    · exact .inr (List.mem_cons_of_mem _ h)

end PendingSet

end Dataflow
