import Dataflow.NodeId
import Dataflow.Text.Order

/-!
# Directories

The members of a scope: nodes under distinct names, in the order of the names.

* `find?_insert`, `find?_erase`: what storing and erasing a member do to the members found.
-/

namespace Dataflow

/-- Nodes under names, sorted by name. -/
structure Directory where
  entries : List (String × NodeId)
  sorted : (entries.map Prod.fst).Pairwise Text.Before

namespace Directory

def empty : Directory := ⟨[], .nil⟩

def size (d : Directory) : Nat := d.entries.length

def isEmpty (d : Directory) : Bool := d.entries.isEmpty

def find? (d : Directory) (name : String) : Option NodeId :=
  (d.entries.find? fun e => e.1 = name).map Prod.snd

/-- Puts an entry at its place, instead of any other with the same name. -/
def place (name : String) (n : NodeId) : List (String × NodeId) → List (String × NodeId)
  | [] => [(name, n)]
  | e :: rest =>
    if Text.Before name e.1 then (name, n) :: e :: rest
    else if name = e.1 then (name, n) :: rest
    else e :: place name n rest

private theorem before_of_mem_place {name s : String} {n : NodeId} {l : List (String × NodeId)}
    (hl : ∀ t ∈ l.map Prod.fst, Text.Before s t) (hs : Text.Before s name) :
    ∀ t ∈ (place name n l).map Prod.fst, Text.Before s t := by
  induction l with
  | nil => simpa [place] using hs
  | cons e l ih =>
    simp only [List.map_cons, List.mem_cons, forall_eq_or_imp] at hl
    unfold place
    split
    · simpa using ⟨hs, hl.1, fun t u h => hl.2 t (List.mem_map_of_mem h)⟩
    · split
      · simpa using ⟨hs, fun t u h => hl.2 t (List.mem_map_of_mem h)⟩
      · rw [List.map_cons]
        intro t ht
        rcases List.mem_cons.1 ht with rfl | ht
        · exact hl.1
        · exact ih hl.2 t ht

private theorem place_sorted {name : String} {n : NodeId} {l : List (String × NodeId)}
    (h : (l.map Prod.fst).Pairwise Text.Before) :
    ((place name n l).map Prod.fst).Pairwise Text.Before := by
  induction l with
  | nil => simp [place]
  | cons e l ih =>
    rw [List.map_cons, List.pairwise_cons] at h
    unfold place
    split
    · next hlt =>
      rw [List.map_cons, List.map_cons, List.pairwise_cons, List.pairwise_cons]
      refine ⟨fun t ht => ?_, h⟩
      rcases List.mem_cons.1 ht with rfl | ht
      · exact hlt
      · exact Text.before_trans hlt (h.1 t ht)
    · next hlt =>
      split
      · next he =>
        rw [List.map_cons, List.pairwise_cons]
        exact ⟨fun t ht => he ▸ h.1 t ht, h.2⟩
      · next he =>
        rw [List.map_cons, List.pairwise_cons]
        exact ⟨before_of_mem_place h.1 (Text.before_of_not_before hlt he), ih h.2⟩

/-- Stores a member under a name, in place of any other. -/
def insert (d : Directory) (name : String) (n : NodeId) : Directory :=
  ⟨place name n d.entries, place_sorted d.sorted⟩

def erase (d : Directory) (name : String) : Directory :=
  ⟨d.entries.filter (·.1 ≠ name), d.sorted.sublist (List.filter_sublist.map Prod.fst)⟩

@[simp] theorem find?_empty (name : String) : empty.find? name = none := rfl

@[simp] theorem find?_erase (d : Directory) (name other : String) :
    (d.erase name).find? other = if other = name then none else d.find? other := by
  unfold find? erase
  rw [List.find?_filter]
  split
  · next h =>
    subst h
    rw [List.find?_eq_none.2 (by simp), Option.map_none]
  · next h =>
    congr 2
    funext e
    by_cases he : e.1 = other
    · simp [he, h]
    · simp [he]

@[simp] theorem find?_insert (d : Directory) (name other : String) (n : NodeId) :
    (d.insert name n).find? other = if other = name then some n else d.find? other := by
  obtain ⟨l, hd⟩ := d
  simp only [find?, insert]
  induction l with
  | nil => by_cases h : other = name <;> simp [place, h, Ne.symm]
  | cons e l ih =>
    have ih := ih (List.pairwise_cons.1 hd).2
    unfold place
    by_cases h : other = name
    · subst h
      split
      · simp
      · split
        · simp
        · next he =>
          rw [List.find?_cons_of_neg (by simpa using fun h => he h.symm), ih, if_pos rfl,
              if_pos rfl]
    · have h' : name ≠ other := fun e => h e.symm
      simp only [h, if_false] at ih ⊢
      split
      · rw [List.find?_cons_of_neg (by simpa using h')]
      · split
        · next he =>
          rw [List.find?_cons_of_neg (by simpa using h'),
              List.find?_cons_of_neg (by simpa using he ▸ h')]
        · by_cases he : e.1 = other
          · simp [he]
          · rw [List.find?_cons_of_neg (by simpa using he),
              List.find?_cons_of_neg (by simpa using he), ih]

end Directory

end Dataflow
