/-!
# Tables

A finite map as a list of entries with distinct keys.  A table is described by `find?`:

* `find?_insert`, `find?_erase`: what storing and erasing an entry do to the entries found.
-/

namespace Dataflow

/-- A finite map from `κ` to `α`. -/
structure Table (κ α : Type) where
  entries : List (κ × α)
  distinct : (entries.map Prod.fst).Nodup

namespace Table

variable {κ α : Type}

private theorem nodup_map_filter {l : List (κ × α)} (h : (l.map Prod.fst).Nodup)
    (p : κ × α → Bool) :
    ((l.filter p).map Prod.fst).Nodup :=
  h.sublist (List.filter_sublist.map Prod.fst)

variable [DecidableEq κ]

def empty : Table κ α := ⟨[], List.nodup_nil⟩

def size (t : Table κ α) : Nat := t.entries.length

def isEmpty (t : Table κ α) : Bool := t.entries.isEmpty

def find? (t : Table κ α) (k : κ) : Option α := (t.entries.find? fun e => e.1 = k).map Prod.snd

def erase (t : Table κ α) (k : κ) : Table κ α :=
  ⟨t.entries.filter (·.1 ≠ k), nodup_map_filter t.distinct _⟩

/-- Stores an entry in place of any other under the same key. -/
def insert (t : Table κ α) (k : κ) (a : α) : Table κ α :=
  ⟨(k, a) :: (t.erase k).entries, by
    rw [List.map_cons, List.nodup_cons]
    exact ⟨by simp [erase], (t.erase k).distinct⟩⟩

@[simp] theorem find?_empty (k : κ) : (empty : Table κ α).find? k = none := rfl

@[simp] theorem find?_erase (t : Table κ α) (k l : κ) :
    (t.erase k).find? l = if l = k then none else t.find? l := by
  unfold find? erase
  rw [List.find?_filter]
  split
  · next h =>
    subst h
    rw [List.find?_eq_none.2 (by simp), Option.map_none]
  · next h =>
    congr 2
    funext e
    by_cases he : e.1 = l
    · simp [he, h]
    · simp [he]

/-- Erasing what is not there changes nothing. -/
theorem erase_of_find?_eq_none {t : Table κ α} {k : κ} (h : t.find? k = none) : t.erase k = t := by
  have hk : ∀ e ∈ t.entries, e.1 ≠ k := by
    intro e he
    simpa using List.find?_eq_none.1 (Option.map_eq_none_iff.1 h) e he
  obtain ⟨entries, distinct⟩ := t
  have hkept : entries.filter (·.1 ≠ k) = entries :=
    List.filter_eq_self.2 fun e he => decide_eq_true (hk e he)
  simp only [erase, hkept]

@[simp] theorem find?_insert (t : Table κ α) (k l : κ) (a : α) :
    (t.insert k a).find? l = if l = k then some a else t.find? l := by
  have h : (t.insert k a).find? l = if k = l then some a else (t.erase k).find? l := by
    unfold find? insert
    by_cases hk : k = l <;> simp [hk]
  rw [h, find?_erase]
  by_cases hk : k = l
  · simp [hk]
  · simp [hk, Ne.symm hk]

end Table

end Dataflow
