import Dataflow.Store
import Mathlib.Data.List.Nodup
import Mathlib.Data.List.Perm.Subperm

/-!
# The slots of a store

A store is sound if its list of vacant slots is what it says (`Store.Sound`).  Storing, changing and taking out
keep a store sound, and in a sound store:

* `get?_insert`: storing a thing changes what is found under its own id only;
* `get?_insert_fst`: nothing is found under the id of a thing before it is stored;
* `mem_ids_iff`, `nodup_ids`: the list of ids has every id under which a thing is found, once;
* `pairwise_entries`: and it is in the order of the slots;
* `size_le_of_subset`: the sizes of stores follow their ids.

Two stores have the same contents up to a projection if their images under it are equal (`Store.map`); they are equal
if moreover the same things are found in them (`ext_of_map`).
-/

namespace Dataflow.Store

variable {α : Type}

/-- The vacant slots are those without content, each listed once. -/
structure Sound (s : Store α) : Prop where
  nodup : s.vacant.Nodup
  mem_vacant_iff : ∀ i, i ∈ s.vacant ↔ ∃ slot, s.slots[i]? = some slot ∧ slot.content? = none

theorem sound_empty : (empty : Store α).Sound :=
  ⟨List.nodup_nil, fun i => by simp [empty]⟩

/-- A value is found under an id exactly if it is in the slot with the generation of the id. -/
theorem get?_eq_some_iff {s : Store α} {id : NodeId} {a : α} :
    s.get? id = some a ↔ s.slots[id.index]? = some ⟨id.generation, some a⟩ := by
  unfold get?
  cases h : s.slots[id.index]? with
  | none => simp
  | some slot =>
    obtain ⟨g, c⟩ := slot
    by_cases hg : g = id.generation <;> simp [hg]

/-! ### Storing -/

/-- The next thing goes into a slot that is vacant, or into a new one. -/
theorem slot_insert_fst {s : Store α} (h : s.Sound) (a : α) :
    s.slots[(s.insert a).1.index]? = some ⟨(s.insert a).1.generation, none⟩ ∨ (s.insert a).1 = ⟨s.slots.size, 0⟩ := by
  unfold insert
  cases hv : s.vacant with
  | nil => exact .inr rfl
  | cons i rest =>
    obtain ⟨⟨g, c⟩, hs, rfl⟩ := (h.mem_vacant_iff i).1 (hv ▸ List.mem_cons_self ..)
    simp only [hs, Option.map_some, Option.getD_some]
    exact .inl trivial

/-- Storing a value changes the slot that it is given, and no other. -/
theorem slots_insert {s : Store α} (h : s.Sound) (a : α) (i : Nat) :
    (s.insert a).2.slots[i]? =
      if i = (s.insert a).1.index then some ⟨(s.insert a).1.generation, some a⟩ else s.slots[i]? := by
  unfold insert
  cases hv : s.vacant with
  | nil => simp only [Array.getElem?_push]
  | cons j rest =>
    obtain ⟨slot, hs, -⟩ := (h.mem_vacant_iff j).1 (hv ▸ List.mem_cons_self ..)
    have hj := (Array.getElem?_eq_some_iff.1 hs).1
    simp only [Array.getElem?_setIfInBounds, hj, if_true, eq_comm (a := j)]

private theorem eq_iff_of_index {x y : NodeId} (h : x.index = y.index) :
    x = y ↔ x.generation = y.generation := by
  cases x
  cases y
  rw [NodeId.mk.injEq]
  exact and_iff_right h

/-- No thing is found in the slot that the next one goes into. -/
private theorem get?_of_index {s : Store α} (h : s.Sound) (a : α) {id : NodeId}
    (hi : id.index = (s.insert a).1.index) : s.get? id = none := by
  unfold get?
  rcases slot_insert_fst h a with hs | hs
  · simp [hi, hs]
  · simp [hi, hs]

/-- No thing is found under the id that the next one gets. -/
theorem get?_insert_fst {s : Store α} (h : s.Sound) (a : α) : s.get? (s.insert a).1 = none := get?_of_index h a rfl

/-- The stored value is found under the new id, and everything else as before. -/
theorem get?_insert {s : Store α} (h : s.Sound) (a : α) (id : NodeId) :
    (s.insert a).2.get? id = if id = (s.insert a).1 then some a else s.get? id := by
  by_cases hi : id.index = (s.insert a).1.index
  · have hid : (s.insert a).1.generation = id.generation ↔ id = (s.insert a).1 := by
      rw [eq_iff_of_index hi, eq_comm]
    rw [get?_of_index h a hi]
    unfold get?
    simp only [slots_insert h, if_pos hi, Option.bind_eq_bind, Option.bind_some, hid]
  · have hne : id ≠ (s.insert a).1 := fun he => hi (congrArg NodeId.index he)
    rw [if_neg hne]
    unfold get?
    rw [slots_insert h, if_neg hi]

/-- At most one slot is added. -/
theorem size_slots_insert (s : Store α) (a : α) : (s.insert a).2.slots.size ≤ s.slots.size + 1 := by
  unfold insert
  cases s.vacant with
  | nil => exact Nat.le_of_eq (Array.size_push _)
  | cons i rest => exact Nat.le_succ_of_le (Nat.le_of_eq Array.size_setIfInBounds)

/-- What is stored already stays. -/
theorem get?_insert_of_some {s : Store α} {id : NodeId} {b : α} (h : s.Sound) (a : α) (hb : s.get? id = some b) :
    (s.insert a).2.get? id = some b := by
  have hne : id ≠ (s.insert a).1 := by
    rintro rfl
    rw [get?_insert_fst h] at hb
    cases hb
  rw [get?_insert h, if_neg hne, hb]

/-- What is stored and changed at once may as well be changed before. -/
theorem modify_insert (s : Store α) (a : α) (f : α → α) :
    (s.insert (f a)).1 = (s.insert a).1 ∧ (s.insert a).2.modify (s.insert a).1 f = (s.insert (f a)).2 := by
  unfold insert modify
  cases s.vacant with
  | nil =>
    refine ⟨rfl, congrArg₂ Store.mk (Array.ext_getElem? fun i => ?_) rfl⟩
    grind
  | cons index rest =>
    refine ⟨rfl, congrArg₂ Store.mk (Array.ext_getElem? fun i => ?_) rfl⟩
    grind

theorem Sound.insert {s : Store α} (h : s.Sound) (a : α) : (s.insert a).2.Sound := by
  unfold Store.insert
  cases hv : s.vacant with
  | nil =>
    refine ⟨by simp, fun i => ?_⟩
    have hi := h.mem_vacant_iff i
    rw [hv] at hi
    simp only [hi, Array.getElem?_push]
    split
    · next he => simp [he]
    · rfl
  | cons j rest =>
    have hn := h.nodup
    rw [hv, List.nodup_cons] at hn
    refine ⟨hn.2, fun i => ?_⟩
    have hi := h.mem_vacant_iff i
    rw [hv, List.mem_cons] at hi
    simp only [Array.getElem?_setIfInBounds]
    by_cases he : j = i
    · subst he
      simp [hn.1]
    · rw [if_neg he, ← hi]
      simp [Ne.symm he]

/-! ### Changing and taking out -/

theorem Sound.modify {s : Store α} (h : s.Sound) (id : NodeId) (f : α → α) : (s.modify id f).Sound := by
  refine ⟨h.nodup, fun i => (h.mem_vacant_iff i).trans ?_⟩
  simp only [Store.modify, Array.getElem?_modify]
  split
  · cases s.slots[i]? with
    | none => simp
    | some slot => by_cases hg : slot.generation = id.generation <;> simp [hg]
  · rfl

/-- A value is taken out exactly if it is there, and its slot is vacant then, with the next generation. -/
theorem remove?_eq_some_iff {s t : Store α} {id : NodeId} {a : α} :
    s.remove? id = some (a, t) ↔ s.get? id = some a ∧
      t = ⟨s.slots.setIfInBounds id.index ⟨id.generation + 1, none⟩, id.index :: s.vacant⟩ := by
  unfold remove?
  cases s.get? id with
  | none => simp
  | some b => simp [pure, eq_comm]

/-- A thing that is found can be taken out. -/
theorem remove?_eq_some {s : Store α} {id : NodeId} {a : α} (h : s.get? id = some a) :
    ∃ t, s.remove? id = some (a, t) :=
  ⟨_, remove?_eq_some_iff.2 ⟨h, rfl⟩⟩

theorem remove?_eq_none {s : Store α} {id : NodeId} (h : s.get? id = none) : s.remove? id = none := by
  unfold remove?
  rw [h]
  rfl

theorem get?_of_remove {s t : Store α} {id : NodeId} {a : α} (h : s.remove? id = some (a, t)) :
    s.get? id = some a :=
  (remove?_eq_some_iff.1 h).1

/-- The slot of a thing that is taken out is of the next generation. -/
theorem slots_remove {s t : Store α} {id : NodeId} {a : α} (h : s.remove? id = some (a, t)) (i : Nat) :
    t.slots[i]? = if i = id.index then some ⟨id.generation + 1, none⟩ else s.slots[i]? := by
  obtain ⟨hget, rfl⟩ := remove?_eq_some_iff.1 h
  have hlt := (Array.getElem?_eq_some_iff.1 (get?_eq_some_iff.1 hget)).1
  simp only [Array.getElem?_setIfInBounds, hlt, if_true, eq_comm (a := i)]

/-- Slots are never given up. -/
theorem size_slots_remove {s t : Store α} {id : NodeId} {a : α} (h : s.remove? id = some (a, t)) :
    t.slots.size = s.slots.size := by
  rw [(remove?_eq_some_iff.1 h).2]
  exact Array.size_setIfInBounds

theorem Sound.remove {s t : Store α} {id : NodeId} {a : α} (h : s.Sound) (hr : s.remove? id = some (a, t)) :
    t.Sound := by
  obtain ⟨hget, ht⟩ := remove?_eq_some_iff.1 hr
  have hvacant : t.vacant = id.index :: s.vacant := congrArg Store.vacant ht
  rw [get?_eq_some_iff] at hget
  refine ⟨?_, fun i => ?_⟩
  · rw [hvacant, List.nodup_cons]
    refine ⟨fun hm => ?_, h.nodup⟩
    obtain ⟨slot, hslot, hc⟩ := (h.mem_vacant_iff _).1 hm
    rw [hget, Option.some.injEq] at hslot
    rw [← hslot] at hc
    cases hc
  · rw [hvacant, List.mem_cons, h.mem_vacant_iff i, slots_remove hr]
    by_cases he : i = id.index
    · simp [he]
    · simp [he]

/-! ### The list of ids -/

theorem mem_entries_iff {s : Store α} {id : NodeId} {a : α} : (id, a) ∈ s.entries ↔ s.get? id = some a := by
  obtain ⟨i, g⟩ := id
  rw [get?_eq_some_iff]
  simp only [entries, List.mem_filterMap, Prod.exists, List.mem_zipIdx_iff_getElem?, Option.map_eq_some_iff,
    Prod.mk.injEq, NodeId.mk.injEq, Array.getElem?_toList]
  constructor
  · rintro ⟨⟨g', c⟩, j, hs, b, hc, ⟨rfl, rfl⟩, rfl⟩
    rw [hs, ← hc]
  · intro hs
    exact ⟨_, i, hs, a, rfl, ⟨rfl, rfl⟩, rfl⟩

theorem mem_ids_iff {s : Store α} {id : NodeId} : id ∈ s.ids ↔ ∃ a, s.get? id = some a := by
  simp only [ids, List.mem_map, Prod.exists, mem_entries_iff]
  constructor
  · rintro ⟨i, a, h, rfl⟩
    exact ⟨a, h⟩
  · rintro ⟨a, h⟩
    exact ⟨id, a, h, rfl⟩

/-- The entries are in the order of their slots. -/
theorem pairwise_entries (s : Store α) : s.entries.Pairwise fun x y => x.1.index < y.1.index := by
  have hz : s.slots.toList.zipIdx.Pairwise fun a b => a.2 < b.2 := by
    rw [← List.pairwise_map (f := Prod.snd) (R := (· < ·)), List.zipIdx_map_snd]
    exact List.pairwise_lt_range'
  unfold entries
  rw [List.pairwise_filterMap]
  refine hz.imp fun {a b} hab x hx y hy => ?_
  obtain ⟨_, -, rfl⟩ := Option.map_eq_some_iff.1 hx
  obtain ⟨_, -, rfl⟩ := Option.map_eq_some_iff.1 hy
  exact hab

theorem nodup_ids (s : Store α) : s.ids.Nodup := by
  unfold ids List.Nodup
  rw [List.pairwise_map]
  refine s.pairwise_entries.imp fun hlt he => ?_
  rw [he] at hlt
  exact Nat.lt_irrefl _ hlt

theorem size_eq_length_ids (s : Store α) : s.size = s.ids.length := by simp [size, ids]

/-- A list of distinct ids under which things are found is no longer than the store. -/
theorem length_le_size {s : Store α} {l : List NodeId} (hl : l.Nodup) (h : ∀ id ∈ l, ∃ a, s.get? id = some a) :
    l.length ≤ s.size := by
  rw [size_eq_length_ids]
  exact (List.subperm_of_subset hl fun id hid => mem_ids_iff.2 (h id hid)).length_le

/-- A store in which the same is found as in another, and more under a list of ids, is larger by its length. -/
theorem size_eq_of_iff {s t : Store α} {l : List NodeId} (hl : l.Nodup) (hnew : ∀ id ∈ l, s.get? id = none)
    (h : ∀ id, (∃ a, t.get? id = some a) ↔ id ∈ l ∨ ∃ a, s.get? id = some a) : t.size = s.size + l.length := by
  have hids : t.ids.Perm (s.ids ++ l) := by
    refine (List.perm_ext_iff_of_nodup (nodup_ids t) ?_).2 fun id => ?_
    · refine List.nodup_append.2 ⟨nodup_ids s, hl, fun x hx y hy => ?_⟩
      rintro rfl
      obtain ⟨a, ha⟩ := mem_ids_iff.1 hx
      cases (hnew x hy).symm.trans ha
    · rw [List.mem_append, mem_ids_iff, mem_ids_iff, h, or_comm]
  rw [size_eq_length_ids, size_eq_length_ids, hids.length_eq, List.length_append]

theorem size_insert {s : Store α} (h : s.Sound) (a : α) : (s.insert a).2.size = s.size + 1 := by
  refine size_eq_of_iff (List.nodup_singleton (s.insert a).1) (fun id hid => ?_) fun id => ?_
  · rw [List.mem_singleton.1 hid]
    exact get?_insert_fst h a
  · rw [get?_insert h, List.mem_singleton]
    by_cases hid : id = (s.insert a).1 <;> simp [hid]

theorem size_remove {s t : Store α} {id : NodeId} {a : α} (h : s.remove? id = some (a, t)) : s.size = t.size + 1 := by
  refine size_eq_of_iff (List.nodup_singleton id) (fun x hx => ?_) fun x => ?_
  · rw [get?_remove h, if_pos (List.mem_singleton.1 hx)]
  · rw [get?_remove h, List.mem_singleton]
    by_cases hx : x = id
    · simp [hx, get?_of_remove h]
    · simp [hx]

/-- A store in which nothing is found beyond what another holds and `k` more is larger by `k` at most. -/
theorem size_le_of_subset {s t : Store α} (l : List NodeId)
    (h : ∀ id a, t.get? id = some a → id ∈ l ∨ ∃ b, s.get? id = some b) : t.size ≤ s.size + l.length := by
  rw [size_eq_length_ids, size_eq_length_ids, Nat.add_comm, ← List.length_append]
  refine (List.subperm_of_subset (nodup_ids t) fun id hid => ?_).length_le
  obtain ⟨a, ha⟩ := mem_ids_iff.1 hid
  exact List.mem_append.2 ((h id a ha).imp_right mem_ids_iff.2)

/-! ### Contents up to a projection -/

/-- The store with a projection applied to every thing in it; slots, generations and vacancies are the same. -/
def map {β : Type} (f : α → β) (s : Store α) : Store β :=
  ⟨s.slots.map fun slot => ⟨slot.generation, slot.content?.map f⟩, s.vacant⟩

theorem get?_map {β : Type} (f : α → β) (s : Store α) (id : NodeId) : (s.map f).get? id = (s.get? id).map f := by
  unfold get? map
  rw [Array.getElem?_map]
  cases s.slots[id.index]? with
  | none => rfl
  | some slot =>
    change (if slot.generation = id.generation then slot.content?.map f else none) =
      (if slot.generation = id.generation then slot.content? else none).map f
    split <;> rfl

/-- Changes that the projection does not show. -/
theorem map_modify {β : Type} {f : α → β} {k : α → α} (hk : ∀ a, f (k a) = f a) (s : Store α) (id : NodeId) :
    (s.modify id k).map f = s.map f := by
  have hfk : f ∘ k = f := funext hk
  unfold map Store.modify
  rw [Store.mk.injEq]
  refine ⟨Array.ext_getElem? fun i => ?_, rfl⟩
  rw [Array.getElem?_map, Array.getElem?_map, Array.getElem?_modify]
  split
  · cases s.slots[i]? with
    | none => rfl
    | some slot => by_cases hg : slot.generation = id.generation <;> simp [hg, Option.map_map, hfk]
  · rfl

/-- Stores with the same slots and the same things in them are equal. -/
theorem ext_of_map {β : Type} {f : α → β} {s t : Store α} (hmap : s.map f = t.map f)
    (hget : ∀ id, s.get? id = t.get? id) : s = t := by
  have hslots : ∀ i : Nat, s.slots[i]? = t.slots[i]? := by
    intro i
    have hi : (s.slots[i]?).map (fun slot => (⟨slot.generation, slot.content?.map f⟩ : Slot β)) =
        (t.slots[i]?).map fun slot => ⟨slot.generation, slot.content?.map f⟩ := by
      rw [← Array.getElem?_map, ← Array.getElem?_map]
      exact congrArg (fun r : Store β => r.slots[i]?) hmap
    cases hs : s.slots[i]? with
    | none =>
      rw [hs, Option.map_none, eq_comm, Option.map_eq_none_iff] at hi
      exact hi.symm
    | some slot =>
      rw [hs, Option.map_some, eq_comm, Option.map_eq_some_iff] at hi
      obtain ⟨slot', ht, he⟩ := hi
      have hg : slot'.generation = slot.generation := congrArg (fun r : Slot β => r.generation) he
      have hid := hget ⟨i, slot.generation⟩
      simp only [get?, hs, ht, Option.bind_eq_bind, Option.bind_some, hg, if_true] at hid
      rw [ht, Option.some.injEq]
      cases slot
      cases slot'
      exact congrArg₂ Slot.mk hg.symm hid
  have hvacant : s.vacant = t.vacant := congrArg (fun r : Store β => r.vacant) hmap
  cases s
  cases t
  exact congrArg₂ Store.mk (Array.ext_getElem? hslots) hvacant

end Dataflow.Store
