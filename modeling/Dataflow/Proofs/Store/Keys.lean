import Dataflow.Proofs.Store
import Dataflow.Store.Counted
import Mathlib.Algebra.Group.Nat.Defs
import Mathlib.Data.List.Induction

/-!
# Keys that are not used again

The ids of a store are keys, none of which is given out twice, as long as fewer things are stored than generations can
tell apart.  The generation of a slot tells how often it has been occupied (`Slot.uses`), and the ids that have been
given out for it are those below (`Tracked`).

* `get_eq`, `alter_eq`, `remove_eq`: what is done in place is what `get?`, `modify` and `remove?` do;
* `get?_run_iff`: what is found under an id is known from the requests;
* `Tracked.insert`, `Tracked.remove`: one request;
* `run_isMap`: any number of requests.
-/

namespace Dataflow

namespace Store

variable {α : Type}

/-! ### How often slots are used -/

/-- How often a thing has been put into a slot, unless its generation has wrapped around. -/
def uses (s : Store α) (index : Nat) : Nat :=
  s.slots[index]?.elim 0 fun slot => slot.generation.toNat + slot.content?.toList.length

/-- The next id is of the generation that tells how often its slot has been used. -/
theorem uses_insert_fst {s : Store α} (h : s.Sound) (a : α) :
    s.uses (s.insert a).1.index = (s.insert a).1.generation.toNat := by
  unfold uses
  rcases slot_insert_fst h a with hs | hs
  · rw [hs]
    rfl
  · simp [hs]

private theorem uses_insert {s : Store α} (h : s.Sound) (a : α) (i : Nat) :
    (s.insert a).2.uses i = s.uses i + if i = (s.insert a).1.index then 1 else 0 := by
  have hfst := uses_insert_fst h a
  unfold uses at hfst ⊢
  rw [slots_insert h]
  split
  · next hi =>
    rw [hi, hfst]
    rfl
  · rfl

/-- A slot from which a thing is taken out is as often used as it was, since it goes on to the next generation. -/
theorem uses_remove {s t : Store α} {id : NodeId} {a : α} (h : s.remove? id = some (a, t))
    (hn : s.uses id.index < 2 ^ 32) (i : Nat) : t.uses i = s.uses i := by
  have hslot := get?_eq_some_iff.1 (get?_of_remove h)
  unfold uses at hn ⊢
  rw [slots_remove h]
  split
  · next hi =>
    rw [hi, hslot]
    rw [hslot] at hn
    change id.generation.toNat + 1 < 2 ^ 32 at hn
    change (id.generation + 1).toNat = id.generation.toNat + 1
    rw [UInt32.toNat_add]
    exact Nat.mod_eq_of_lt hn
  · rfl

namespace Counted

open Stepwise

variable {s : Counted α} {id : NodeId} {a : α} {requests : List (Request α)}

/-! ### Working in place -/

private theorem slot_cases (s : Counted α) (id : NodeId) :
    (∃ content?, s.slot id = .ok ⟨id.generation, content?⟩ ∧
      s.store.slots[id.index]? = some ⟨id.generation, content?⟩ ∧ s.store.get? id = content?) ∨
    (s.slot id = .error (.unknownNode id) ∧ s.store.get? id = none) := by
  unfold slot Store.get?
  cases hs : s.store.slots[id.index]? with
  | none => exact .inr ⟨rfl, rfl⟩
  | some slot =>
    obtain ⟨generation, content?⟩ := slot
    by_cases hg : generation = id.generation
    · subst hg
      exact .inl ⟨content?, if_pos rfl, rfl, if_pos rfl⟩
    · exact .inr ⟨if_neg hg, if_neg hg⟩

theorem get_eq (s : Counted α) (id : NodeId) :
    s.get id = (s.store.get? id).elim (.error (.unknownNode id)) .ok := by
  unfold get
  rcases slot_cases s id with ⟨content?, hs, -, hget⟩ | ⟨hs, hget⟩
  · rw [hs, hget]
    rfl
  · rw [hs, hget]
    rfl

theorem alter_eq (s : Counted α) (id : NodeId) (f : α → α) :
    (alter id f).run s = match s.store.get? id with
      | some _ => .ok () { s with store := s.store.modify id f }
      | none => .error (.unknownNode id) s := by
  unfold alter
  rcases slot_cases s id with ⟨content?, hs, hslot, hget⟩ | ⟨hs, hget⟩
  · rw [bind_of_ok (read_of_ok s hs), hget]
    cases content? with
    | none => rfl
    | some a =>
      have hstore : (s.putSlot id.index ⟨id.generation, some (f a)⟩).store = s.store.modify id f := by
        unfold putSlot Store.modify
        exact congrArg₂ Store.mk (Array.ext_getElem? fun i => by grind) rfl
      exact congrArg (fun store => EStateM.Result.ok () (⟨store, s.count⟩ : Counted α)) hstore
  · rw [bind_of_error (read_of_error s hs), hget]

private theorem remove_eq (s : Counted α) (id : NodeId) :
    (remove id).run s = match s.store.remove? id with
      | some (a, store) => .ok a ⟨store, s.count - 1⟩
      | none => .error (.unknownNode id) s := by
  unfold remove Store.remove?
  rcases slot_cases s id with ⟨content?, hs, hslot, hget⟩ | ⟨hs, hget⟩
  · rw [bind_of_ok (read_of_ok s hs), change_bind, hget]
    cases content? with
    | none =>
      -- The slot was empty before, so that it is the same after it has been emptied.
      have hsame : s.putSlot id.index ⟨id.generation, none⟩ = s := by
        have hslots : s.store.slots.setIfInBounds id.index ⟨id.generation, none⟩ = s.store.slots :=
          Array.ext_getElem? fun i => by grind
        unfold putSlot
        rw [hslots]
      exact congrArg (EStateM.Result.error (GraphError.unknownNode id)) hsame
    | some a =>
      have hslots : (s.store.slots.setIfInBounds id.index ⟨id.generation, none⟩).setIfInBounds id.index
          ⟨id.generation + 1, none⟩ = s.store.slots.setIfInBounds id.index ⟨id.generation + 1, none⟩ :=
        Array.setIfInBounds_setIfInBounds ..
      exact congrArg (fun slots => EStateM.Result.ok a (⟨⟨slots, id.index :: s.store.vacant⟩, s.count - 1⟩ : Counted α))
        hslots
  · rw [bind_of_error (read_of_error s hs), hget]
    rfl

private theorem serve_remove_cases (s : Counted α) (id : NodeId) :
    (∃ a store, s.store.remove? id = some (a, store) ∧ s.serve (.remove id) = (⟨store, s.count - 1⟩, none)) ∨
    (s.store.get? id = none ∧ s.serve (.remove id) = (s, none)) := by
  simp only [serve, remove_eq]
  cases hget : s.store.get? id with
  | some a =>
    obtain ⟨store, hr⟩ := remove?_eq_some hget
    exact .inl ⟨a, store, hr, by rw [hr]⟩
  | none => exact .inr ⟨rfl, by rw [remove?_eq_none hget]⟩

/-! ### Sequences of requests -/

private theorem serveAll_concat (requests : List (Request α)) (request : Request α) :
    serveAll (requests ++ [request]) =
      (((run requests).serve request).1, issued requests ++ ((run requests).serve request).2.toList) := by
  unfold run issued serveAll
  rw [List.foldl_append]
  rfl

private theorem run_concat (requests : List (Request α)) (request : Request α) :
    run (requests ++ [request]) = ((run requests).serve request).1 :=
  congrArg Prod.fst (serveAll_concat requests request)

private theorem issued_concat (requests : List (Request α)) (request : Request α) :
    issued (requests ++ [request]) = issued requests ++ ((run requests).serve request).2.toList :=
  congrArg Prod.snd (serveAll_concat requests request)

private theorem length_issued (requests : List (Request α)) :
    (issued requests).length = requests.countP Request.isInsert := by
  induction requests using List.reverseRecOn with
  | nil => rfl
  | append_singleton requests request ih =>
    rw [issued_concat, List.length_append, List.countP_append, ih]
    cases request with
    | insert a => rfl
    | remove id => rcases serve_remove_cases (run requests) id with ⟨a, store, -, hs⟩ | ⟨-, hs⟩ <;> rw [hs] <;> rfl

theorem sound_run (requests : List (Request α)) : (run requests).store.Sound := by
  induction requests using List.reverseRecOn with
  | nil => exact sound_empty
  | append_singleton requests request ih =>
    rw [run_concat]
    cases request with
    | insert a => exact ih.insert a
    | remove id =>
      rcases serve_remove_cases (run requests) id with ⟨a, store, hr, hs⟩ | ⟨-, hs⟩
      · rw [hs]
        exact ih.remove hr
      · rwa [hs]

/-- A value is held that was held before and is not taken out now, or that is stored now under the id. -/
theorem holds_concat {request : Request α} : Holds (requests ++ [request]) id a ↔
    (Holds requests id a ∧ request ≠ .remove id) ∨ (request = .insert a ∧ ((run requests).insert a).1 = id) := by
  constructor
  · rintro ⟨before, later, hsplit, hid, hlater⟩
    cases later using List.reverseRecOn with
    | nil =>
      obtain ⟨rfl, hlast⟩ := List.append_inj' hsplit rfl
      exact .inr ⟨(List.cons.inj hlast).1, hid⟩
    | append_singleton later last =>
      rw [← List.cons_append, ← List.append_assoc] at hsplit
      obtain ⟨rfl, hlast⟩ := List.append_inj' hsplit rfl
      obtain rfl := (List.cons.inj hlast).1
      rw [List.mem_append, List.mem_singleton, not_or] at hlater
      exact .inl ⟨⟨before, later, rfl, hid, hlater.1⟩, Ne.symm hlater.2⟩
  · rintro (⟨⟨before, later, rfl, hid, hlater⟩, hne⟩ | ⟨rfl, hid⟩)
    · refine ⟨before, later ++ [request], by simp, hid, ?_⟩
      rw [List.mem_append, List.mem_singleton, not_or]
      exact ⟨hlater, Ne.symm hne⟩
    · exact ⟨requests, [], rfl, hid, List.not_mem_nil⟩

/-- What is found under an id is what the requests say. -/
theorem get?_run_iff : (run requests).store.get? id = some a ↔ Holds requests id a := by
  induction requests using List.reverseRecOn with
  | nil =>
    constructor
    · rintro ⟨⟩
    · rintro ⟨before, later, h, -⟩
      simp at h
  | append_singleton requests request ih =>
    have hsound := sound_run requests
    rw [run_concat, holds_concat, ← ih]
    cases request with
    | insert b =>
      change ((run requests).store.insert b).2.get? id = some a ↔
        (_ ∧ _) ∨ (_ ∧ ((run requests).store.insert a).1 = id)
      constructor
      · intro h
        rw [get?_insert hsound] at h
        split at h
        · next hid =>
          cases h
          exact .inr ⟨rfl, hid.symm⟩
        · exact .inl ⟨h, by simp⟩
      · rintro (⟨h, -⟩ | ⟨hb, hid⟩)
        · exact get?_insert_of_some hsound b h
        · cases hb
          rw [get?_insert hsound, if_pos hid.symm]
    | remove x =>
      rcases serve_remove_cases (run requests) x with ⟨b, store, hr, hs⟩ | ⟨hget, hs⟩
      · rw [hs]
        change store.get? id = some a ↔ _
        rw [get?_remove hr]
        by_cases hid : id = x <;> simp [hid, eq_comm]
      · rw [hs]
        by_cases hid : id = x <;> simp [hid, hget, eq_comm]

/-! ### Fresh ids -/

/-- The ids that have been given out for a slot are of the generations that it has had. -/
structure Tracked (s : Counted α) (ids : List NodeId) : Prop where
  count_eq : s.count = s.store.size
  generation_lt : ∀ id ∈ ids, id.generation.toNat < s.store.uses id.index
  uses_le : ∀ i, s.store.uses i ≤ ids.length
  slots_le : s.store.slots.size ≤ ids.length

namespace Tracked

variable {ids : List NodeId}

/-- A new id is none of those that have been issued. -/
theorem fresh (h : s.Tracked ids) (hs : s.store.Sound) (a : α) : (s.store.insert a).1 ∉ ids := by
  intro hm
  have hlt := h.generation_lt _ hm
  rw [uses_insert_fst hs] at hlt
  exact Nat.lt_irrefl _ hlt

private theorem index_lt (h : s.Tracked ids) (hid : id ∈ ids) : id.index < ids.length := by
  refine Nat.lt_of_lt_of_le ?_ h.slots_le
  have hlt := h.generation_lt id hid
  unfold uses at hlt
  cases hslot : s.store.slots[id.index]? with
  | none =>
    rw [hslot] at hlt
    exact absurd hlt (Nat.not_lt_zero _)
  | some slot => exact (Array.getElem?_eq_some_iff.1 hslot).1

theorem insert (h : s.Tracked ids) (hs : s.store.Sound) (a : α) :
    Tracked ⟨(s.store.insert a).2, s.count + 1⟩ (ids ++ [(s.store.insert a).1]) := by
  have huses := uses_insert hs a
  refine ⟨?_, fun id hid => ?_, fun i => ?_, ?_⟩
  · rw [size_insert hs, h.count_eq]
  · rw [huses]
    rcases List.mem_append.1 hid with hid | hid
    · exact Nat.lt_add_right _ (h.generation_lt id hid)
    · rw [List.mem_singleton.1 hid, uses_insert_fst hs, if_pos rfl]
      exact Nat.lt_succ_self _
  · have hi := h.uses_le i
    rw [huses, List.length_append, List.length_singleton]
    split <;> omega
  · rw [List.length_append]
    exact Nat.le_trans (size_slots_insert s.store a) (Nat.succ_le_succ h.slots_le)

/-- Taking a value out keeps track of ids, as long as no generation runs out. -/
theorem remove (h : s.Tracked ids) (hn : ids.length < 2 ^ 32) {store : Store α}
    (hr : s.store.remove? id = some (a, store)) : Tracked ⟨store, s.count - 1⟩ ids := by
  have huses := uses_remove hr (Nat.lt_of_le_of_lt (h.uses_le _) hn)
  refine ⟨?_, fun x hx => ?_, fun i => ?_, ?_⟩
  · rw [h.count_eq, size_remove hr, Nat.add_sub_cancel]
  · rw [huses]
    exact h.generation_lt x hx
  · rw [huses]
    exact h.uses_le i
  · rw [size_slots_remove hr]
    exact h.slots_le

end Tracked

private theorem tracked_empty : (empty : Counted α).Tracked [] := by
  refine ⟨rfl, fun _ hid => absurd hid List.not_mem_nil, fun i => Nat.le_of_eq ?_, Nat.le_refl 0⟩
  unfold uses
  rw [show (empty : Counted α).store.slots[i]? = none from rfl]
  rfl

/-- After fewer requests to store than there are generations, all issued ids are different and kept track of. -/
theorem tracked_run (hn : (issued requests).length < 2 ^ 32) :
    (run requests).Tracked (issued requests) ∧ (issued requests).Nodup := by
  induction requests using List.reverseRecOn with
  | nil => exact ⟨tracked_empty, .nil⟩
  | append_singleton requests request ih =>
    rw [issued_concat, List.length_append] at hn
    obtain ⟨htracked, hnodup⟩ := ih (Nat.lt_of_le_of_lt (Nat.le_add_right ..) hn)
    have hsound := sound_run requests
    rw [run_concat, issued_concat]
    cases request with
    | insert a =>
      refine ⟨htracked.insert hsound a, List.nodup_append.2 ⟨hnodup, List.nodup_singleton _, fun x hx y hy => ?_⟩⟩
      rintro rfl
      rw [List.mem_singleton.1 hy] at hx
      exact htracked.fresh hsound a hx
    | remove id =>
      rcases serve_remove_cases (run requests) id with ⟨a, store, hr, hs⟩ | ⟨-, hs⟩
      · rw [hs, Option.toList_none, List.append_nil]
        exact ⟨htracked.remove (Nat.lt_of_le_of_lt (Nat.le_add_right ..) hn) hr, hnodup⟩
      · rw [hs, Option.toList_none, List.append_nil]
        exact ⟨htracked, hnodup⟩

/-- What a host may rely on after some requests. -/
structure IsMap (requests : List (Request α)) : Prop where
  /-- No id has been given out twice. -/
  nodup_issued : (issued requests).Nodup
  /-- Slots are numbered in 32 bits. -/
  index_lt : ∀ id ∈ issued requests, id.index < 2 ^ 32
  /-- What has been stored under an id, and not been removed, can be looked up, changed and removed. -/
  granted : ∀ id a, Holds requests id a →
    (run requests).get id = .ok a ∧ (run requests).contains id = true ∧
    (∀ f, ∃ next, (alter id f).run (run requests) = .ok () next ∧
      ∀ other, next.get other = if other = id then .ok (f a) else (run requests).get other) ∧
    ∃ next, (remove id).run (run requests) = .ok a next
  /-- Nothing else can, and to try it leaves everything as it was. -/
  refused : ∀ id, (¬ ∃ a, Holds requests id a) →
    (run requests).get id = .error (.unknownNode id) ∧ (run requests).contains id = false ∧
    (∀ f, (alter id f).run (run requests) = .error (.unknownNode id) (run requests)) ∧
    (remove id).run (run requests) = .error (.unknownNode id) (run requests)
  /-- The entries are what is stored, by slot, each once. -/
  mem_entries_iff : ∀ id a, (id, a) ∈ (run requests).entries ↔ Holds requests id a
  ordered : (run requests).entries.Pairwise fun x y => x.1.index < y.1.index
  /-- The number that goes up and down is their number. -/
  size_eq : (run requests).size = (run requests).entries.length

/-- A store is a map with keys that are not used again, as long as less than `2 ^ 32` things are stored. -/
theorem run_isMap (requests : List (Request α)) (h : requests.countP Request.isInsert < 2 ^ 32) : IsMap requests := by
  rw [← length_issued] at h
  obtain ⟨htracked, hnodup⟩ := tracked_run h
  refine ⟨hnodup, fun id hid => Nat.lt_trans (htracked.index_lt hid) h, fun id a hholds => ?_, fun id hholds => ?_,
    fun id a => Store.mem_entries_iff.trans get?_run_iff, pairwise_entries _, htracked.count_eq⟩
  · have hget := get?_run_iff.2 hholds
    obtain ⟨store, hr⟩ := remove?_eq_some hget
    refine ⟨?_, ?_, fun f => ?_, ⟨store, (run requests).count - 1⟩, ?_⟩
    · rw [get_eq, hget]
      rfl
    · rw [contains, get_eq, hget]
      rfl
    · refine ⟨{ run requests with store := (run requests).store.modify id f }, ?_, fun other => ?_⟩
      · rw [alter_eq, hget]
      · rw [get_eq, get_eq, get?_modify]
        split
        · next ho =>
          rw [ho, hget]
          rfl
        · rfl
    · rw [remove_eq, hr]
  · have hget : (run requests).store.get? id = none :=
      Option.eq_none_iff_forall_ne_some.2 fun a ha => hholds ⟨a, get?_run_iff.1 ha⟩
    refine ⟨?_, ?_, fun f => ?_, ?_⟩
    · rw [get_eq, hget]
      rfl
    · rw [contains, get_eq, hget]
      rfl
    · rw [alter_eq, hget]
    · rw [remove_eq, remove?_eq_none hget]

/-- A slot is vacated and used again, under the id of its next generation, which could not be used before.  The old id
is of no use any more. -/
def reusedSlot : List (Request Nat) :=
  [.insert 1, .insert 2, .remove ⟨0, 0⟩, .remove ⟨0, 1⟩, .insert 3, .remove ⟨0, 0⟩]

theorem reusedSlot_get : (run reusedSlot).get ⟨0, 1⟩ = .ok 3 ∧ (issued reusedSlot).Nodup := by
  have h := run_isMap reusedSlot (by decide)
  have hholds : Holds reusedSlot ⟨0, 1⟩ 3 :=
    ⟨[.insert 1, .insert 2, .remove ⟨0, 0⟩, .remove ⟨0, 1⟩], [.remove ⟨0, 0⟩], rfl, by decide, by simp⟩
  exact ⟨(h.granted _ _ hholds).1, h.nodup_issued⟩

end Counted

end Store

end Dataflow
