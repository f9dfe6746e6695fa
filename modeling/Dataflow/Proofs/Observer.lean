import Dataflow.Observer
import Mathlib.Data.List.Nodup

/-!
# Registered observers

The numbers of observers are given out in increasing order, and the index lists the observers of every node in the
order of their registration (`Sound`).  Registering and removing observers keeps this (`Sound.register`,
`Sound.unregister`, `Sound.forget`), so that the work queued after an evaluation is for observers that are there
(`Sound.mem_tasksAfter`).
-/

namespace Dataflow.ObserverTable

variable {σ : Type} {t : ObserverTable σ} {id : ObserverId} {o o' : Observer σ} {x : NodeId}

/-- The registered observers of a node, in the order of their registration. -/
def ofNode (t : ObserverTable σ) (x : NodeId) : List ObserverId := (t.entries.filter (·.2.node = x)).map Prod.fst

theorem mem_ofNode : id ∈ t.ofNode x ↔ ∃ o, (id, o) ∈ t.entries ∧ o.node = x := by simp [ofNode]

/-- The numbers of observers and their index are sound. -/
structure Sound (t : ObserverTable σ) : Prop where
  ordered : t.entries.Pairwise fun a b => a.1.raw < b.1.raw
  fresh : ∀ a ∈ t.entries, a.1.raw < t.next
  /-- The index has an entry for every node that is observed, and for no other. -/
  index : ∀ x, t.byNode.find? x = if t.ofNode x = [] then none else some (t.ofNode x)

theorem sound_empty : (empty : ObserverTable σ).Sound := ⟨.nil, by simp [empty], fun _ => rfl⟩

namespace Sound

/-- The index lists, for each node, the observers that are entered for it. -/
theorem listed_eq (h : t.Sound) (x : NodeId) : t.listed x = t.ofNode x := by
  rw [listed, h.index]
  split
  · next he => rw [he, Option.getD_none]
  · rw [Option.getD_some]

theorem nodup (h : t.Sound) : (t.entries.map Prod.fst).Nodup := by
  rw [List.Nodup, List.pairwise_map]
  refine h.ordered.imp fun hlt he => ?_
  rw [he] at hlt
  exact Nat.lt_irrefl _ hlt

/-- No two observers have the same number. -/
theorem unique (h : t.Sound) (ho : (id, o) ∈ t.entries) (ho' : (id, o') ∈ t.entries) : o = o' :=
  congrArg Prod.snd (List.inj_on_of_nodup_map h.nodup ho ho' rfl)

/-- An observer is found under its number exactly if it is registered. -/
theorem find?_eq_some_iff (h : t.Sound) : t.find? id = some o ↔ (id, o) ∈ t.entries := by
  unfold find?
  constructor
  · intro hf
    obtain ⟨⟨id', o'⟩, hfound, rfl⟩ := Option.map_eq_some_iff.1 hf
    have hid : id' = id := by simpa using List.find?_some hfound
    exact hid ▸ List.mem_of_find?_eq_some hfound
  · intro ho
    cases hf : t.entries.find? fun e => e.1 = id with
    | none => exact absurd (decide_eq_true rfl) (List.find?_eq_none.1 hf _ ho)
    | some a =>
      obtain ⟨id', o'⟩ := a
      have hid : id' = id := by simpa using List.find?_some hf
      rw [Option.map_some, h.unique ho (hid ▸ List.mem_of_find?_eq_some hf)]

theorem mem_ofNode_iff (h : t.Sound) (ho : (id, o) ∈ t.entries) : id ∈ t.ofNode x ↔ o.node = x := by
  rw [mem_ofNode]
  constructor
  · rintro ⟨o', ho', hx⟩
    rwa [h.unique ho ho']
  · exact fun hx => ⟨o, ho, hx⟩

/-! ### Registering and removing -/

/-- A new observer gets an id that none has, and is entered in the index. -/
theorem register (h : t.Sound) (o : Observer σ) : (t.register o).2.Sound := by
  have hof : ∀ x, (t.register o).2.ofNode x = if x = o.node then t.ofNode x ++ [⟨t.next⟩] else t.ofNode x := by
    intro x
    by_cases hx : x = o.node
    · simp [ofNode, ObserverTable.register, hx]
    · simp [ofNode, ObserverTable.register, hx, Ne.symm hx]
  refine ⟨?_, ?_, fun x => ?_⟩
  · refine List.pairwise_append.2 ⟨h.ordered, List.pairwise_singleton _ _, fun a ha b hb => ?_⟩
    rw [List.mem_singleton.1 hb]
    exact h.fresh a ha
  · intro a ha
    rcases List.mem_append.1 ha with ha | ha
    · exact Nat.lt_succ_of_lt (h.fresh a ha)
    · rw [List.mem_singleton.1 ha]
      exact Nat.lt_succ_self _
  · rw [hof]
    change (t.byNode.insert o.node (t.listed o.node ++ [⟨t.next⟩])).find? x = _
    rw [Table.find?_insert]
    split
    · next hx => simp [hx, h.listed_eq]
    · exact h.index x

/-- Where observers are taken out, the index has to follow. -/
private theorem filtered {byNode : Table NodeId (List ObserverId)} (h : t.Sound) (p : ObserverId × Observer σ → Bool)
    (hindex : ∀ x, byNode.find? x =
      if ((t.entries.filter p).filter (·.2.node = x)).map Prod.fst = [] then none
      else some (((t.entries.filter p).filter (·.2.node = x)).map Prod.fst)) :
    ({ t with entries := t.entries.filter p, byNode := byNode } : ObserverTable σ).Sound :=
  ⟨h.ordered.filter p, fun a ha => h.fresh a (List.mem_filter.1 ha).1, hindex⟩

theorem unregister (h : t.Sound) (id : ObserverId) : (t.unregister id).Sound := by
  unfold ObserverTable.unregister
  cases ho : t.find? id with
  | none => exact h
  | some o =>
    rw [h.find?_eq_some_iff] at ho
    have hof : ∀ x, ((t.entries.filter (·.1 ≠ id)).filter (·.2.node = x)).map Prod.fst =
        (t.ofNode x).filter (· ≠ id) := by
      intro x
      rw [ofNode, List.filter_map, List.filter_filter, List.filter_filter]
      exact congrArg _ (List.filter_congr fun a _ => Bool.and_comm _ _)
    refine h.filtered _ fun x => ?_
    rw [hof, h.listed_eq]
    by_cases hx : x = o.node
    · subst hx
      split
      · rw [Table.find?_erase, if_pos rfl]
      · rw [Table.find?_insert, if_pos rfl]
    · have hkeep : (t.ofNode x).filter (· ≠ id) = t.ofNode x := by
        rw [List.filter_eq_self]
        intro id' hid'
        rw [decide_eq_true_iff]
        rintro rfl
        exact hx ((h.mem_ofNode_iff ho).1 hid').symm
      rw [hkeep, ← h.index x]
      split
      · rw [Table.find?_erase, if_neg hx]
      · rw [Table.find?_insert, if_neg hx]

theorem forget (h : t.Sound) (node : NodeId) : (t.forget node).Sound := by
  refine h.filtered _ fun x => ?_
  have hkept : ∀ a ∈ t.entries, decide (a.1 ∉ t.listed node) = decide (a.2.node ≠ node) := by
    intro a ha
    rw [decide_eq_decide, h.listed_eq]
    exact not_congr (h.mem_ofNode_iff ha)
  rw [List.filter_congr hkept, List.filter_filter, Table.find?_erase]
  split
  · next hx =>
    subst hx
    rw [List.filter_eq_nil_iff.2 (fun a _ => by simp)]
    rfl
  · next hx =>
    rw [h.index, ofNode]
    have hsame : t.entries.filter (fun a => decide (a.2.node = x) && decide (a.2.node ≠ node)) =
        t.entries.filter (·.2.node = x) := List.filter_congr fun a _ => by
      by_cases ha : a.2.node = x
      · simp [ha, hx]
      · simp [ha]
    rw [hsame]

/-- Nothing is forgotten with a node that is not observed. -/
theorem forget_of_ne (h : t.Sound) (hx : ∀ {id o}, (id, o) ∈ t.entries → o.node ≠ x) : t.forget x = t := by
  have hof : t.ofNode x = [] := List.eq_nil_iff_forall_not_mem.2 fun id hid => by
    obtain ⟨o, ho, hnode⟩ := mem_ofNode.1 hid
    exact hx ho hnode
  have hindex : t.byNode.find? x = none := by rw [h.index, if_pos hof]
  unfold ObserverTable.forget
  rw [h.listed_eq, hof, Table.erase_of_find?_eq_none hindex, List.filter_eq_self.2 fun _ _ => by simp]

/-! ### Queued work -/

/-- The work queued after the evaluation of a node is about the node, and for observers of it. -/
theorem mem_tasksAfter (h : t.Sound) {v : Visit} {task : Task} (ht : task ∈ t.tasksAfter v) :
    task.node = v.entry.node ∧
      ∀ id notification, task = .notify id notification → ∃ o, (id, o) ∈ t.entries ∧ o.node = v.entry.node := by
  have hwatching : ∀ {w : Watch} {id : ObserverId}, id ∈ t.watching v.entry.node w →
      ∃ o, (id, o) ∈ t.entries ∧ o.node = v.entry.node := by
    intro w id hid
    have hlisted := (List.mem_filter.1 hid).1
    rwa [h.listed_eq, mem_ofNode] at hlisted
  unfold tasksAfter at ht
  simp only at ht
  split at ht
  · obtain ⟨id, hid, rfl⟩ := List.mem_map.1 ht
    refine ⟨rfl, fun id' notification he => ?_⟩
    cases he
    exact hwatching hid
  · rcases List.mem_cons.1 ht with rfl | ht
    · exact ⟨rfl, fun _ _ he => by cases he⟩
    · obtain ⟨id, hid, rfl⟩ := List.mem_map.1 ht
      refine ⟨rfl, fun id' notification he => ?_⟩
      cases he
      exact hwatching hid
  · cases ht
  · cases ht

end Sound

end Dataflow.ObserverTable
