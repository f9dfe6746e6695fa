import Dataflow.PendingSet.Indexed
import Dataflow.Proofs.PendingSet
import Mathlib.Data.List.Induction

/-!
# Pending sets with and without an index

A pending set with an index does what one without it does (`Indexed.Stands`): its entries are the same, the depths noted
beside are those under which the nodes are pending, and it gives the same answers.  Both do what is asked of a map from
pending nodes to depths.

* `denotes_serve`: one request to a pending set;
* `Stands.insert`, `Stands.pop`, `Stands.remove`, `Stands.rekey`: one request to both;
* `Indexed.run_refines`: any number of requests.
-/

namespace Dataflow

namespace PendingSet

variable {s : PendingSet} {n : NodeId} {f : NodeId → Option Nat}

/-! ### The map from pending nodes to depths -/

theorem contains_eq (s : PendingSet) (n : NodeId) : s.contains n = (s.depth? n).isSome := by
  rw [Bool.eq_iff_iff, Option.isSome_iff_exists]
  exact decide_eq_true_iff.trans mem_nodes_iff

private theorem isFirst_of_pop {t : PendingSet} {e : Pending} (h : s.pop? = some (e, t)) :
    IsFirst s.depth? e := by
  refine ⟨depth?_of_pop h, fun n depth hn hne => ?_⟩
  rw [depth?_eq_some_iff, entries_of_pop h, List.mem_cons] at hn
  rcases hn with rfl | hn
  · exact absurd rfl hne
  · exact lt_of_mem_pop h hn

theorem denotes_serve (s : PendingSet) (request : Request) :
    request.Denotes s.depth? (s.serve request).2.depth? (s.serve request).1 := by
  cases request with
  | insert n depth =>
    refine ⟨?_, fun k => depth?_insert s n k depth⟩
    change Answer.flag (!s.contains n) = _
    rw [contains_eq]
    cases s.depth? n <;> rfl
  | pop =>
    unfold serve
    cases hp : s.pop? with
    | none =>
      rw [pop?_eq_none_iff.1 hp]
      exact .inl ⟨fun _ => rfl, rfl, fun _ => rfl⟩
    | some r =>
      obtain ⟨e, t⟩ := r
      exact .inr ⟨e, isFirst_of_pop hp, rfl, depth?_pop hp⟩
  | remove n => exact ⟨congrArg Answer.flag (contains_eq s n), depth?_remove s n⟩
  | clear => exact ⟨rfl, fun _ => rfl⟩
  | rekey listing f =>
    refine ⟨rfl, fun k => ?_⟩
    have hk : k ∈ s.nodes ↔ (s.depth? k).isSome = true := mem_nodes_iff.trans Option.isSome_iff_exists.symm
    change (s.rekey f).depth? k = if (s.depth? k).isSome then f k else none
    rw [depth?_rekey]
    exact ite_congr (propext hk) (fun _ => rfl) fun _ => rfl

/-- Nodes are given new depths in any order. -/
theorem foldl_rekey_eq {nodes : List NodeId} (h : ∀ n, n ∈ nodes ↔ n ∈ s.nodes) (f : NodeId → Option Nat) :
    nodes.foldl (fun t n => (f n).elim t (t.insert n)) empty = s.rekey f := by
  refine ext_depth? fun m => ?_
  rw [depth?_foldl_rekey, depth?_rekey]
  simp only [depth?_empty, Option.none_or, h]

end PendingSet

/-! ### Keys of tables -/

namespace Table

variable {κ α : Type} [DecidableEq κ]

private theorem mem_keys_iff {t : Table κ α} {k : κ} :
    k ∈ t.entries.map Prod.fst ↔ ∃ a, t.find? k = some a := by
  unfold find?
  rw [← Option.isSome_iff_exists, Option.isSome_map, List.find?_isSome, List.mem_map]
  simp

end Table

namespace PendingSet.Indexed

/-- The pending set with an index stands for the one without. -/
structure Stands (i : Indexed) (s : PendingSet) : Prop where
  entries : i.agenda.entries = s.entries
  find? : ∀ n, i.depths.find? n = s.depth? n

namespace Stands

variable {i : Indexed} {s : PendingSet}

theorem contains (h : i.Stands s) (n : NodeId) : i.contains n = s.contains n := by
  rw [contains_eq, ← h.find?]
  rfl

theorem insert (h : i.Stands s) (n : NodeId) (depth : Nat) :
    (i.insert n depth).1 = (!s.contains n) ∧ (i.insert n depth).2.Stands (s.insert n depth) := by
  have hc := h.contains n
  unfold Indexed.insert PendingSet.insert
  rw [hc]
  by_cases hn : n ∈ s.nodes
  · have hcn : s.contains n = true := decide_eq_true hn
    rw [dif_pos hn, hcn, if_pos rfl]
    exact ⟨rfl, h⟩
  · have hcn : s.contains n = false := decide_eq_false hn
    have he : (⟨depth, n⟩ : Pending) ∉ i.agenda.entries := by
      rw [h.entries]
      exact fun hm => hn (List.mem_map_of_mem hm)
    rw [dif_neg hn, hcn, if_neg Bool.false_ne_true]
    refine ⟨rfl, ?_, fun k => ?_⟩
    · change (i.agenda.insert ⟨depth, n⟩).entries = place ⟨depth, n⟩ s.entries
      unfold Agenda.insert
      rw [dif_neg he]
      exact congrArg (place ⟨depth, n⟩) h.entries
    · have hs := depth?_insert s n k depth
      unfold PendingSet.insert at hs
      rw [dif_neg hn, depth?_eq_none_iff.2 hn, Option.getD_none] at hs
      change (i.depths.insert n depth).find? k = _
      rw [hs, Table.find?_insert, h.find?]

/-- Both structures take out the same node, or none. -/
theorem pop (h : i.Stands s) :
    (s.pop? = none ∧ i.pop = (none, i)) ∨
      ∃ e t j, s.pop? = some (e, t) ∧ i.pop = (some e, j) ∧ j.Stands t := by
  obtain ⟨⟨entries, sorted⟩, depths⟩ := i
  obtain rfl : entries = s.entries := h.entries
  cases hp : s.pop? with
  | none =>
    obtain rfl := pop?_eq_none_iff.1 hp
    exact .inl ⟨rfl, rfl⟩
  | some r =>
    obtain ⟨e, t⟩ := r
    have ht := entries_of_pop hp
    obtain ⟨entries, sorted, distinct⟩ := s
    dsimp only at ht
    subst ht
    refine .inr ⟨e, t, ⟨⟨t.entries, _⟩, depths.erase e.node⟩, rfl, rfl, rfl, fun n => ?_⟩
    change (depths.erase e.node).find? n = _
    rw [Table.find?_erase, depth?_pop hp]
    exact ite_congr rfl (fun _ => rfl) fun _ => h.find? n

theorem remove (h : i.Stands s) (n : NodeId) :
    (i.remove n).1 = s.contains n ∧ (i.remove n).2.Stands (s.remove n) := by
  rw [contains_eq, ← h.find?]
  unfold Indexed.remove
  cases hd : i.depths.find? n with
  | none =>
    have hn : n ∉ s.nodes := depth?_eq_none_iff.1 ((h.find? n).symm.trans hd)
    rw [remove_of_notMem hn]
    exact ⟨rfl, h⟩
  | some depth =>
    have hs : s.depth? n = some depth := (h.find? n).symm.trans hd
    refine ⟨rfl, ?_, fun k => ?_⟩
    · -- The entry under the depth that is noted is the only one of the node.
      change i.agenda.entries.filter (· ≠ ⟨depth, n⟩) = s.entries.filter (·.node ≠ n)
      rw [h.entries]
      refine List.filter_congr fun e he => ?_
      rw [decide_eq_decide, not_iff_not]
      constructor
      · rintro rfl
        rfl
      · rintro rfl
        rw [depth?_eq_some_iff.2 he, Option.some.injEq] at hs
        rw [← hs]
    · change (i.depths.erase n).find? k = _
      rw [Table.find?_erase, depth?_remove, h.find?]

private theorem foldl_insert (h : i.Stands s) (nodes : List NodeId) (f : NodeId → Option Nat) :
    (nodes.foldl (fun t n => (f n).elim t fun depth => (t.insert n depth).2) i).Stands
      (nodes.foldl (fun t n => (f n).elim t (t.insert n)) s) := by
  induction nodes generalizing i s with
  | nil => exact h
  | cons n nodes ih =>
    rw [List.foldl_cons, List.foldl_cons]
    cases f n with
    | none => exact ih h
    | some depth => exact ih (h.insert n depth).2

/-- Putting all nodes under new depths keeps both in step, in whatever order the table lists them. -/
theorem rekey (h : i.Stands s) (listing : Table.Listing NodeId Nat) (f : NodeId → Option Nat) :
    (i.rekey listing f).Stands (s.rekey f) := by
  have hnodes : ∀ n, n ∈ listing.keys i.depths ↔ n ∈ s.nodes := by
    intro n
    rw [(listing.perm i.depths).mem_iff, Table.mem_keys_iff, mem_nodes_iff, h.find?]
  rw [← foldl_rekey_eq hnodes f]
  exact foldl_insert ⟨rfl, fun _ => rfl⟩ _ f

/-- Every request is answered alike by both, and keeps them in step. -/
theorem serve (h : i.Stands s) (request : Request) :
    (i.serve request).1 = (s.serve request).1 ∧ (i.serve request).2.Stands (s.serve request).2 := by
  cases request with
  | insert n depth => exact ⟨congrArg Answer.flag (h.insert n depth).1, (h.insert n depth).2⟩
  | pop =>
    unfold PendingSet.serve Indexed.serve
    rcases h.pop with ⟨hs, hi⟩ | ⟨e, t, j, hs, hi, hj⟩
    · rw [hs, hi]
      exact ⟨rfl, h⟩
    · rw [hs, hi]
      exact ⟨rfl, hj⟩
  | remove n => exact ⟨congrArg Answer.flag (h.remove n).1, (h.remove n).2⟩
  | clear => exact ⟨rfl, rfl, fun _ => rfl⟩
  | rekey listing f => exact ⟨rfl, h.rekey listing f⟩

/-- After any requests the structures are in step. -/
theorem run (requests : List Request) : (Indexed.run requests).Stands (PendingSet.run requests) := by
  induction requests using List.reverseRecOn with
  | nil => exact ⟨rfl, fun _ => rfl⟩
  | append_singleton requests request ih =>
    unfold Indexed.run PendingSet.run
    rw [List.foldl_append, List.foldl_append]
    exact (ih.serve request).2

/-- The agenda holds a node exactly under the depth that the table has for it. -/
theorem mem_iff (h : i.Stands s) (n : NodeId) (depth : Nat) :
    (⟨depth, n⟩ : Pending) ∈ i.agenda.entries ↔ i.depths.find? n = some depth := by
  rw [h.entries, h.find?, depth?_eq_some_iff]

theorem distinct (h : i.Stands s) : (i.agenda.entries.map Pending.node).Nodup := by
  rw [h.entries]
  exact s.distinct

theorem size_eq (h : i.Stands s) : i.size = i.agenda.entries.length := by
  have hkeys : (i.depths.entries.map Prod.fst).Perm (i.agenda.entries.map Pending.node) := by
    refine (List.perm_ext_iff_of_nodup i.depths.distinct h.distinct).2 fun n => ?_
    rw [Table.mem_keys_iff, h.entries, h.find?]
    exact mem_nodes_iff.symm
  have hlength := hkeys.length_eq
  rwa [List.length_map, List.length_map] at hlength

end Stands

/-- What a host may rely on after some requests to a pending set with an index. -/
structure Refines (requests : List Request) : Prop where
  /-- The entries and the depths that are noted beside say the same. -/
  mem_iff : ∀ n depth, (⟨depth, n⟩ : Pending) ∈ (run requests).agenda.entries ↔
    (run requests).depths.find? n = some depth
  /-- There is one entry for each pending node. -/
  distinct : ((run requests).agenda.entries.map Pending.node).Nodup
  size_eq : (run requests).size = (run requests).agenda.entries.length
  /-- The next request does what it means for the map from pending nodes to depths. -/
  denotes : ∀ request : Request, request.Denotes (run requests).depths.find?
    ((run requests).serve request).2.depths.find? ((run requests).serve request).1
  /-- A node that is pending can be inserted again without any change. -/
  insert_pending : ∀ n depth d, (run requests).depths.find? n = some d →
    (run requests).insert n depth = (false, run requests)
  /-- After nodes have been given new depths, the entries are those of the pending nodes that have one. -/
  mem_rekey_iff : ∀ listing f n depth,
    (⟨depth, n⟩ : Pending) ∈ ((run requests).rekey listing f).agenda.entries ↔
      f n = some depth ∧ ∃ d, (run requests).depths.find? n = some d
  /-- It makes no difference in which order the nodes are listed. -/
  rekey_eq : ∀ listing listing' f,
    ((run requests).rekey listing f).agenda.entries = ((run requests).rekey listing' f).agenda.entries ∧
    ∀ n, ((run requests).rekey listing f).depths.find? n = ((run requests).rekey listing' f).depths.find? n
  /-- Nor does it make a difference whether there is an index. -/
  entries_eq : (run requests).agenda.entries = (PendingSet.run requests).entries
  answer_eq : ∀ request : Request, ((run requests).serve request).1 = ((PendingSet.run requests).serve request).1

/-- A pending set with an index is a map from nodes to depths of which the least entry can be taken out. -/
theorem run_refines (requests : List Request) : Refines requests := by
  have h := Stands.run requests
  have hfind : (run requests).depths.find? = (PendingSet.run requests).depth? := funext h.find?
  refine ⟨h.mem_iff, h.distinct, h.size_eq, fun request => ?_, fun n depth d hd => ?_, fun listing f n depth => ?_,
    fun listing listing' f => ?_, h.entries, fun request => (h.serve request).1⟩
  · obtain ⟨hanswer, hnext⟩ := h.serve request
    rw [hfind, show _ = _ from funext hnext.find?, hanswer]
    exact denotes_serve _ request
  · have hc : (run requests).contains n = true := by
      unfold contains
      rw [hd]
      rfl
    unfold insert
    rw [if_pos hc]
  · have hrekey := h.rekey listing f
    rw [hrekey.mem_iff, hrekey.find?, depth?_rekey, hfind, ← mem_nodes_iff]
    split <;> simp_all
  · have hrekey := h.rekey listing f
    have hrekey' := h.rekey listing' f
    exact ⟨hrekey.entries.trans hrekey'.entries.symm, fun n => (hrekey.find? n).trans (hrekey'.find? n).symm⟩

end PendingSet.Indexed

end Dataflow
