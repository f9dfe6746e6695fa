import Dataflow.PendingSet
import Mathlib.Algebra.Order.BigOperators.Group.List
import Mathlib.Algebra.Order.Ring.Nat
import Mathlib.Data.List.Sort

/-!
# Equality and weights of pending sets

A pending set is determined by the depths under which nodes are pending (`PendingSet.ext_depth?`).

The weight of a pending set is the sum of the weights of its nodes (`PendingSet.weight`), a measure for loops that
take out one entry and put in others.  Taking out an entry takes off its weight, and putting entries in adds no more
than theirs.
-/

namespace Dataflow.PendingSet

/-- Two pending sets with the same nodes under the same depths are equal. -/
theorem ext_depth? {s t : PendingSet} (h : ∀ n, s.depth? n = t.depth? n) : s = t := by
  have hirrefl : Std.Irrefl fun a b : Pending => a < b := ⟨Pending.lt_irrefl⟩
  have hantisymm : Std.Antisymm fun a b : Pending => a < b :=
    ⟨fun a b hab hba => absurd (Pending.lt_trans hab hba) (Pending.lt_irrefl a)⟩
  refine ext (s.sorted.eq_of_mem_iff t.sorted fun e => ?_)
  rw [← depth?_eq_some_iff, ← depth?_eq_some_iff, h]

/-- Taking out what is not pending changes nothing. -/
theorem remove_of_notMem {s : PendingSet} {n : NodeId} (h : n ∉ s.nodes) : s.remove n = s := by
  refine ext_depth? fun m => ?_
  rw [depth?_remove]
  split
  · next he => exact (depth?_eq_none_iff.2 (he ▸ h)).symm
  · rfl

/-- Taking out again what was put in leaves what was there. -/
theorem remove_insert {s : PendingSet} {n : NodeId} (d : Nat) (h : n ∉ s.nodes) : (s.insert n d).remove n = s := by
  refine ext_depth? fun m => ?_
  rw [depth?_remove]
  split
  · next he => exact (depth?_eq_none_iff.2 (he ▸ h)).symm
  · next hne => rw [depth?_insert, if_neg hne]

/-! ### Weights -/

/-- The sum of the weights of the pending nodes. -/
def weight (w : NodeId → Nat) (s : PendingSet) : Nat := (s.nodes.map w).sum

theorem weight_pop {s t : PendingSet} {e : Pending} (w : NodeId → Nat) (h : s.pop? = some (e, t)) :
    s.weight w = w e.node + t.weight w := by
  simp [weight, nodes, entries_of_pop h]

private theorem sum_place (w : NodeId → Nat) (e : Pending) (l : List Pending) :
    ((place e l).map (w ∘ Pending.node)).sum = w e.node + (l.map (w ∘ Pending.node)).sum := by
  induction l with
  | nil => rfl
  | cons f l ih =>
    unfold place
    split
    · rfl
    · rw [List.map_cons, List.sum_cons, ih, List.map_cons, List.sum_cons, Nat.add_left_comm]

private theorem weight_insert_le (w : NodeId → Nat) (s : PendingSet) (n : NodeId) (d : Nat) :
    (s.insert n d).weight w ≤ s.weight w + w n := by
  unfold insert
  split
  · exact Nat.le_add_right ..
  · have hsum := sum_place w ⟨d, n⟩ s.entries
    simp only [weight, nodes, List.map_map, hsum]
    omega

theorem weight_insertAll_le (w : NodeId → Nat) (s : PendingSet) (es : List Pending) :
    (s.insertAll es).weight w ≤ s.weight w + (es.map (w ∘ Pending.node)).sum := by
  unfold insertAll
  induction es generalizing s with
  | nil => exact Nat.le_refl _
  | cons e es ih =>
    have hins := weight_insert_le w s e.node e.depth
    have hrest := ih (s.insert e.node e.depth)
    rw [List.foldl_cons, List.map_cons, List.sum_cons, Function.comp_apply]
    omega

/-- The weight of what is pending is bounded by the number of nodes times a bound on their weights. -/
theorem weight_le {w : NodeId → Nat} {s : PendingSet} {b : Nat} (h : ∀ n ∈ s.nodes, w n ≤ b) :
    s.weight w ≤ s.size * b := by
  have hlen : s.nodes.length = s.size := List.length_map ..
  have hsum := (s.nodes.map w).sum_le_card_nsmul b fun k hk => by
    obtain ⟨n, hn, rfl⟩ := List.mem_map.1 hk
    exact h n hn
  rwa [List.length_map, hlen, Nat.nsmul_eq_mul] at hsum

end Dataflow.PendingSet
