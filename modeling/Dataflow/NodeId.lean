/-!
# Node ids

A node is named by its slot in a store together with the generation of the slot, which changes
whenever the slot is vacated.  So an id that outlives its node never names a node stored later in
the same slot.
-/

namespace Dataflow

structure NodeId where
  index : Nat
  generation : UInt32
  deriving DecidableEq

namespace NodeId

protected def lt (a b : NodeId) : Prop :=
  a.index < b.index ∨ (a.index = b.index ∧ a.generation < b.generation)

instance : LT NodeId := ⟨NodeId.lt⟩

instance (a b : NodeId) : Decidable (a < b) := inferInstanceAs (Decidable (_ ∨ _))

/-- An id as people read it, without its generation. -/
def toText (id : NodeId) : String := "#" ++ toString id.index

theorem lt_def {a b : NodeId} :
    a < b ↔ a.index < b.index ∨ (a.index = b.index ∧ a.generation < b.generation) := Iff.rfl

theorem lt_irrefl (a : NodeId) : ¬ a < a := by simp [lt_def]

theorem lt_trans {a b c : NodeId} (h : a < b) (h' : b < c) : a < c := by
  simp only [lt_def, UInt32.lt_iff_toNat_lt] at *
  omega

theorem lt_trichotomy (a b : NodeId) : a < b ∨ a = b ∨ b < a := by
  cases a; cases b
  simp only [lt_def, UInt32.lt_iff_toNat_lt, NodeId.mk.injEq, ← UInt32.toNat_inj]
  omega

end NodeId

end Dataflow
