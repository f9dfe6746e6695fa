import Dataflow.Proofs.Engine.Changes
import Dataflow.Proofs.Engine.Reachable

/-!
# Shared constants

The table of shared constants is keyed by the values that constants hold, but a constant can be shared while it waits
for another value.  It is then handed out for a value that it is about to lose (`refolded_constant`).  As long as this
does not happen (`SteadilyReachable`), an entry of the table names a constant that holds its key and will go on to hold
it (`Engine.Shares`), and sharing changes no value (`SteadilyReachable.shared`).
-/

namespace Dataflow

open Dataflow.Graph

/-- The value that a constant has been given last. -/
def Node.effective? (n : Node) : Option Value :=
  match n.staged? with
  | some (.value v) => some v
  | _ => n.value?

private theorem Node.IsSteady.effective?_eq {n : Node} (h : n.IsSteady) : n.effective? = n.value? := by
  unfold effective?
  rcases h with hs | hs <;> rw [hs]
  cases n.value? <;> rfl

private theorem Node.IsSteady.of_held {n m : Node} (he : n.held = m.held) (h : m.IsSteady) : n.IsSteady := by
  unfold IsSteady
  rwa [staged?_of_held he, value?_of_held he]

private theorem Node.kind_of_held {n m : Node} (he : n.held = m.held) (h : m.kind = .constant) :
    n.kind = .constant := by
  have hk := emptied_of_held he
  rw [h] at hk
  cases hn : n.kind <;> rw [hn] at hk <;> first | rfl | cases hk

/-- The node is a constant that holds the value and does not wait for another. -/
structure Node.IsLiteral (n : Node) (v : Value) : Prop where
  kind : n.kind = .constant
  value : n.value? = some v
  steady : n.IsSteady

namespace Node.IsLiteral

variable {n m : Node} {v : Value}

private theorem of_held (he : n.held = m.held) (h : m.IsLiteral v) : n.IsLiteral v :=
  ⟨kind_of_held he h.kind, (value?_of_held he).trans h.value, h.steady.of_held he⟩

/-- Nothing is staged for a literal but its own value. -/
theorem staged (h : n.IsLiteral v) : n.staged? = none ∨ n.staged? = some (.value v) := by
  have hs := h.steady
  rwa [IsSteady, h.value] at hs

/-- Evaluation leaves a literal as it is. -/
theorem settled (h : n.IsLiteral v) (pass : Nat) (args : List Arg) :
    (n.settled pass (n.outcome args)).IsLiteral v := by
  have hsame : n.outcome args = .unchanged := by
    unfold outcome
    rw [h.kind]
    rcases h.staged with hs | hs <;> simp [hs, h.value]
  rw [hsame]
  exact ⟨h.kind, h.value, .inl rfl⟩

end Node.IsLiteral

variable {σ : Type} {created : Nat} {e e' : Engine σ}

namespace Engine

/-- Every entry of the table names a constant that holds its key. -/
structure Shares (e : Engine σ) : Prop where
  entry : ∀ {v id}, e.constants.find? v = some id → ∃ n, e.graph.node? id = some n ∧ n.IsLiteral v

private theorem find?_unshare {v w : Value} {id other : NodeId} :
    (e.unshare v id).find? w = some other ↔ e.constants.find? w = some other ∧ ¬ (w = v ∧ other = id) := by
  unfold unshare
  split
  · next hv =>
    rw [Table.find?_erase]
    split
    · next hw => simp [hw, hv, eq_comm]
    · next hw => simp [hw]
  · next hv =>
    refine ⟨fun h => ⟨h, ?_⟩, And.left⟩
    rintro ⟨rfl, rfl⟩
    exact hv h

namespace Shares

/-- A change of other nodes leaves the table as it is. -/
private theorem weaken (h : e.Shares) (hconstants : ∀ {v id}, e'.constants.find? v = some id →
      e.constants.find? v = some id ∧
        ∀ n, e.graph.node? id = some n → n.IsLiteral v → ∃ n', e'.graph.node? id = some n' ∧ n'.IsLiteral v) :
    e'.Shares := by
  refine ⟨fun hid => ?_⟩
  obtain ⟨hid, hkeep⟩ := hconstants hid
  obtain ⟨n, hn, hlit⟩ := h.entry hid
  exact hkeep n hn hlit

/-- A removed constant leaves the table, where it stood under the value that it held. -/
theorem remove {id : NodeId} {n removed : Node} {g : Graph} (h : e.Shares) (hr : e.graph.Removed id n g)
    (hsame : removed.held = n.held) : (e.dropping id removed g).Shares := by
  refine h.weaken fun {v other} hother => ?_
  have hentry : e.constants.find? v = some other ∧ other ≠ id := by
    unfold dropping at hother
    dsimp only at hother
    split at hother
    · next w hk hv =>
      obtain ⟨hfind, hne⟩ := find?_unshare.1 hother
      refine ⟨hfind, ?_⟩
      rintro rfl
      obtain ⟨m, hm, hlit⟩ := h.entry hfind
      rw [hr.node, Option.some.injEq] at hm
      subst hm
      rw [Node.value?_of_held hsame, hlit.value, Option.some.injEq] at hv
      exact hne ⟨hv, rfl⟩
    · next hother' =>
      refine ⟨hother, ?_⟩
      rintro rfl
      obtain ⟨m, hm, hlit⟩ := h.entry hother
      rw [hr.node, Option.some.injEq] at hm
      subst hm
      exact hother' v (Node.kind_of_held hsame hlit.kind) ((Node.value?_of_held hsame).trans hlit.value)
  refine ⟨hentry.1, fun m hm hlit => ?_⟩
  obtain ⟨m', hm', he⟩ := hr.held_of_some hm hentry.2
  exact ⟨m', hm', hlit.of_held he⟩

/-- What is staged for a node that is not shared, or is shared no longer, is no matter to the table. -/
private theorem rewritten {id : NodeId} {n : Node} {s? : Option Staged} {eval : PendingSet}
    {constants : Table Value NodeId} (h : e.Shares) (hn : e.graph.node? id = some n)
    (hconstants : ∀ {v other}, constants.find? v = some other →
      e.constants.find? v = some other ∧ (other = id → ¬ n.IsLiteral v)) :
    Shares { e with
      graph := e.graph.modify id fun n => { n with staged? := s? }
      eval := eval
      constants := constants } := by
  refine h.weaken fun {v other} hother => ?_
  obtain ⟨hfind, hnot⟩ := hconstants hother
  refine ⟨hfind, fun m hm hlit => ⟨m, ?_, hlit⟩⟩
  have hne : other ≠ id := by
    rintro rfl
    rw [hn, Option.some.injEq] at hm
    exact hnot rfl (hm ▸ hlit)
  rw [node?_modify, if_neg hne, hm]

/-- A constant that is given another value leaves the table at once. -/
theorem write {a : Act} (h : e.Shares) (hw : Write a e e') : e'.Shares := by
  have hkind : ∀ {id : NodeId} {n : Node} {s? : Option Staged} {eval : PendingSet}, e.graph.node? id = some n →
      n.kind ≠ .constant → Shares { e with
        graph := e.graph.modify id fun n => { n with staged? := s? }
        eval := eval } :=
    fun hn hk => h.rewritten hn fun hfind => ⟨hfind, fun _ hlit => hk hlit.kind⟩
  cases hw with
  | input hn hk _ => exact hkind hn fun hc => NodeKind.noConfusion (hk.symm.trans hc)
  | withdraw hn hk => exact hkind hn fun hc => NodeKind.noConfusion (hk.symm.trans hc)
  | provoke hn hk => exact hkind hn fun hc => NodeKind.noConfusion (hk.symm.trans hc)
  | fold hn hk _ =>
    refine h.rewritten hn fun {v other} hother => ?_
    unfold unshared at hother
    split at hother
    · next old hv =>
      obtain ⟨hfind, hold⟩ := find?_unshare.1 hother
      exact ⟨hfind, fun hid hlit => hold ⟨Option.some.inj (hlit.value.symm.trans hv), hid⟩⟩
    · next hv =>
      refine ⟨hother, fun _ hlit => ?_⟩
      rw [hlit.value] at hv
      cases hv

/-- Evaluation leaves literals as they are, and so all that the table names. -/
theorem evaluate (h : e.Shares) (hs : e.schedule.Sound created) (hu : e.graph.update = .empty) :
    e.evaluating.Shares := by
  obtain ⟨visits, last, hready, hrun, heq⟩ := evaluating_eq hs hu
  rw [heq]
  refine h.weaken fun {v id} hid => ⟨hid, fun n hn hlit => ?_⟩
  by_cases hx : ∃ w ∈ visits, w.entry.node = id
  · obtain ⟨w, hw, rfl⟩ := hx
    obtain ⟨m, hm, ho, hl, -⟩ := hrun.visited hready hs.keyed w hw
    rw [show e.graph.node? _ = _ from hn, Option.some.injEq] at hm
    subst hm
    exact ⟨_, hl, ho ▸ hlit.settled _ _⟩
  · refine ⟨n, ?_, hlit⟩
    rw [← hn]
    exact hrun.node?_of_not_visited hready hs.keyed fun w hw he => hx ⟨w, hw, he⟩

/-- Every move keeps the table right if no constant is shared that waits for another value. -/
theorem move {i : Nat} (h : e.Shares) (hs : e.schedule.Sound created)
    (hm : Move (fun a => ∀ n, a = .share n → n.IsSteady) e i e') : e'.Shares := by
  cases hm.change hs with
  | calm hc =>
    refine h.weaken fun {v id} hid => ⟨hc.constants ▸ hid, fun n hn hlit => ?_⟩
    obtain ⟨n', hn', he⟩ := hc.nodes.of_some hn
    exact ⟨n', hn', hlit.of_held he⟩
  | remove _ _ hr hsame => exact h.remove hr hsame
  | write _ hw => exact h.write hw
  | @share id n v hsteady hn hk hv =>
    refine ⟨fun {w other} hother => ?_⟩
    change (e.constants.insert v id).find? w = some other at hother
    rw [Table.find?_insert] at hother
    split at hother
    · next hw =>
      cases hother
      exact ⟨n, hn, hk, hw ▸ hv, hsteady n rfl⟩
    · exact h.entry hother
  | register => exact ⟨h.entry⟩
  | unregister id =>
    unfold removeObserver
    split <;> exact ⟨h.entry⟩
  | evaluate _ hu => exact h.evaluate hs hu

end Shares

end Engine

/-- The engines that a host can bring about without interning a constant that waits for another value. -/
inductive SteadilyReachable : Nat → Engine σ → Prop
  | new (config : EngineConfig) (host : σ) : SteadilyReachable 0 (.new config host)
  | step {created : Nat} {e : Engine σ} (op : Operation σ) : SteadilyReachable created e → op.IsSteady e →
      SteadilyReachable (created + op.created e) (op.apply e)

theorem SteadilyReachable.reachable (h : SteadilyReachable created e) : Reachable created e := by
  induction h with
  | new config host => exact .new config host
  | step op _ _ ih => exact ih.step op

/-- In such a run, the table names literals of its keys only. -/
theorem SteadilyReachable.shares (h : SteadilyReachable created e) : e.Shares := by
  induction h with
  | new config host => exact ⟨fun hid => by simp [Engine.new] at hid⟩
  | @step created e op hr hop ih =>
    have hs := hr.reachable.sound
    have hmoves : Engine.Moves (fun a => ∀ n, a = .share n → n.IsSteady) e _ _ :=
      (op.moves hs).mono fun a ha n he => hop.share (he ▸ ha)
    exact (hmoves.induction (I := fun created e => e.schedule.Sound created ∧ e.Shares) ⟨hs, ih⟩
      fun hI hm => ⟨hI.1.steps hm.steps, hI.2.move hI.1 hm⟩).2

namespace Engine

private theorem Shares.of_shared (h : e.Shares) {v : Value} {id : NodeId} (hs : e.shared? v = some id) :
    ∃ n, e.graph.node? id = some n ∧ n.IsLiteral v :=
  h.entry (Option.filter_eq_some_iff.1 hs).1

/-- What is given out for a value is a constant that holds it and waits for no other. -/
theorem Shares.constant (h : e.Shares) (hs : e.graph.store.Sound) {v : Value} {id : NodeId}
    (hc : e.constant v = .ok (id, e')) : ∃ n, e'.graph.node? id = some n ∧ n.IsLiteral v := by
  unfold Engine.constant at hc
  split at hc
  · next other hother =>
    cases hc
    split at hother
    · exact h.of_shared hother
    · cases hother
  · simp only [bind_eq_ok] at hc
    obtain ⟨⟨id', made⟩, hnode, hc⟩ := hc
    obtain ⟨n, hn, hk, hv, hst⟩ := createConstant hs hnode
    have hlit : ∃ n, made.graph.node? id' = some n ∧ n.IsLiteral v := ⟨n, hn, hk, hv, .inl hst⟩
    split at hc <;> cases hc <;> exact hlit

/-- What is given out for a constant that waits for no other value has the value of that constant. -/
theorem Shares.intern (h : e.Shares) (hs : e.graph.store.Sound) {id r : NodeId}
    (hsteady : ∀ n, e.graph.node? id = some n → n.IsSteady) (hi : e.intern id = .ok (r, e')) :
    ∃ n n', e.graph.node? id = some n ∧ e'.graph.node? r = some n' ∧ n'.kind = .constant ∧
      n'.effective? = n.effective? := by
  obtain ⟨n, hn, hk, ⟨rfl, rfl⟩ | ⟨v, hv, hne, hother, hremove⟩ | ⟨v, -, rfl, -, rfl⟩⟩ := intern_eq_ok hi
  · exact ⟨n, n, hn, hn, hk, rfl⟩
  · obtain ⟨m, hm, hlit⟩ := h.of_shared hother
    obtain ⟨-, removed, g, hr, rfl⟩ := removeNode_eq_ok hremove
    obtain ⟨n₀, hremoved, -⟩ := Graph.removeNode_eq_ok hs hr
    obtain ⟨m', hm', he⟩ := hremoved.held_of_some hm hne
    have hlit' : m'.IsLiteral v := hlit.of_held he
    refine ⟨n, m', hn, hm', hlit'.kind, ?_⟩
    rw [hlit'.steady.effective?_eq, (hsteady n hn).effective?_eq, hlit'.value, hv]
  · exact ⟨n, n, hn, hn, hk, rfl⟩

end Engine

/-- As long as no constant is interned that waits for another value, asking for a value gives a constant that holds it
and waits for no other, and interning a constant gives one of the same value. -/
theorem SteadilyReachable.shared (h : SteadilyReachable created e) :
    (∀ v id e', e.constant v = .ok (id, e') → ∃ n, e'.graph.node? id = some n ∧ n.kind = .constant ∧
      n.value? = some v ∧ (n.staged? = none ∨ n.staged? = some (.value v))) ∧
    ∀ id r e', (Operation.intern id).IsSteady e → e.intern id = .ok (r, e') →
      ∃ n n', e.graph.node? id = some n ∧ e'.graph.node? r = some n' ∧ n'.kind = .constant ∧
        n'.effective? = n.effective? := by
  have hstore := h.reachable.sound.graph.store
  refine ⟨fun v id e' hc => ?_, fun id r e' hsteady hi => h.shares.intern hstore hsteady hi⟩
  obtain ⟨n, hn, hlit⟩ := h.shares.constant hstore hc
  exact ⟨n, hn, hlit.kind, hlit.value, hlit.staged⟩

/-- Two constants of one value, of which the second has been folded into another value and back. -/
def equalConstants : Engine Unit :=
  (Engine.new .default ()).run [.constant (.bool true),
    .createNode (.constant (.bool true)) [], .setConstant ⟨2, 0⟩ (.bool false),
    .setConstant ⟨2, 0⟩ (.bool true)]

/-- Interning the second gives the first, which holds the value that the second was to hold. -/
theorem equalConstants_intern : ∃ e', equalConstants.intern ⟨2, 0⟩ = .ok (⟨1, 0⟩, e') ∧
    ∃ n n', equalConstants.graph.node? ⟨2, 0⟩ = some n ∧ e'.graph.node? ⟨1, 0⟩ = some n' ∧ n'.kind = .constant ∧
      n'.effective? = n.effective? := by
  have hnew : SteadilyReachable 0 (Engine.new .default ()) := .new .default ()
  have hmade := (hnew.step (.constant (.bool true)) trivial).step
    (.createNode (.constant (.bool true)) []) trivial
  have h : SteadilyReachable _ equalConstants :=
    (hmade.step (.setConstant ⟨2, 0⟩ (.bool false)) trivial).step (.setConstant ⟨2, 0⟩ (.bool true)) trivial
  refine ⟨_, rfl, h.shared.2 ⟨2, 0⟩ ⟨1, 0⟩ _ (fun n hn => ?_) rfl⟩
  cases hn
  exact .inr rfl

/-- A constant that is interned while it waits for another value. -/
def refolded : Engine Unit :=
  (Engine.new .default ()).run [.constant (.bool true), .setConstant ⟨1, 0⟩ (.bool false), .intern ⟨1, 0⟩]

/-- The constant is given out for a value that it is about to lose, and an equal one that waits for another value
loses that when it is interned. -/
theorem refolded_constant :
    (∃ e' n, refolded.constant (.bool true) = .ok (⟨1, 0⟩, e') ∧ e'.graph.node? ⟨1, 0⟩ = some n ∧
      n.staged? = some (.value (.bool false)) ∧
      (e'.runPass.2.2.graph.node? ⟨1, 0⟩).bind Node.value? = some (.bool false)) ∧
    ∃ e n e' n', e = ((Engine.new .default ()).run [.constant (.bool true),
        .createNode (.constant (.bool true)) [], .setConstant ⟨2, 0⟩ (.bool false)] : Engine Unit) ∧
      e.graph.node? ⟨2, 0⟩ = some n ∧ n.effective? = some (.bool false) ∧
      e.intern ⟨2, 0⟩ = .ok (⟨1, 0⟩, e') ∧ e'.graph.node? ⟨1, 0⟩ = some n' ∧ n'.effective? = some (.bool true) :=
  ⟨⟨_, _, rfl, rfl, rfl, rfl⟩, _, _, _, _, rfl, rfl, rfl, rfl, rfl, rfl⟩

end Dataflow
