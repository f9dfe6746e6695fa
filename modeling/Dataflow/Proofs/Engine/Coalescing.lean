import Dataflow.Proofs.Engine.Bookkeeping
import Dataflow.Proofs.PendingSet

/-!
# Writes from outside coalesce

Between two passes only the last value written to an input counts, and a trigger input is provoked once however often
it is asked for.  With nothing pending at first, an engine after a list of edits is told by these (`Written`): what is
staged for a node (`Node.stagedBy`) and whether it is pending depend on the accepted edits of that node only, and
everything else is as it was.
-/

namespace Dataflow

open Dataflow.Graph

namespace Edit

/-- The node that an edit is about. -/
def node : Edit → NodeId
  | setValue node _ | provoke node => node

/-- The value that an edit writes to a node. -/
def write? (id : NodeId) : Edit → Option Value
  | setValue node v => if node = id then some v else none
  | provoke _ => none

/-- The operation that makes an edit. -/
def toOperation {σ : Type} : Edit → Operation σ
  | setValue node v => .setInput node v
  | provoke node => .provoke node

/-- The operation for an edit does what the edit does, and nothing if it is refused. -/
theorem apply_toOperation {σ : Type} (edit : Edit) (e : Engine σ) :
    edit.toOperation.apply e = e.accept ((e.applyEdit edit).map Prod.snd) := by
  cases edit <;> rfl

end Edit

/-- The value that the last of the edits to write to a node writes to it. -/
def lastWrite? (edits : List Edit) (id : NodeId) : Option Value := edits.reverse.findSome? (·.write? id)

/-- What is staged for a node, if nothing was at first, after the given edits have been accepted. -/
def Node.stagedBy (edits : List Edit) (id : NodeId) (n : Node) : Option Staged :=
  match n.kind with
  | .input _ => ((lastWrite? edits id).filter fun v => n.value? ≠ some v).map .value
  | .triggerInput => if .provoke id ∈ edits then some .provoke else none
  | _ => none

variable {σ : Type} {created : Nat} {e f f' : Engine σ} {edits : List Edit} {edit : Edit} {id : NodeId}

/-- The edits that are accepted when all are made one after the other. -/
def Engine.accepted (e : Engine σ) : List Edit → List Edit
  | [] => []
  | edit :: rest =>
    match e.applyEdit edit with
    | .ok (_, next) => edit :: next.accepted rest
    | .error _ => e.accepted rest

theorem lastWrite?_append : lastWrite? (edits ++ [edit]) id = (edit.write? id).or (lastWrite? edits id) := by
  rw [lastWrite?, List.reverse_append, List.findSome?_append]
  simp [lastWrite?]

/-- Edits of other nodes are no matter. -/
theorem Node.stagedBy_append_of_ne (n : Node) (h : id ≠ edit.node) :
    n.stagedBy (edits ++ [edit]) id = n.stagedBy edits id := by
  have hwrite : edit.write? id = none := by
    cases edit with
    | setValue node v => exact if_neg (Ne.symm h)
    | provoke node => rfl
  have hprovoke : Edit.provoke id ≠ edit := by
    rintro rfl
    exact h rfl
  unfold stagedBy
  rw [lastWrite?_append, hwrite, Option.none_or]
  simp [hprovoke]

/-- What is left of an engine with nothing pending after the given edits have been accepted. -/
structure Written (e : Engine σ) (edits : List Edit) (f : Engine σ) : Prop where
  rest : f = { e with graph := f.graph, eval := f.eval }
  update : f.graph.update = e.graph.update
  slots : f.graph.store.map (fun n => { n with staged? := none }) =
    e.graph.store.map fun n => { n with staged? := none }
  node? : ∀ x, f.graph.node? x = (e.graph.node? x).map fun n => { n with staged? := n.stagedBy edits x }
  eval : ∀ x, f.eval.depth? x =
    (e.graph.node? x).bind fun n => (n.stagedBy edits x).map fun _ => n.depth

namespace Written

/-- The accepted edits determine the engine. -/
theorem unique {edits' : List Edit} (h : Written e edits f) (h' : Written e edits' f')
    (hsame : ∀ x n, e.graph.node? x = some n → n.stagedBy edits x = n.stagedBy edits' x) : f = f' := by
  have hnode : ∀ x, f.graph.node? x = f'.graph.node? x := by
    intro x
    rw [h.node?, h'.node?]
    cases hn : e.graph.node? x with
    | none => rfl
    | some n => rw [Option.map_some, Option.map_some, hsame x n hn]
  have hstore : f.graph.store = f'.graph.store := Store.ext_of_map (h.slots.trans h'.slots.symm) hnode
  have hgraph : f.graph = f'.graph := by
    cases hg : f.graph
    cases hg' : f'.graph
    have hu := h.update.trans h'.update.symm
    rw [hg, hg'] at hstore hu
    exact congrArg₂ Graph.mk hstore hu
  have heval : f.eval = f'.eval := PendingSet.ext_depth? fun x => by
    rw [h.eval, h'.eval]
    cases hn : e.graph.node? x with
    | none => rfl
    | some n => rw [Option.bind_some, Option.bind_some, hsame x n hn]
  rw [h.rest, h'.rest, hgraph, heval]

/-- With nothing pending, nothing has been written. -/
theorem nil (h : e.Tidy) (he : e.eval = .empty) : Written e [] e := by
  have hby : ∀ (n : Node) x, n.stagedBy [] x = none := by
    intro n x
    unfold Node.stagedBy lastWrite?
    split <;> rfl
  refine ⟨rfl, rfl, rfl, fun x => ?_, fun x => ?_⟩
  · cases hn : e.graph.node? x with
    | none => rfl
    | some n =>
      have hnone : n.staged? = none := by
        cases hs : n.staged? with
        | none => rfl
        | some s =>
          have hx := (h.staged hn hs).2
          rw [he] at hx
          cases hx
      rw [Option.map_some, hby, ← hnone]
  · rw [he, PendingSet.depth?_empty]
    cases e.graph.node? x with
    | none => rfl
    | some n => rw [Option.bind_some, hby, Option.map_none]

/-- One more edit of a node: what is staged for it changes, and whether it is pending. -/
private theorem snoc {n : Node} (edit : Edit) (eval : PendingSet) (h : Written e edits f)
    (hn : e.graph.node? edit.node = some n)
    (heval : ∀ x, eval.depth? x = if x = edit.node
      then (n.stagedBy (edits ++ [edit]) edit.node).map (fun _ => n.depth) else f.eval.depth? x) :
    Written e (edits ++ [edit]) { f with
      graph := f.graph.modify edit.node fun m => { m with staged? := n.stagedBy (edits ++ [edit]) edit.node }
      eval := eval } := by
  refine ⟨?_, h.update, ?_, fun x => ?_, fun x => ?_⟩
  · rw [h.rest]
  · refine Eq.trans (Store.map_modify (fun _ => ?_) _ _) h.slots
    rfl
  · rw [node?_modify, h.node?]
    split
    · next hx =>
      rw [hx, hn]
      rfl
    · next hx =>
      cases e.graph.node? x with
      | none => rfl
      | some m => rw [Option.map_some, Option.map_some, m.stagedBy_append_of_ne hx]
  · rw [heval]
    split
    · next hx => rw [hx, hn, Option.bind_some]
    · next hx =>
      rw [h.eval]
      cases e.graph.node? x with
      | none => rfl
      | some m => rw [Option.bind_some, Option.bind_some, m.stagedBy_append_of_ne hx]

/-- Edits that come to the same. -/
private theorem congr {edits' : List Edit} (h : Written e edits f)
    (hsame : ∀ x n, e.graph.node? x = some n → n.stagedBy edits' x = n.stagedBy edits x) : Written e edits' f := by
  refine ⟨h.rest, h.update, h.slots, fun x => ?_, fun x => ?_⟩
  · rw [h.node?]
    cases hn : e.graph.node? x with
    | none => rfl
    | some n => rw [Option.map_some, Option.map_some, hsame x n hn]
  · rw [h.eval]
    cases hn : e.graph.node? x with
    | none => rfl
    | some n => rw [Option.bind_some, Option.bind_some, hsame x n hn]

/-- One more edit that leaves what is staged for its node. -/
private theorem still {n : Node} (edit : Edit) (h : Written e edits f) (hn : e.graph.node? edit.node = some n)
    (hsame : n.stagedBy (edits ++ [edit]) edit.node = n.stagedBy edits edit.node) : Written e (edits ++ [edit]) f := by
  refine h.congr fun x m hm => ?_
  by_cases hx : x = edit.node
  · rw [hx, hn, Option.some.injEq] at hm
    rw [hx, ← hm, hsame]
  · exact m.stagedBy_append_of_ne hx

/-- The node that an edit is about, as it was at first and as it is now. -/
private theorem node_cases {n : Node} (h : Written e edits f) (hn : f.graph.node? id = some n) :
    ∃ n₀, e.graph.node? id = some n₀ ∧ n = { n₀ with staged? := n₀.stagedBy edits id } := by
  rw [h.node?, Option.map_eq_some_iff] at hn
  obtain ⟨n₀, hn₀, rfl⟩ := hn
  exact ⟨n₀, hn₀, rfl⟩

/-- The depth under which a staged change makes a node pending. -/
private theorem depth?_insert {n : Node} (h : Written e edits f) (hn : e.graph.node? id = some n) (x : NodeId) :
    (f.eval.insert id n.depth).depth? x = if x = id then some n.depth else f.eval.depth? x := by
  rw [PendingSet.depth?_insert, h.eval id, hn, Option.bind_some]
  cases n.stagedBy edits id <;> rfl

theorem setValue {v : Value} {changed : Bool} (h : Written e edits f) (hs : f.setInput id v = .ok (changed, f')) :
    Written e (edits ++ [.setValue id v]) f' := by
  obtain ⟨m, hm, hk, hcases⟩ := Engine.setInput_eq_ok hs
  obtain ⟨n, hn, rfl⟩ := h.node_cases hm
  -- What is staged for the input after this write.
  have hby : n.stagedBy (edits ++ [.setValue id v]) id = if n.value? = some v then none else some (.value v) := by
    unfold Node.stagedBy
    rw [show n.kind = _ from hk, lastWrite?_append, Edit.write?, if_pos rfl, Option.some_or, Option.filter_some]
    by_cases hv : n.value? = some v <;> simp [hv]
  rcases hcases with ⟨rfl, hst⟩ | ⟨hv, rfl⟩ | ⟨hv, rfl⟩
  · exact h.still (.setValue id v) hn (hby.trans hst.symm)
  · rw [if_pos hv] at hby
    have hsnoc := h.snoc (.setValue id v) (f.eval.remove id) hn fun x => by
      rw [PendingSet.depth?_remove, Edit.node, hby, Option.map_none]
    rwa [Edit.node, hby] at hsnoc
  · rw [if_neg hv] at hby
    have hsnoc := h.snoc (.setValue id v) (f.eval.insert id n.depth) hn fun x => by
      rw [h.depth?_insert hn, Edit.node, hby, Option.map_some]
    rwa [Edit.node, hby] at hsnoc

theorem provoke {changed : Bool} (h : Written e edits f) (hp : f.provoke id = .ok (changed, f')) :
    Written e (edits ++ [.provoke id]) f' := by
  obtain ⟨m, hm, hk, hcases⟩ := Engine.provoke_eq_ok hp
  obtain ⟨n, hn, rfl⟩ := h.node_cases hm
  have hby : n.stagedBy (edits ++ [.provoke id]) id = some .provoke := by
    unfold Node.stagedBy
    rw [show n.kind = _ from hk]
    simp
  rcases hcases with ⟨rfl, hst⟩ | ⟨-, rfl⟩
  · refine h.still (.provoke id) hn (hby.trans ?_)
    change n.stagedBy edits id ≠ none at hst
    unfold Node.stagedBy at hst ⊢
    rw [show n.kind = _ from hk] at hst ⊢
    dsimp only at hst ⊢
    split at hst
    · next hmem => exact (if_pos hmem).symm
    · exact absurd rfl hst
  · have hsnoc := h.snoc (.provoke id) (f.eval.insert id n.depth) hn fun x => by
      rw [h.depth?_insert hn, Edit.node, hby, Option.map_some]
    rwa [Edit.node, hby] at hsnoc

/-- What edits make of an engine, by those that are accepted. -/
theorem run (h : Written e edits f) (more : List Edit) :
    Written e (edits ++ f.accepted more) (f.run (more.map Edit.toOperation)) := by
  induction more generalizing edits f with
  | nil => rwa [Engine.accepted, List.append_nil]
  | cons edit more ih =>
    rw [List.map_cons, Engine.run, edit.apply_toOperation, Engine.accepted]
    cases hedit : f.applyEdit edit with
    | error err => exact ih h
    | ok r =>
      obtain ⟨changed, next⟩ := r
      have hnext : Written e (edits ++ [edit]) next := by
        cases edit with
        | setValue node v => exact h.setValue hedit
        | provoke node => exact h.provoke hedit
      have hmore := ih hnext
      rwa [List.append_assoc] at hmore

end Written

/-- With nothing pending, edits that write the same last values to inputs and provoke the same trigger inputs lead to
the same engine, and so to the same pass. -/
theorem Reachable.run_edits_eq (h : Reachable created e) (he : e.eval = .empty) {edits edits' : List Edit}
    (hvalues : ∀ id n t, e.graph.node? id = some n → n.kind = .input t →
      (lastWrite? (e.accepted edits) id).or n.value? = (lastWrite? (e.accepted edits') id).or n.value?)
    (hprovoked : ∀ id, .provoke id ∈ e.accepted edits ↔ .provoke id ∈ e.accepted edits') :
    e.run (edits.map Edit.toOperation) = e.run (edits'.map Edit.toOperation) ∧
      (e.run (edits.map Edit.toOperation)).runPass = (e.run (edits'.map Edit.toOperation)).runPass := by
  have hnil := Written.nil h.tidy he
  have heq : e.run (edits.map Edit.toOperation) = e.run (edits'.map Edit.toOperation) := by
    refine (hnil.run edits).unique (hnil.run edits') fun x n hn => ?_
    rw [List.nil_append, List.nil_append]
    unfold Node.stagedBy
    split
    · next t hk =>
      have hlast := hvalues x n t hn hk
      -- Writing the value that is there already is the same as not writing.
      cases hw : lastWrite? (e.accepted edits) x <;> cases hw' : lastWrite? (e.accepted edits') x <;>
        simp_all [Option.filter]
    · simp only [hprovoked]
    · rfl
  exact ⟨heq, by rw [heq]⟩

/-- An input and a trigger input, for which nothing is pending. -/
def idleInputs : Engine Unit :=
  (Engine.new .default ()).run [.createNode (.inputWith (.bool true)) [],
    .createNode .triggerInput []]

/-- Writes on the way, back and forth, twice or to a node that takes none, are as good as the last ones alone. -/
theorem idleInputs_run_edits_eq :
    idleInputs.run ([.setValue ⟨1, 0⟩ (.bool false), .provoke ⟨2, 0⟩, .setValue ⟨1, 0⟩ (.bool true), .provoke ⟨2, 0⟩,
      .setValue ⟨2, 0⟩ (.bool true), .setValue ⟨1, 0⟩ (.bool false)].map Edit.toOperation) =
    idleInputs.run ([.provoke ⟨2, 0⟩, .setValue ⟨1, 0⟩ (.bool false)].map Edit.toOperation) := by
  have h : Reachable _ idleInputs := (Reachable.new .default ()).run _
  -- Only the write to the trigger input is refused.
  have haccepted : idleInputs.accepted [.setValue ⟨1, 0⟩ (.bool false), .provoke ⟨2, 0⟩, .setValue ⟨1, 0⟩ (.bool true),
      .provoke ⟨2, 0⟩, .setValue ⟨2, 0⟩ (.bool true), .setValue ⟨1, 0⟩ (.bool false)] =
    [.setValue ⟨1, 0⟩ (.bool false), .provoke ⟨2, 0⟩, .setValue ⟨1, 0⟩ (.bool true), .provoke ⟨2, 0⟩,
      .setValue ⟨1, 0⟩ (.bool false)] := rfl
  have haccepted' : idleInputs.accepted [.provoke ⟨2, 0⟩, .setValue ⟨1, 0⟩ (.bool false)] =
    [.provoke ⟨2, 0⟩, .setValue ⟨1, 0⟩ (.bool false)] := rfl
  refine (h.run_edits_eq rfl (fun id n t _ _ => ?_) fun id => ?_).1
  · rw [haccepted, haccepted']
    by_cases hid : (⟨1, 0⟩ : NodeId) = id <;> simp [lastWrite?, Edit.write?, hid]
  · rw [haccepted, haccepted']
    simp

end Dataflow
