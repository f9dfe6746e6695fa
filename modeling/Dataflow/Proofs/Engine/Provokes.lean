import Dataflow.Proofs.Engine.Firing
import Dataflow.Proofs.Engine.Refusal

/-!
# Provokes and the triggers that they fire

A provoke that is accepted stays staged for its trigger input until an evaluation takes it up, or the node is removed
(`Engine.awaits_step`).  So one is staged exactly if one has been accepted since the last evaluation
(`awaits_iff_provokedSince`), which says when trigger inputs fire in a run (`triggerCycle`).
-/

namespace Dataflow

open Dataflow.Graph

variable {σ : Type} {created : Nat} {e e' : Engine σ} {x : NodeId}

namespace Engine

/-! ### Staged provokes -/

/-- A provoke is staged for the trigger input. -/
def Awaits (e : Engine σ) (x : NodeId) : Prop :=
  ∃ n, e.graph.node? x = some n ∧ n.kind = .triggerInput ∧ n.staged? = some .provoke

theorem Awaits.live (h : e.Awaits x) : ∃ n, e.graph.node? x = some n := by
  obtain ⟨n, hn, -⟩ := h
  exact ⟨n, hn⟩

private theorem awaits_of_held {n m : Node} (he : n.held = m.held)
    (h : m.kind = .triggerInput ∧ m.staged? = some .provoke) : n.kind = .triggerInput ∧ n.staged? = some .provoke := by
  obtain ⟨hk, hs⟩ := h
  have hsuits : Staged.provoke.Suits n.kind := Staged.suits_emptied (Node.emptied_of_held he).symm hk
  exact ⟨hsuits, (Node.staged?_of_held he).trans hs⟩

/-- What is staged for some node that is no trigger input is no provoke. -/
private theorem awaits_restage {id : NodeId} {m : Node} {s? : Option Staged} (hm : e.graph.node? id = some m)
    (hk : m.kind ≠ .triggerInput)
    (hg : e'.graph = e.graph.modify id fun n => { n with staged? := s? }) : e'.Awaits x ↔ e.Awaits x := by
  unfold Awaits
  rw [hg, node?_modify]
  split
  · next hx =>
    subst hx
    simp [hm, hk]
  · rfl

/-- A provoke staged for a trigger input waits for it, and staged ones wait on. -/
private theorem awaits_staging {id : NodeId} {m : Node} (hm : e.graph.node? id = some m) (hk : m.kind = .triggerInput) :
    (e.staging id m .provoke).Awaits x ↔ id = x ∨ e.Awaits x := by
  unfold Awaits
  rw [staging, node?_modify]
  split
  · next hx =>
    subst hx
    simp [hm, hk]
  · next hx => simp [Ne.symm hx]

/-- Only an evaluation takes a staged provoke up, and it goes with its node only. -/
theorem awaits_move {allowed : Act → Prop} {i : Nat} (hs : e.schedule.Sound created) (hm : Move allowed e i e')
    (heval : ¬ allowed .evaluate) (h : e.Awaits x) : e'.Awaits x ∨ allowed .remove ∧ e'.graph.node? x = none := by
  have hheld := h
  obtain ⟨n, hn, hk, hst⟩ := hheld
  cases hm.change hs with
  | calm hc =>
    obtain ⟨n', hn', he⟩ := hc.nodes.of_some hn
    exact .inl ⟨n', hn', awaits_of_held he ⟨hk, hst⟩⟩
  | @remove id _ _ g ha _ hr _ =>
    by_cases hx : x = id
    · refine .inr ⟨ha, ?_⟩
      rw [hx]
      exact hr.gone
    · obtain ⟨n', hn', he⟩ := hr.held_of_some hn hx
      exact .inl ⟨n', hn', awaits_of_held he ⟨hk, hst⟩⟩
  | write _ hw =>
    cases hw with
    | input hid hkind _ => exact .inl ((awaits_restage hid (by simp [hkind]) rfl).2 h)
    | withdraw hid hkind => exact .inl ((awaits_restage hid (by simp [hkind]) rfl).2 h)
    | fold hid hkind _ => exact .inl ((awaits_restage hid (by simp [hkind]) rfl).2 h)
    | provoke hid hkind => exact .inl ((awaits_staging hid hkind).2 (.inr h))
  | share => exact .inl h
  | register => exact .inl h
  | unregister id =>
    left
    unfold removeObserver
    split <;> exact h
  | evaluate ha => exact absurd ha heval

/-- A provoke that is staged after a move was staged before, or by the move. -/
theorem awaits_of_move {allowed : Act → Prop} {i : Nat} (hs : e.schedule.Sound created) (hm : Move allowed e i e')
    (h : e'.Awaits x) : e.Awaits x ∨ allowed (.stage x .provoke) := by
  have hheld := h
  obtain ⟨n, hn, hk, hst⟩ := hheld
  cases hm.change hs with
  | calm hc =>
    rcases hc.nodes.some_cases hn with ⟨m, hm, he⟩ | hnone
    · exact .inl ⟨m, hm, awaits_of_held he.symm ⟨hk, hst⟩⟩
    · rw [hst] at hnone
      cases hnone
  | remove _ _ hr _ =>
    obtain ⟨-, m, hm, he⟩ := hr.held_some_cases hn
    exact .inl ⟨m, hm, awaits_of_held he.symm ⟨hk, hst⟩⟩
  | write ha hw =>
    cases hw with
    | input hid hkind _ => exact .inl ((awaits_restage hid (by simp [hkind]) rfl).1 h)
    | withdraw hid hkind => exact .inl ((awaits_restage hid (by simp [hkind]) rfl).1 h)
    | fold hid hkind _ => exact .inl ((awaits_restage hid (by simp [hkind]) rfl).1 h)
    | provoke hid hkind =>
      rcases (awaits_staging hid hkind).1 h with rfl | h
      · exact .inr ha
      · exact .inl h
  | share => exact .inl h
  | register => exact .inl h
  | unregister id =>
    unfold removeObserver at h
    split at h <;> exact .inl h
  | evaluate _ hu =>
    obtain ⟨visits, last, hready, hrun, heq⟩ := evaluating_eq hs hu
    rw [heq] at hn
    by_cases hx : ∃ v ∈ visits, v.entry.node = x
    · obtain ⟨v, hv, rfl⟩ := hx
      obtain ⟨m, -, -, hm, -⟩ := hrun.visited hready hs.keyed v hv
      rw [show last.node? _ = some n from hn, Option.some.injEq] at hm
      rw [hm, Node.staged?_settled] at hst
      cases hst
    · have hsame := hrun.node?_of_not_visited hready hs.keyed fun v hv he => hx ⟨v, hv, he⟩
      rw [show last.node? x = some n from hn] at hsame
      exact .inl ⟨n, hsame.symm, hk, hst⟩

/-- Without evaluation and removal, a staged provoke stays staged. -/
theorem awaits_moves {allowed : Act → Prop} {i : Nat} (hs : e.schedule.Sound created) (hm : Moves allowed e i e')
    (heval : ¬ allowed .evaluate) (hremove : ¬ allowed .remove) (h : e.Awaits x) : e'.Awaits x := by
  have hmove : ∀ {created i : Nat} {e e' : Engine σ}, e.schedule.Sound created ∧ e.Awaits x → Move allowed e i e' →
      e'.schedule.Sound (created + i) ∧ e'.Awaits x := by
    intro created i e e' hI hm
    refine ⟨hI.1.steps hm.steps, ?_⟩
    rcases awaits_move hI.1 hm heval hI.2 with h | ⟨ha, -⟩
    · exact h
    · exact absurd ha hremove
  exact (hm.induction (I := fun created e => e.schedule.Sound created ∧ e.Awaits x) ⟨hs, h⟩ hmove).2

/-- Without provokes of the node, none gets staged for it. -/
theorem awaits_of_moves {allowed : Act → Prop} {i : Nat} (hs : e.schedule.Sound created) (hm : Moves allowed e i e')
    (hstage : ¬ allowed (.stage x .provoke)) (h : e'.Awaits x) : e.Awaits x := by
  by_contra hnot
  have hmove : ∀ {created i : Nat} {e e' : Engine σ}, e.schedule.Sound created ∧ ¬ e.Awaits x →
      Move allowed e i e' → e'.schedule.Sound (created + i) ∧ ¬ e'.Awaits x := by
    intro created i e e' hI hm
    refine ⟨hI.1.steps hm.steps, fun h => ?_⟩
    rcases awaits_of_move hI.1 hm h with h | ha
    · exact hI.2 h
    · exact hstage ha
  exact (hm.induction (I := fun created e => e.schedule.Sound created ∧ ¬ e.Awaits x) ⟨hs, hnot⟩ hmove).2 h

private theorem awaits_setInput {id : NodeId} {v : Value} {changed : Bool} (h : e.setInput id v = .ok (changed, e')) :
    e'.Awaits x ↔ e.Awaits x := by
  obtain ⟨n, hn, hk, hcases⟩ := setInput_eq_ok h
  have hinput : n.kind ≠ .triggerInput := by simp [hk]
  rcases hcases with ⟨rfl, -⟩ | ⟨-, rfl⟩ | ⟨-, rfl⟩
  · rfl
  · exact awaits_restage hn hinput rfl
  · exact awaits_restage hn hinput rfl

/-- A provoke that is accepted is staged, or has been staged before. -/
theorem awaits_provoke (ht : e.Tidy) {id : NodeId} {changed : Bool} (h : e.provoke id = .ok (changed, e')) :
    e'.Awaits x ↔ id = x ∨ e.Awaits x := by
  obtain ⟨n, hn, hk, ⟨rfl, hne⟩ | ⟨-, rfl⟩⟩ := provoke_eq_ok h
  · -- What has been staged before is a provoke, for values do not suit trigger inputs.
    obtain ⟨s, hs⟩ := Option.ne_none_iff_exists'.1 hne
    have hsuits := (ht.staged hn hs).1
    cases s with
    | value v => rcases hsuits with ⟨t, hk'⟩ | hk' <;> simp [hk] at hk'
    | provoke =>
      have hawaits : e'.Awaits id := ⟨n, hn, hk, hs⟩
      constructor
      · exact .inr
      · rintro (rfl | h)
        · exact hawaits
        · exact h
  · exact awaits_staging hn hk

/-- One edit leaves a provoke staged if it is one that is accepted, or if one has been staged before. -/
theorem awaits_edit (ht : e.Tidy) (edit : Edit) :
    (edit.toOperation.apply e).Awaits x ↔ (edit = .provoke x ∧ ∃ r, e.applyEdit edit = .ok r) ∨ e.Awaits x := by
  rw [edit.apply_toOperation]
  cases hr : e.applyEdit edit with
  | error err => simp [accept, Except.map]
  | ok r =>
    obtain ⟨changed, next⟩ := r
    show next.Awaits x ↔ _
    cases edit with
    | setValue id v => simp [awaits_setInput hr]
    | provoke id => simp [awaits_provoke ht hr]

/-- Edits leave a provoke staged if one of them that is accepted says so, or if one has been staged before. -/
theorem awaits_edits (hs : e.schedule.Sound created) (ht : e.Tidy) (edits : List Edit) :
    (e.run (edits.map Edit.toOperation)).Awaits x ↔ .provoke x ∈ e.accepted edits ∨ e.Awaits x := by
  induction edits generalizing created e with
  | nil => simp [accepted, run]
  | cons edit edits ih =>
    have hmoves := (edit.toOperation : Operation σ).moves hs
    rw [List.map_cons, run, ih (hs.steps hmoves.steps) (ht.moves hs hmoves), awaits_edit ht, accepted,
      edit.apply_toOperation]
    cases e.applyEdit edit with
    | error err => simp [accept, Except.map]
    | ok r =>
      simp only [accept, Except.map, List.mem_cons, Except.ok.injEq, exists_eq', and_true]
      rw [eq_comm (a := edit), or_left_comm, or_assoc]

/-! ### Provokes since the last evaluation -/

/-- At the end of the pass observers ask for a provoke of the node that is accepted. -/
def EndProvokes (e : Engine σ) (x : NodeId) : Prop := .provoke x ∈ e.atRest.accepted e.asked

end Engine

open Engine

/-- The operation evaluates what is pending. -/
def Operation.Evaluates : Operation σ → Engine σ → Prop
  | drainEval, _ => True
  | runPass, e => e.groupLevel = 0
  | closeGroup, e => e.groupLevel - 1 = 0
  | _, _ => False

/-- A provoke of the node is accepted in the operation, be it from outside or from an observer. -/
def Operation.Provokes (x : NodeId) : Operation σ → Engine σ → Prop
  | provoke id, e => id = x ∧ ∃ r, e.provoke id = .ok r
  | finalize, e => e.EndProvokes x
  | runPass, e => e.groupLevel = 0 ∧ e.drainEval.2.2.EndProvokes x
  | closeGroup, e => e.groupLevel - 1 = 0 ∧ { e with groupLevel := e.groupLevel - 1 }.drainEval.2.2.EndProvokes x
  | _, _ => False

namespace Engine

/-- After the end of a pass, a provoke is staged for a node exactly if observers have asked for it or it was staged
before. -/
theorem awaits_finalize (hs : e.schedule.Sound created) (ht : e.Tidy) :
    e.finalize.2.2.Awaits x ↔ e.EndProvokes x ∨ e.Awaits x := by
  have hmoves : Moves (fun a => a = .work ∨ a = .adjust) e 0 e.atRest := atRest_moves e (.inl rfl) (.inr rfl)
  have hrest : e.atRest.Awaits x ↔ e.Awaits x :=
    ⟨awaits_of_moves hs hmoves (by simp), awaits_moves hs hmoves (by simp) (by simp)⟩
  rw [(finalize_eq e).2, awaits_edits (hs.steps hmoves.steps) (ht.moves hs hmoves), hrest]
  rfl

/-- Nothing is staged right after an evaluation. -/
theorem not_awaits_drainEval (hs : e.schedule.Sound created) (ht : e.Tidy) : ¬ e.drainEval.2.2.Awaits x := by
  rintro ⟨n, hn, -, hst⟩
  have hmoves : Moves (fun _ => True) e 0 e.drainEval.2.2 := drainEval_moves hs trivial trivial
  obtain ⟨-, -, -, -, -, heval, -⟩ := drainEval_eq hs
  have hpending := ((ht.moves hs hmoves).staged hn hst).2
  rw [heval] at hpending
  cases hpending

/-- After a pass, those provokes are staged that observers have asked for; a pass that is left to a group does nothing.
-/
theorem awaits_runPass (hs : e.schedule.Sound created) (ht : e.Tidy) :
    e.runPass.2.2.Awaits x ↔ (e.groupLevel = 0 ∧ e.drainEval.2.2.EndProvokes x) ∨ e.Awaits x ∧ e.groupLevel ≠ 0 := by
  by_cases hlevel : e.groupLevel = 0
  · have hmoves : Moves (fun _ => True) e 0 e.drainEval.2.2 := drainEval_moves hs trivial trivial
    have hs' : e.drainEval.2.2.schedule.Sound created := hs.steps hmoves.steps
    rw [(runPass_eq hlevel).1, awaits_finalize hs' (ht.moves hs hmoves)]
    simp [hlevel, not_awaits_drainEval hs ht]
  · have hstay : e.runPass.2.2 = e := by
      unfold runPass
      rw [if_pos (by omega)]
    rw [hstay]
    simp [hlevel]

/-- A removal takes a staged provoke away only with its node. -/
private theorem awaits_removeNode (hs : e.schedule.Sound created) {id : NodeId} (hr : e.removeNode id = .ok e')
    (h : e.Awaits x) (hl : ∃ n, e'.graph.node? x = some n) : e'.Awaits x := by
  have hmove : Move (· = .remove) e 0 e' := removeNode_move rfl hr
  rcases awaits_move hs hmove (by simp) h with h | ⟨-, hgone⟩
  · exact h
  · obtain ⟨n, hn⟩ := hl
    rw [hgone] at hn
    cases hn

/-- An operation that does not evaluate leaves a provoke staged for a node that stays. -/
private theorem awaits_kept (hs : e.schedule.Sound created) (ht : e.Tidy) (op : Operation σ)
    (heval : ¬ op.Does e .evaluate) (h : e.Awaits x) (hl : ∃ n, (op.apply e).graph.node? x = some n) :
    (op.apply e).Awaits x := by
  rcases apply_cases op hs ht with ⟨i, hmoves⟩ | ⟨id, hremove⟩ | huntouched
  · exact awaits_moves hs hmoves (fun ha => heval ha.1) (fun ha => ha.2 rfl) h
  · exact awaits_removeNode hs hremove h hl
  · obtain ⟨n, hn, hk, hst⟩ := h
    exact ⟨n, (huntouched.graph.nodes x).trans hn, hk, hst⟩

/-- An operation that neither provokes the node nor evaluates keeps a staged provoke as long as the node stays. -/
private theorem awaits_plain (hs : e.schedule.Sound created) (ht : e.Tidy) (op : Operation σ)
    (hstage : ¬ op.Does e (.stage x .provoke)) (heval : ¬ op.Does e .evaluate) :
    (op.apply e).Awaits x ↔ e.Awaits x ∧ ∃ n, (op.apply e).graph.node? x = some n := by
  constructor
  · intro h
    exact ⟨awaits_of_moves hs (op.moves hs) hstage h, h.live⟩
  · rintro ⟨h, hl⟩
    exact awaits_kept hs ht op heval h hl

/-- After an operation a provoke is staged if the operation makes one, or if one has been staged before and the
operation neither evaluates nor removes the node. -/
theorem awaits_step (hs : e.schedule.Sound created) (ht : e.Tidy) (op : Operation σ) :
    (op.apply e).Awaits x ↔
      op.Provokes x e ∨ e.Awaits x ∧ ¬ op.Evaluates e ∧ ∃ n, (op.apply e).graph.node? x = some n := by
  -- Where a provoke is staged the node is there.
  have hlive : ∀ {p q : Prop}, ((op.apply e).Awaits x ↔ p ∨ e.Awaits x ∧ q) →
      ((op.apply e).Awaits x ↔ p ∨ e.Awaits x ∧ q ∧ ∃ n, (op.apply e).graph.node? x = some n) := by
    intro p q hiff
    constructor
    · intro h
      rcases hiff.1 h with hp | ⟨hkept, hq⟩
      · exact .inl hp
      · exact .inr ⟨hkept, hq, h.live⟩
    · rintro (hp | ⟨hkept, hq, -⟩)
      · exact hiff.2 (.inl hp)
      · exact hiff.2 (.inr ⟨hkept, hq⟩)
  cases op with
  | provoke id =>
    refine hlive ?_
    have hedit : ((Operation.provoke id).apply e).Awaits x ↔ _ := awaits_edit ht (.provoke id)
    simpa [Operation.Provokes, Operation.Evaluates, applyEdit] using hedit
  | drainEval =>
    have hnone : ¬ e.drainEval.2.2.Awaits x := not_awaits_drainEval hs ht
    simp [Operation.apply, Operation.Provokes, Operation.Evaluates, hnone]
  | finalize =>
    refine hlive ?_
    simpa [Operation.apply, Operation.Provokes, Operation.Evaluates] using awaits_finalize hs ht
  | runPass => exact hlive (awaits_runPass hs ht)
  | closeGroup =>
    have ht' : Tidy { e with groupLevel := e.groupLevel - 1 } :=
      ⟨ht.staged, ht.indexed, ht.observed, ht.queued, ht.notified, ht.rooted⟩
    exact hlive (awaits_runPass (e := { e with groupLevel := e.groupLevel - 1 }) hs ht')
  | _ =>
    rw [awaits_plain hs ht _ (by simp [Operation.Does]) (by simp [Operation.Does])]
    simp [Operation.Provokes, Operation.Evaluates]

end Engine

/-- A provoke of the node has been accepted in a run since its last evaluation, and the node has stayed. -/
inductive ProvokedSince (start : Engine σ) (x : NodeId) : List (Operation σ) → Prop
  | now {ops : List (Operation σ)} {op : Operation σ} :
      op.Provokes x (start.run ops) → ProvokedSince start x (ops ++ [op])
  | later {ops : List (Operation σ)} {op : Operation σ} : ProvokedSince start x ops →
      ¬ op.Evaluates (start.run ops) → (∃ n, (start.run (ops ++ [op])).graph.node? x = some n) →
      ProvokedSince start x (ops ++ [op])

/-- A provoke is staged for a trigger input exactly if one has been accepted since the last evaluation. -/
theorem awaits_iff_provokedSince (config : EngineConfig) (host : σ) (ops : List (Operation σ)) :
    ((Engine.new config host).run ops).Awaits x ↔ ProvokedSince (.new config host) x ops := by
  induction ops using List.reverseRecOn with
  | nil =>
    constructor
    · rintro ⟨n, hn, -, hst⟩
      have hpending := ((tidy_new config host).staged hn hst).2
      cases hpending
    · intro h
      generalize hops : ([] : List (Operation σ)) = ops at h
      cases h <;> simp at hops
  | append_singleton ops op ih =>
    have hr := (Reachable.new config host).run ops
    have hlast : (Engine.new config host).run (ops ++ [op]) = op.apply ((Engine.new config host).run ops) :=
      run_append _ ops [op]
    rw [hlast, awaits_step hr.sound hr.tidy, ih]
    constructor
    · rintro (hp | ⟨hsince, heval, hl⟩)
      · exact .now hp
      · exact .later hsince heval (hlast ▸ hl)
    · intro h
      generalize hops : ops ++ [op] = all at h
      cases h with
      | now hp =>
        obtain ⟨rfl, he⟩ := List.append_inj' hops rfl
        cases he
        exact .inl hp
      | later hsince heval hl =>
        obtain ⟨rfl, he⟩ := List.append_inj' hops rfl
        cases he
        exact .inr ⟨hsince, heval, hlast ▸ hl⟩

/-- What becomes of triggers in a run. -/
structure TriggerCycle (start : Engine σ) (ops : List (Operation σ)) : Prop where
  /-- A node is provoked exactly if its reset is queued. -/
  queued : ∀ x, (start.run ops).graph.Provoked x ↔ .reset x ∈ (start.run ops).tasks
  /-- Nothing stays provoked when the queued work is done. -/
  finalized : ∀ x, ¬ (start.run ops).finalize.2.2.graph.Provoked x
  passed : (start.run ops).groupLevel = 0 → ∀ x, ¬ (start.run ops).runPass.2.2.graph.Provoked x
  firing : (start.run ops).Firing
  /-- A trigger input fires exactly if a provoke of it has been accepted since the last evaluation. -/
  inputs : ∀ x n, (start.run ops).graph.node? x = some n → n.kind = .triggerInput →
    (x ∈ (start.run ops).drainEval.1 ↔ ProvokedSince start x ops)
  /-- Whatever evaluates does so as the run can, at once or when it has left a group. -/
  stages : ∀ op : Operation σ, op.Evaluates (start.run ops) →
    ∃ more ∈ [[], [.abandonGroup]], let e := start.run (ops ++ more)
      op.apply (start.run ops) = e.drainEval.2.2 ∨ op.apply (start.run ops) = e.drainEval.2.2.finalize.2.2

/-- In every run a node is provoked exactly if its reset is queued, and every evaluation fires exactly the triggers that
are to fire, each once: trigger inputs for provokes since the last evaluation, triggers with quiet rules for what their
parents became in this one. -/
theorem triggerCycle (config : EngineConfig) (host : σ) (ops : List (Operation σ)) :
    TriggerCycle (.new config host) ops ∧
      TriggerRule.changed.IsQuiet ∧ TriggerRule.both.IsQuiet ∧ TriggerRule.either.IsQuiet := by
  have hr := (Reachable.new config host).run ops
  have hfiring : ((Engine.new config host).run ops).Firing := firing hr.sound hr.tidy
  refine ⟨⟨hr.resetsQueued, hr.resetsQueued.finalize.2, fun hlevel => ?_, hfiring, fun x n hn hk => ?_,
    fun op hop => ?_⟩, TriggerRule.isQuiet_changed, TriggerRule.isQuiet_both, TriggerRule.isQuiet_either⟩
  · rw [(runPass_eq hlevel).1]
    exact (hr.resetsQueued.drainEval hr.sound).finalize.2
  · rw [hfiring.inputs x n hn hk, ← awaits_iff_provokedSince]
    constructor
    · intro hst
      exact ⟨n, hn, hk, hst⟩
    · rintro ⟨m, hm, -, hst⟩
      rw [hn, Option.some.injEq] at hm
      rwa [hm]
  · cases op with
    | drainEval =>
      refine ⟨[], by simp, .inl ?_⟩
      rw [List.append_nil]
      rfl
    | runPass =>
      refine ⟨[], by simp, .inr ?_⟩
      rw [List.append_nil]
      exact (runPass_eq hop).1
    | closeGroup =>
      refine ⟨[.abandonGroup], by simp, .inr ?_⟩
      rw [run_append]
      exact (runPass_eq (e := { (Engine.new config host).run ops with
        groupLevel := ((Engine.new config host).run ops).groupLevel - 1 }) hop).1
    | _ => exact hop.elim

/-- A trigger that watches a trigger input, which is provoked twice, before and after a pass. -/
def watchedTrigger : List (Operation Unit) :=
  [.createNode .triggerInput [], .createNode ⟨.trigger .changed, rfl, fun h => NodeKind.noConfusion h⟩ [⟨1, 0⟩],
    .provoke ⟨1, 0⟩, .runPass, .provoke ⟨1, 0⟩]

/-- The next evaluation fires both once, for the second provoke. -/
theorem watchedTrigger_fires :
    ProvokedSince (.new .default ()) ⟨1, 0⟩ watchedTrigger ∧
      ⟨2, 0⟩ ∈ ((Engine.new .default ()).run watchedTrigger).drainEval.1 := by
  have h := (triggerCycle .default () watchedTrigger).1
  obtain ⟨args, hargs, hfires⟩ := h.firing.rules ⟨2, 0⟩ _ .changed rfl rfl TriggerRule.isQuiet_changed
  constructor
  · exact (h.inputs ⟨1, 0⟩ _ rfl rfl).1 (by decide +kernel)
  · rw [hfires]
    cases hargs
    decide +kernel

end Dataflow
