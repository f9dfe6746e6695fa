import Dataflow.Proofs.Engine.Scopes
import Dataflow.Proofs.StandardLibrary
import Mathlib.Data.List.Find
import Mathlib.Data.List.TakeWhile

/-!
# Installing function groups

Function groups are stored in a scope one after the other, up to the first whose name is taken there (`Engine.isFree`).
What that leaves is one new node for each of the groups before it, found under the name of its group, and nothing else
(`Engine.Defines`).

* `Engine.exists_defineFunction`, `Engine.defineFunction_eq_error`: a group with a valid name is stored unless the name
  is taken;
* `Reachable.defineAll_defines`: storing any number of groups;
* `Reachable.installs`: the standard library is installed as a whole, or nothing is changed, exactly if none of its
  names is taken or the first of them is.
-/

namespace Dataflow

open Dataflow.Graph Relation

variable {σ : Type} {created : Nat} {e e' e'' : Engine σ} {scope id : NodeId} {group : FunctionGroup}
  {groups : List FunctionGroup}

/-! ### Storing one group -/

namespace Graph

variable {g g' : Graph} {name : String}

/-- A node that reads nothing can always be added. -/
theorem exists_addNode (g : Graph) {n : Node} (hn : n.parents = []) : ∃ p, g.addNode n = .ok p := by
  obtain ⟨d, hd⟩ : ∃ d, g.depthBelow [] = .ok d := exists_depthBelow fun p hp => absurd hp List.not_mem_nil
  unfold addNode
  rw [hn, if_neg fun h => h.1 rfl, hd]
  exact ⟨_, rfl⟩

/-- A place is free in a scope if the scope has no member under the name. -/
theorem checkScope_none_eq_ok (hscope : g.IsScope scope) (hname : Name.isValid name = true)
    (hfree : g.member? scope name = none) : g.checkScope none scope name = .ok () := by
  obtain ⟨n, members, hn, hmembers⟩ := hscope
  rw [member?, hn, Option.bind_some, hmembers, Option.bind_some] at hfree
  unfold checkScope
  rw [hname, if_neg Bool.noConfusion, node_eq_ok_iff.2 hn]
  simp [bind, Except.bind, hmembers, hfree]

/-- A place is refused if its name is taken. -/
theorem checkScope_none_eq_error {other : NodeId} (hname : Name.isValid name = true)
    (htaken : g.member? scope name = some other) :
    g.checkScope none scope name = .error (.duplicateName scope name) := by
  obtain ⟨n, hn, hmember⟩ := Option.bind_eq_some_iff.1 htaken
  obtain ⟨members, hmembers, hfind⟩ := Option.bind_eq_some_iff.1 hmember
  unfold checkScope
  rw [hname, if_neg Bool.noConfusion, node_eq_ok_iff.2 hn]
  simp [bind, Except.bind, hmembers, hfind]

/-- A name leads to the member that has it. -/
theorem lookup_of_member? {x : NodeId} (hname : Name.isValid name = true) (h : g.member? scope name = some x) :
    g.lookup scope name = .ok x := by
  have hread : Name.ofPath? name = some [name] :=
    Name.ofPath?_eq_some_iff.2 ⟨List.cons_ne_nil _ _, by simpa using hname, by simp [Name.toPath]⟩
  obtain ⟨n, hn, hmember⟩ := Option.bind_eq_some_iff.1 h
  unfold lookup
  rw [hread]
  simp [descend, node_eq_ok_iff.2 hn, bind, Except.bind, hmember]

/-- Adding a node that reads nothing and placing it changes no other node, but for the members of the scope. -/
theorem Added.node?_setScope {g₀ : Graph} {n : Node} (ha : g₀.Added n id g) (hparents : n.parents = [])
    (hn : n.address = (none, none)) (h : g.setScope id scope name = .ok g') {x : NodeId} (hx : x ≠ id) :
    g'.node? x = if x = scope then (g₀.node? x).map (·.mapMembers (·.insert name id)) else g₀.node? x := by
  have hdetach : g.detach id = g := by
    unfold detach
    split
    · next hself =>
      rw [ha.self, Option.some.injEq] at hself
      simp [hself, Node.address] at hn
    · rfl
  have hsame : g.node? x = g₀.node? x := by rw [ha.node?, if_neg hx, hparents, if_neg List.not_mem_nil]
  unfold setScope at h
  simp only [bind_eq_ok, pure_eq_ok] at h
  obtain ⟨-, -, rfl⟩ := h
  rw [node?_modify, if_neg hx, node?_modify, hdetach, hsame]

/-- Such a node is found under its name, and all other names lead where they led. -/
theorem Added.member?_setScope {g₀ : Graph} {n : Node} (ha : g₀.Added n id g) (hn : n.address = (none, none))
    (hempty : ∀ nm, n.members?.bind (·.find? nm) = none) (h : g.setScope id scope name = .ok g') (s : NodeId)
    (nm : String) : g'.member? s nm = if s = scope ∧ nm = name then some id else g₀.member? s nm := by
  have hscope : n.scope? = none := congrArg Prod.snd hn
  have hnowhere : ¬ g.address? id = some (some nm, some s) := by simp [address?, ha.self, Node.address, hscope]
  rw [(readdressed_of_setScope h).member?_eq, if_neg hnowhere, ha.member?_eq hscope hempty]
  simp only [Option.some.injEq, Prod.mk.injEq, eq_comm, and_comm]

/-- A function group stays one when it is placed. -/
theorem kind_setScope {n : Node} (h : g.setScope id scope name = .ok g') (hn : g.node? id = some n)
    (hkind : n.kind = .functionGroup group) : ∃ m, g'.node? id = some m ∧ m.kind = .functionGroup group := by
  obtain ⟨m, hm, hsame⟩ := (setScope_eq_ok h).same.exists_of_some hn
  have hemptied : m.kind.emptied = n.kind.emptied :=
    (congrArg Node.kind hsame : m.anonymous.kind = n.anonymous.kind)
  rw [hkind] at hemptied
  refine ⟨m, hm, ?_⟩
  cases hk : m.kind <;> rw [hk] at hemptied <;> first | exact hemptied | cases hemptied

/-- A node without members can be placed in any scope, but itself, under a name that is free there. -/
theorem ScopeTree.exists_setScope {root : NodeId} (h : g.ScopeTree root) {n : Node} (hn : g.node? id = some n)
    (hne : scope ≠ id) (hempty : ∀ nm, g.member? id nm = none) (hscope : g.IsScope scope)
    (hname : Name.isValid name = true) (hfree : g.member? scope name = none) :
    ∃ g', g.setScope id scope name = .ok g' := by
  have hnot : ¬ ∃ err, g.setScope id scope name = .error err := by
    rw [h.exists_setScope_error_iff hn hscope]
    rintro (hinvalid | ⟨other, -, hother⟩ | hin)
    · rw [hname] at hinvalid
      cases hinvalid
    · rw [hfree] at hother
      cases hother
    · rcases ReflTransGen.cases_tail hin with he | ⟨y, -, hy⟩
      · exact hne he.symm
      · exact h.not_inside hempty y hy
  cases hset : g.setScope id scope name with
  | error err => exact absurd ⟨err, hset⟩ hnot
  | ok g' => exact ⟨g', rfl⟩

end Graph

namespace Engine

/-- The scope has no member under the name of the group. -/
def isFree (e : Engine σ) (scope : NodeId) (group : FunctionGroup) : Bool :=
  (e.graph.member? scope group.name).isNone

/-- What there is after function groups have been stored in a scope. -/
structure Defines (e : Engine σ) (scope : NodeId) (groups : List FunctionGroup) (e' : Engine σ) : Prop where
  /-- Only the graph has changed. -/
  rest : e' = { e with graph := e'.graph }
  /-- Each group is in a new node, which is found under the name of the group. -/
  found : ∀ group ∈ groups, ∃ id, e.graph.node? id = none ∧ e'.graph.member? scope group.name = some id ∧
    e'.functionGroup id = .ok group
  /-- There are no other new nodes. -/
  only : ∀ x n, e.graph.node? x = none → e'.graph.node? x = some n →
    ∃ group ∈ groups, e'.graph.member? scope group.name = some x
  /-- All other nodes but the scope are what they were, and the scope is, but for its members. -/
  nodes : ∀ x n, e.graph.node? x = some n → x ≠ scope → e'.graph.node? x = some n
  ofScope : ∀ n, e.graph.node? scope = some n → ∃ f, e'.graph.node? scope = some (n.mapMembers f)
  /-- All other names lead where they led. -/
  members : ∀ s name, (s = scope → ∀ group ∈ groups, group.name ≠ name) →
    e'.graph.member? s name = e.graph.member? s name

/-- A group is refused where its name is taken. -/
theorem defineFunction_eq_error (hname : Name.isValid group.name = true) (htaken : e.isFree scope group = false) :
    e.defineFunction scope group = .error (.duplicateName scope group.name) := by
  obtain ⟨other, hother⟩ : ∃ other, e.graph.member? scope group.name = some other :=
    Option.isSome_iff_exists.1 (Option.isNone_eq_false_iff.1 htaken)
  unfold defineFunction
  rw [checkScope_none_eq_error hname hother]
  rfl

/-- A group whose name is valid is stored where the name is free. -/
theorem exists_defineFunction (hs : e.graph.store.Sound) (ht : e.graph.ScopeTree e.root)
    (hscope : e.graph.IsScope scope) (hname : Name.isValid group.name = true) (hfree : e.isFree scope group = true) :
    ∃ p, e.defineFunction scope group = .ok p := by
  have hnone : e.graph.member? scope group.name = none := Option.isNone_iff_eq_none.1 hfree
  obtain ⟨⟨id, g⟩, hadd⟩ := e.graph.exists_addNode (n := .fresh (.functionGroup group) [] none) rfl
  obtain ⟨d, -, ha, -⟩ := addNode_eq_ok hs hadd
  obtain ⟨hempty, hr⟩ := ha.readdressed rfl fun nm => by rfl
  have hne : scope ≠ id := by
    obtain ⟨n, -, hn, -⟩ := hscope
    exact ha.ne hn
  have hmember := ha.member?_eq rfl fun nm => by rfl
  obtain ⟨g', hset⟩ := (ht.added ha rfl rfl).exists_setScope ha.self hne (fun nm => by rw [hmember, hempty])
    ((hr.isScope_iff scope hne).2 hscope) hname (by rw [hmember, hnone])
  unfold defineFunction
  rw [checkScope_none_eq_ok hscope hname hnone, hadd]
  exact ⟨(id, { e with graph := g' }), by simp [bind, Except.bind, hset, pure, Except.pure]⟩

/-- What a group that has been stored leaves. -/
theorem defines_of_defineFunction (hs : e.graph.store.Sound) (hd : e.defineFunction scope group = .ok (id, e')) :
    e.Defines scope [group] e' := by
  unfold defineFunction at hd
  simp only [bind_eq_ok, pure_eq_ok, Prod.mk.injEq] at hd
  obtain ⟨-, -, ⟨id', g⟩, hadd, g', hset, rfl, rfl⟩ := hd
  obtain ⟨d, -, ha, -⟩ := addNode_eq_ok hs hadd
  have hmember := ha.member?_setScope rfl (fun _ => by rfl) hset
  have hself : g'.member? scope group.name = some id' := by rw [hmember, if_pos ⟨rfl, rfl⟩]
  refine ⟨rfl, ?_, fun x n hnone hn => ?_, fun x n hn hx => ?_, fun n hn => ?_, fun s name hother => ?_⟩
  · rintro group (- | ⟨_, ⟨⟩⟩)
    exact ⟨id', ha.fresh, hself, functionGroup_eq_ok_iff.2 (kind_setScope hset ha.self rfl)⟩
  · by_cases hx : x = id'
    · exact ⟨group, List.mem_singleton_self _, hx ▸ hself⟩
    · rw [ha.node?_setScope rfl rfl hset hx, hnone] at hn
      simp at hn
  · rw [ha.node?_setScope rfl rfl hset (ha.ne hn), if_neg hx, hn]
  · rw [ha.node?_setScope rfl rfl hset (ha.ne hn), if_pos rfl, hn]
    exact ⟨_, rfl⟩
  · rw [hmember, if_neg]
    rintro ⟨rfl, rfl⟩
    exact hother rfl group (List.mem_singleton_self _) rfl

/-! ### Storing one after the other -/

namespace Defines

theorem exists_of_some (h : e.Defines scope groups e') {x : NodeId} {n : Node} (hn : e.graph.node? x = some n) :
    ∃ m, e'.graph.node? x = some m := by
  by_cases hx : x = scope
  · obtain ⟨f, hf⟩ := h.ofScope n (hx ▸ hn)
    exact ⟨_, hx ▸ hf⟩
  · exact ⟨n, h.nodes x n hn hx⟩

theorem isScope (h : e.Defines scope groups e') (hscope : e.graph.IsScope scope) : e'.graph.IsScope scope := by
  obtain ⟨n, members, hn, hmembers⟩ := hscope
  obtain ⟨f, hf⟩ := h.ofScope n hn
  exact ⟨_, f members, hf, by rw [Node.members?_mapMembers, hmembers, Option.map_some]⟩

/-- Whether another name is free is as before. -/
theorem isFree_eq (h : e.Defines scope groups e') {other : FunctionGroup}
    (hname : ∀ group ∈ groups, group.name ≠ other.name) : e'.isFree scope other = e.isFree scope other := by
  unfold isFree
  rw [h.members scope other.name fun _ => hname]

theorem nil (e : Engine σ) (scope : NodeId) : e.Defines scope [] e := by
  refine ⟨rfl, fun _ hg => absurd hg List.not_mem_nil, fun x n hnone hn => ?_, fun _ _ hn _ => hn, fun n hn => ?_,
    fun _ _ _ => rfl⟩
  · rw [hnone] at hn
    cases hn
  · refine ⟨id, hn.trans (congrArg some ?_)⟩
    unfold Node.mapMembers
    split
    · next hk => rw [id, ← hk]
    · rfl

/-- A group is stored, and then others under other names: together they leave what storing all of them leaves, for the
others touch neither the node of the first nor its name. -/
theorem cons (h : e.Defines scope [group] e') (hrest : e'.Defines scope groups e'') (hscope : e.graph.IsScope scope)
    (hname : ∀ other ∈ groups, other.name ≠ group.name) : e.Defines scope (group :: groups) e'' := by
  have hmember : e''.graph.member? scope group.name = e'.graph.member? scope group.name :=
    hrest.members scope group.name fun _ => hname
  refine ⟨?rest, List.forall_mem_cons.2 ⟨?first, ?others⟩, ?only,
    fun x n hn hx => hrest.nodes x n (h.nodes x n hn hx) hx, ?ofScope, ?members⟩
  case rest => exact hrest.rest.trans (congrArg (fun f : Engine σ => { f with graph := e''.graph }) h.rest)
  case first =>
    obtain ⟨id, hnone, hid, hgroup⟩ := h.found group (List.mem_singleton_self _)
    obtain ⟨n, hn, hk⟩ := functionGroup_eq_ok_iff.1 hgroup
    have hne : id ≠ scope := by
      rintro rfl
      obtain ⟨m, -, hm, -⟩ := hscope
      rw [hnone] at hm
      cases hm
    exact ⟨id, hnone, hmember.trans hid, functionGroup_eq_ok_iff.2 ⟨n, hrest.nodes id n hn hne, hk⟩⟩
  case others =>
    intro other ho
    obtain ⟨id, hnone, hid⟩ := hrest.found other ho
    refine ⟨id, Option.eq_none_iff_forall_ne_some.2 fun n hn => ?_, hid⟩
    obtain ⟨m, hm⟩ := h.exists_of_some hn
    rw [hnone] at hm
    cases hm
  case only =>
    intro x n hnone hn
    cases hx : e'.graph.node? x with
    | none =>
      obtain ⟨other, ho, hmem⟩ := hrest.only x n hx hn
      exact ⟨other, List.mem_cons_of_mem _ ho, hmem⟩
    | some m =>
      obtain ⟨other, ho, hmem⟩ := h.only x m hnone hx
      rw [List.mem_singleton.1 ho] at hmem
      exact ⟨group, List.mem_cons_self .., hmember.trans hmem⟩
  case ofScope =>
    intro n hn
    obtain ⟨f, hf⟩ := h.ofScope n hn
    obtain ⟨f', hf'⟩ := hrest.ofScope _ hf
    refine ⟨f' ∘ f, hf'.trans (congrArg some ?_)⟩
    unfold Node.mapMembers
    cases hk : n.kind <;> simp [hk]
  case members =>
    intro s name hother
    rw [hrest.members s name fun hs other ho => hother hs other (List.mem_cons_of_mem _ ho),
      h.members s name fun hs other ho => hother hs other (List.mem_singleton.1 ho ▸ List.mem_cons_self ..)]

end Defines

end Engine

private theorem takeWhile_congr {α : Type} {p q : α → Bool} {l : List α} (h : ∀ a ∈ l, p a = q a) :
    l.takeWhile p = l.takeWhile q := by
  induction l with
  | nil => rfl
  | cons a l ih =>
    rw [List.takeWhile_cons, List.takeWhile_cons, h a (List.mem_cons_self ..),
      ih fun b hb => h b (List.mem_cons_of_mem _ hb)]

/-- Of groups with different names, those before the first whose name is taken are stored, and it is refused. -/
theorem Reachable.defineAll_defines (h : Reachable created e) (hscope : e.graph.IsScope scope)
    (hvalid : ∀ group ∈ groups, Name.isValid group.name = true) (hnodup : (groups.map FunctionGroup.name).Nodup) :
    e.Defines scope (groups.takeWhile (e.isFree scope)) (e.defineAll scope groups).2 ∧
      (e.defineAll scope groups).1 = match groups.find? (!e.isFree scope ·) with
        | none => .ok ()
        | some group => .error (.duplicateName scope group.name) := by
  induction groups generalizing created e with
  | nil => exact ⟨.nil e scope, rfl⟩
  | cons group rest ih =>
    rw [List.forall_mem_cons] at hvalid
    rw [List.map_cons, List.nodup_cons] at hnodup
    cases hfree : e.isFree scope group with
    | false =>
      rw [Engine.defineAll, Engine.defineFunction_eq_error hvalid.1 hfree, List.takeWhile_cons_of_neg (by simp [hfree]),
        List.find?_cons_of_pos (by simp [hfree])]
      exact ⟨.nil e scope, rfl⟩
    | true =>
      obtain ⟨⟨id, next⟩, hd⟩ := Engine.exists_defineFunction h.sound.graph.store h.scopeTree hscope hvalid.1 hfree
      have hstep : Reachable (created + Operation.created.count (e.defineFunction scope group))
          (e.accept ((e.defineFunction scope group).map Prod.snd)) := h.step (.defineFunction scope group)
      rw [hd] at hstep
      have hone := Engine.defines_of_defineFunction h.sound.graph.store hd
      have hother : ∀ other ∈ rest, other.name ≠ group.name := fun other ho hname =>
        hnodup.1 (hname ▸ List.mem_map_of_mem ho)
      have hsame : ∀ other ∈ rest, e.isFree scope other = next.isFree scope other := fun other ho =>
        (hone.isFree_eq fun g hg => List.mem_singleton.1 hg ▸ (hother other ho).symm).symm
      obtain ⟨hdefines, hresult⟩ := ih hstep (hone.isScope hscope) hvalid.2 hnodup.2
      rw [Engine.defineAll, hd, List.takeWhile_cons_of_pos hfree, List.find?_cons_of_neg (by simp [hfree]),
        takeWhile_congr hsame, List.find?_congr fun other ho => by rw [hsame other ho]]
      exact ⟨hone.cons hdefines hscope fun other ho => hother other ((List.takeWhile_sublist _).subset ho), hresult⟩

/-! ### The standard library -/

namespace Engine

/-- The groups of the standard library, as the engine is configured. -/
def library (e : Engine σ) : List FunctionGroup := StandardLibrary.groups e.config.maxVariadicArgs

/-- Either the library is installed, and each of its groups is found under its name, or this is refused, and the nodes
and the members of the root are what they were. -/
def AllOrNothing (e : Engine σ) : Prop :=
  (e.installLibrary.1 = .ok () ∧ ∀ group ∈ e.library, ∃ id,
    e.installLibrary.2.lookup group.name = .ok id ∧ e.installLibrary.2.functionGroup id = .ok group) ∨
  (∃ err, e.installLibrary.1 = .error err) ∧ (∀ x, e.installLibrary.2.graph.node? x = e.graph.node? x) ∧
    e.installLibrary.2.members e.root = e.members e.root

/-- What installing the standard library does. -/
structure Installs (e : Engine σ) : Prop where
  /-- The groups before the first whose name is taken in the root are stored there, and nothing else is done. -/
  defines : e.Defines e.root (e.library.takeWhile (e.isFree e.root)) e.installLibrary.2
  /-- The first whose name is taken is refused. -/
  result : e.installLibrary.1 = match e.library.find? (!e.isFree e.root ·) with
    | none => .ok ()
    | some group => .error (.duplicateName e.root group.name)
  /-- Everything or nothing is done exactly if no name is taken, or if the first one is. -/
  allOrNothing_iff : e.AllOrNothing ↔
    (∀ group ∈ e.library, e.isFree e.root group = true) ∨ e.graph.member? e.root "add" ≠ none
  /-- If the first name is taken, nothing is changed at all. -/
  unchanged : e.graph.member? e.root "add" ≠ none → e.installLibrary.2 = e

/-- Where the first name is taken, the library is refused at once. -/
theorem installLibrary_of_taken (h : e.graph.member? e.root "add" ≠ none) :
    e.installLibrary = (.error (.duplicateName e.root "add"), e) := by
  obtain ⟨add, rest, hlibrary, hadd⟩ : ∃ add rest, e.library = add :: rest ∧ add.name = "add" := ⟨_, _, rfl, rfl⟩
  have hinstall : e.installLibrary = e.defineAll e.root (add :: rest) := hlibrary ▸ rfl
  have htaken : e.isFree e.root add = false := by
    rw [isFree, hadd]
    exact Option.isNone_eq_false_iff.2 (Option.isSome_iff_ne_none.2 h)
  have hvalid : Name.isValid add.name = true :=
    StandardLibrary.isValid_of_mem_groups (hlibrary ▸ List.mem_cons_self .. : add ∈ e.library)
  rw [hinstall, defineAll, defineFunction_eq_error hvalid htaken, hadd]

end Engine

/-- In every engine that a host can bring about, whatever names the root has, the standard library is installed up to
the first of its names that is taken. -/
theorem Reachable.installs (h : Reachable created e) : e.Installs := by
  have hvalid : ∀ group ∈ e.library, Name.isValid group.name = true := fun _ =>
    StandardLibrary.isValid_of_mem_groups
  obtain ⟨hdefines, hresult⟩ := h.defineAll_defines h.scopeTree.isScope_root hvalid (StandardLibrary.nodup_names _)
  have hinstall : e.installLibrary = e.defineAll e.root e.library := rfl
  rw [← hinstall] at hdefines hresult
  refine ⟨hdefines, hresult, ⟨?_, ?_⟩, fun htaken => by rw [Engine.installLibrary_of_taken htaken]⟩
  · rintro (⟨hok, -⟩ | ⟨-, hnodes, -⟩)
    · left
      rw [hok] at hresult
      split at hresult
      · next hnone => simpa using hnone
      · cases hresult
    · right
      intro hnone
      obtain ⟨add, rest, hlibrary, hadd⟩ : ∃ add rest, e.library = add :: rest ∧ add.name = "add" := ⟨_, _, rfl, rfl⟩
      have hfirst : add ∈ e.library.takeWhile (e.isFree e.root) := by
        rw [hlibrary, List.takeWhile_cons_of_pos (by rw [Engine.isFree, hadd, hnone, Option.isNone_none])]
        exact List.mem_cons_self ..
      obtain ⟨id, -, hid, -⟩ := hdefines.found add hfirst
      rw [hadd, member?, hnodes, ← member?, hnone] at hid
      cases hid
  · rintro (hfree | htaken)
    · left
      have hall : e.library.takeWhile (e.isFree e.root) = e.library := List.takeWhile_eq_self_iff.2 hfree
      have hnone : e.library.find? (!e.isFree e.root ·) = none := by simpa using hfree
      rw [hnone] at hresult
      rw [hall] at hdefines
      have hroot : e.installLibrary.2.root = e.root := by rw [hdefines.rest]
      refine ⟨hresult, fun group hg => ?_⟩
      obtain ⟨id, -, hid, hgroup⟩ := hdefines.found group hg
      refine ⟨id, lookup_of_member? (hvalid group hg) ?_, hgroup⟩
      rw [hroot]
      exact hid
    · right
      rw [Engine.installLibrary_of_taken htaken]
      exact ⟨⟨_, rfl⟩, fun _ => rfl, rfl⟩

/-- A root with an input in it. -/
def namedInput : Engine Unit :=
  (Engine.new .default ()).run [.createNamed ⟨0, 0⟩ "level" (.input .int) []]

/-- The name of the input is no name of the library. -/
theorem namedInput_installs : namedInput.AllOrNothing := by
  have h : Reachable _ namedInput := (Reachable.new .default ()).run _
  exact h.installs.allOrNothing_iff.2 (.inl (by decide +kernel))

/-- A root with a scope in it that has the name of the second group of the library. -/
def takenName : Engine Unit := (Engine.new .default ()).run [.createScope ⟨0, 0⟩ "sub"]

/-- The library is refused for the name of the second group, but the first is in the root afterwards. -/
theorem takenName_partly : takenName.installLibrary.1 = .error (.duplicateName ⟨0, 0⟩ "sub") ∧
    takenName.members ⟨0, 0⟩ = .ok [("sub", ⟨1, 0⟩)] ∧
    takenName.installLibrary.2.members ⟨0, 0⟩ = .ok [("add", ⟨2, 0⟩), ("sub", ⟨1, 0⟩)] ∧
    ¬ takenName.AllOrNothing := by
  have hresult : takenName.installLibrary.1 = .error (.duplicateName ⟨0, 0⟩ "sub") := by decide +kernel
  have hbefore : takenName.members ⟨0, 0⟩ = .ok [("sub", ⟨1, 0⟩)] := by decide +kernel
  have hafter : takenName.installLibrary.2.members ⟨0, 0⟩ = .ok [("add", ⟨2, 0⟩), ("sub", ⟨1, 0⟩)] := by decide +kernel
  refine ⟨hresult, hbefore, hafter, ?_⟩
  rintro (⟨hok, -⟩ | ⟨-, -, hmembers⟩)
  · rw [hresult] at hok
    cases hok
  · have hroot : takenName.root = ⟨0, 0⟩ := rfl
    rw [hroot, hbefore, hafter, Except.ok.injEq] at hmembers
    exact absurd hmembers (by decide)

end Dataflow
