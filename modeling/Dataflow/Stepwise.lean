import Dataflow.GraphError

/-!
# Working step by step

An operation gives a new state or an error.  A computation in place changes its state step by step instead, and if it
is refused on the way, it leaves what it has done by then (`Stepwise`).  It does what an operation does if it ends as
`Stepwise.result` says, with the state untouched after a refusal:

* `bind_of_ok`, `bind_of_error`, `read_bind`, `within_of_ok`, `within_of_error`: how the parts of a computation end.
-/

namespace Dataflow

/-- A computation on a state of type `s` that changes it step by step, and may be refused at every step. -/
abbrev Stepwise (s α : Type) := EStateM GraphError s α

namespace Stepwise

variable {s t α β : Type}

/-- Looks something up in the state. -/
def read (f : s → Except GraphError α) : Stepwise s α := fun state =>
  match f state with
  | .ok a => .ok a state
  | .error err => .error err state

/-- Takes a step that is never refused. -/
def change (f : s → s) : Stepwise s Unit := fun state => .ok () (f state)

/-- Works on a part of the state, or on a state with more to it. -/
def within (part : t → s) (put : t → s → t) (p : Stepwise s α) : Stepwise t α := fun state =>
  match p.run (part state) with
  | .ok a next => .ok a (put state next)
  | .error err next => .error err (put state next)

/-- How a computation ends that does what an operation does: a refusal leaves the state as it is. -/
def result (state : s) : Except GraphError (α × s) → EStateM.Result GraphError s α
  | .ok (a, next) => .ok a next
  | .error err => .error err state

/-- How a computation ends that does what an operation does which gives a new state in any case. -/
def answer : Except GraphError α × s → EStateM.Result GraphError s α
  | (.ok a, next) => .ok a next
  | (.error err, next) => .error err next

variable {p : Stepwise s α} {k : α → Stepwise s β} {state next : s} {a : α} {err : GraphError}

theorem bind_of_ok (h : p.run state = .ok a next) : (p >>= k).run state = (k a).run next := by
  change EStateM.bind p k state = _
  rw [EStateM.bind, show p state = .ok a next from h]
  rfl

theorem bind_of_error (h : p.run state = .error err next) : (p >>= k).run state = .error err next := by
  change EStateM.bind p k state = _
  rw [EStateM.bind, show p state = .error err next from h]

theorem discard_of_ok (h : p.run state = .ok a next) : (discard p).run state = .ok () next := by
  change EStateM.map (Function.const α ()) p state = _
  rw [EStateM.map, show p state = .ok a next from h]

theorem discard_of_error (h : p.run state = .error err next) : (discard p).run state = .error err next := by
  change EStateM.map (Function.const α ()) p state = _
  rw [EStateM.map, show p state = .error err next from h]

theorem tryCatch_of_ok {handle : GraphError → Stepwise s α} (h : p.run state = .ok a next) :
    (tryCatch p handle).run state = .ok a next := by
  change EStateM.tryCatch p handle state = _
  delta EStateM.tryCatch
  dsimp only
  rw [show p state = .ok a next from h]

theorem tryCatch_of_error {handle : GraphError → Stepwise s α} (h : p.run state = .error err next) :
    (tryCatch p handle).run state = (handle err).run next := by
  change EStateM.tryCatch p handle state = _
  delta EStateM.tryCatch
  dsimp only
  rw [show p state = .error err next from h]
  rfl

theorem read_of_ok {f : s → Except GraphError α} (state : s) (h : f state = .ok a) :
    (read f).run state = .ok a state := by
  change read f state = _
  rw [read, h]

theorem read_of_error {f : s → Except GraphError α} (state : s) (h : f state = .error err) :
    (read f).run state = .error err state := by
  change read f state = _
  rw [read, h]

theorem within_of_ok {part : t → s} {put : t → s → t} {outer : t} (h : p.run (part outer) = .ok a next) :
    (within part put p).run outer = .ok a (put outer next) := by
  change within part put p outer = _
  rw [within, h]

theorem within_of_error {part : t → s} {put : t → s → t} {outer : t} (h : p.run (part outer) = .error err next) :
    (within part put p).run outer = .error err (put outer next) := by
  change within part put p outer = _
  rw [within, h]

/-- After a part that does what an operation does, the rest has to do what the rest of the operation does. -/
theorem bind_result {x : Except GraphError (α × s)} {r : α × s → Except GraphError (β × s)}
    (hp : p.run state = result state x)
    (hk : ∀ a next, x = .ok (a, next) → (k a).run next = result state (r (a, next))) :
    (p >>= k).run state = result state (x >>= r) := by
  cases x with
  | error err => exact bind_of_error hp
  | ok y => exact (bind_of_ok hp).trans (hk y.1 y.2 rfl)

theorem read_bind {f : s → Except GraphError α} {r : α → Except GraphError (β × s)}
    (hk : ∀ a, f state = .ok a → (k a).run state = result state (r a)) :
    (read f >>= k).run state = result state (f state >>= r) := by
  cases hf : f state with
  | error err => exact bind_of_error (read_of_error _ hf)
  | ok a => exact (bind_of_ok (read_of_ok _ hf)).trans (hk a hf)

theorem change_bind {f : s → s} {k : Unit → Stepwise s β} : (change f >>= k).run state = (k ()).run (f state) :=
  bind_of_ok rfl

theorem get_bind {k : s → Stepwise s β} : (get >>= k).run state = (k state).run state := bind_of_ok rfl

end Stepwise

end Dataflow
