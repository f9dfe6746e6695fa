import Dataflow.Cast.Registry
import Dataflow.Rule.Basic

/-!
# Overloads

A function group is a named list of definitions.  A call is matched against the types of its
arguments: every definition that accepts them has a score, the sum of the distances from the types
to the parameters, and the definition with the least score is chosen, the first one among equals.

A definition that passes a single argument through, although it needs two or more, scores the
distance of that argument to its first parameter, and the call gives the argument back unchanged.
-/

namespace Dataflow

structure FunctionDef where
  name : String
  /-- The types of the parameters; the last one repeats. -/
  params : List DataType
  result : DataType
  behavior : Behavior
  minArgs : Nat
  maxArgs : Nat
  /-- A single argument is given back unchanged. -/
  passesOne : Bool
  /-- Some argument must need no conversion. -/
  needsExact : Bool

namespace FunctionDef

/-- A definition with as many arguments as parameters. -/
def fixed (name : String) (params : List DataType) (result : DataType) (behavior : Behavior) :
    FunctionDef where
  name := name
  params := params
  result := result
  behavior := behavior
  minArgs := params.length
  maxArgs := params.length
  passesOne := false
  needsExact := false

def value (name : String) (params : List DataType) (result : DataType) (rule : ValueRule) :
    FunctionDef :=
  fixed name params result (.value rule)

def trigger (name : String) (params : List DataType) (rule : TriggerRule) : FunctionDef :=
  fixed name params .trigger (.trigger rule)

/-- Accepts up to `n` arguments. -/
def variadic (d : FunctionDef) (n : Nat) : FunctionDef := { d with maxArgs := max n d.minArgs }

/-- Accepts as few as `n` arguments. -/
def atLeast (d : FunctionDef) (n : Nat) : FunctionDef := { d with minArgs := min n d.maxArgs }

/-- Gives a single argument back unchanged. -/
def passingOne (d : FunctionDef) : FunctionDef := { d with passesOne := true }

/-- Rejects calls in which every argument needs a conversion. -/
def needingExact (d : FunctionDef) : FunctionDef := { d with needsExact := true }

/-- The type expected of the argument at position `i`. -/
def paramType? (d : FunctionDef) (i : Nat) : Option DataType := d.params[i]? <|> d.params.getLast?

/-- A call with `n` arguments gives its single argument back. -/
def isPassthrough (d : FunctionDef) (n : Nat) : Bool := d.passesOne && n = 1 && 2 ≤ d.minArgs

/-- The largest score; every larger sum counts as this one. -/
def maxScore : Nat := 0xffffffff

/-- The distances from the types of the arguments to the parameters, if there is a conversion for
each. -/
def distances? (d : FunctionDef) (casts : CastRegistry) (args : List DataType) :
    Option (List Nat) :=
  args.zipIdx.mapM fun (arg, i) => do casts.distance? arg (← d.paramType? i)

/-- How far the argument types are from what the definition expects, if it accepts them. -/
def score? (d : FunctionDef) (casts : CastRegistry) (args : List DataType) : Option Nat :=
  if d.isPassthrough args.length then
    args.head?.bind fun arg => (d.paramType? 0).bind (casts.distance? arg)
  else if args.length < d.minArgs ∨ d.maxArgs < args.length then
    none
  else do
    let distances ← d.distances? casts args
    if d.needsExact ∧ args ≠ [] ∧ 0 ∉ distances then none
    else some (min maxScore (distances.foldr (· + ·) 0))

end FunctionDef

structure Resolution where
  definition : FunctionDef
  index : Nat
  distance : Nat
  passthrough : Bool

structure FunctionGroup where
  name : String
  defs : List FunctionDef

namespace FunctionGroup

/-- The better of the best resolution so far and a definition. -/
def better (casts : CastRegistry) (args : List DataType) (best : Option Resolution)
    (entry : FunctionDef × Nat) : Option Resolution :=
  let (d, index) := entry
  match d.score? casts args with
  | none => best
  | some distance =>
    if best.all fun b => distance < b.distance then
      some ⟨d, index, distance, d.isPassthrough args.length⟩
    else best

/-- The definition with the least score, the first one among equals. -/
def resolve? (g : FunctionGroup) (casts : CastRegistry) (args : List DataType) :
    Option Resolution :=
  g.defs.zipIdx.foldl (better casts args) none

end FunctionGroup

end Dataflow
