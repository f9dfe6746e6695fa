import Dataflow.Config
import Dataflow.Json.Number
import Dataflow.Json.Parsing
import Dataflow.NodeId
import Dataflow.Value.Basic

/-!
# What JSON documents stand for

A record is an object with its fields in any order, or an array of them in their own order.  An
object may have other fields too, but none of the record's fields twice.  A value is an object with
one field, named for its type.
-/

namespace Dataflow

namespace Json

/-- The fields of a record, by the names given; none for a field that is not there. -/
def record? (names : List String) : Json → Option (List (Option Json))
  | .object fields => do
    let named ← fields.mapM fun (key, value) => (textOfCodes? key).map (·, value)
    if names.all fun name => named.countP (·.1 = name) ≤ 1 then
      return names.map fun name => named.lookup name
    else none
  | .array items =>
    if items.length ≤ names.length then
      some (items.map some ++ List.replicate (names.length - items.length) none)
    else none
  | _ => none

def toBool? : Json → Option Bool
  | .bool b => some b
  | _ => none

def toInt? (low high : Int) : Json → Option Int
  | .number n => n.toInt? low high
  | _ => none

def toNat? (high : Nat) (j : Json) : Option Nat := (j.toInt? 0 high).map Int.toNat

def toDouble? : Json → Option Binary64
  | .number n => n.toBinary64?
  | _ => none

def toText? : Json → Option String
  | .text codes => textOfCodes? codes
  | _ => none

end Json

/-- A configuration.  A field that is not there has its default. -/
def EngineConfig.ofJson? (j : Json) : Option EngineConfig := do
  let default := EngineConfig.default
  match ← j.record? ["dedup_constants", "trace_nodes", "max_variadic_args"] with
  | [dedup, trace, limit] =>
    let dedup ← dedup.elim (some default.dedupConstants) Json.toBool?
    let trace ← trace.elim (some default.traceNodes) Json.toBool?
    let limit ← limit.elim (some default.maxVariadicArgs) (Json.toNat? 0xffffffffffffffff)
    return ⟨dedup, trace, limit⟩
  | _ => none

def NodeId.ofJson? (j : Json) : Option NodeId := do
  match ← j.record? ["index", "generation"] with
  | [some index, some generation] =>
    return ⟨← index.toNat? 0xffffffff, UInt32.ofNat (← generation.toNat? 0xffffffff)⟩
  | _ => none

/-- A data type: its name, alone or as the name of a field that is null. -/
def DataType.ofJson? : Json → Option DataType
  | .text codes => (Json.textOfCodes? codes).bind ofName?
  | .object [(key, .null)] => (Json.textOfCodes? key).bind ofName?
  | _ => none

/-- A value, as a field named for its type. -/
def Value.ofJson? : Json → Option Value
  | .object [(key, payload)] => do
    match DataType.ofName? (← Json.textOfCodes? key) with
    | some .bool => payload.toBool?.map .bool
    | some .int =>
      (payload.toInt? (-0x8000000000000000) 0x7fffffffffffffff).map fun n => .int (Int64.ofInt n)
    | some .double => payload.toDouble?.map .double
    | some .text => payload.toText?.map .text
    | some .trigger | none => none
  | _ => none

def EngineConfig.ofText? (s : String) : Option EngineConfig := (Json.ofText? s).bind ofJson?

end Dataflow
