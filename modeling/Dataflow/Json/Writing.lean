import Dataflow.DataType
import Dataflow.Report

/-!
# Writing JSON

Data types, node ids and reports as JSON, without blanks and with the fields in a fixed order.
-/

namespace Dataflow

/-- An object with the given fields, which are JSON already. -/
private def jsonObject (fields : List (String × String)) : String :=
  let field := fun (name, value) => "\"" ++ name ++ "\":" ++ value
  "\x7b" ++ ",".intercalate (fields.map field) ++ "\x7d"

/-- An array of the given items, which are JSON already. -/
private def jsonArray (items : List String) : String := "[" ++ ",".intercalate items ++ "]"

def DataType.toJson (t : DataType) : String := "\"" ++ t.name ++ "\""

def NodeId.toJson (id : NodeId) : String :=
  jsonObject [("index", toString id.index), ("generation", toString id.generation.toNat)]

def PassReport.toJson (r : PassReport) : String :=
  jsonObject
    [("pass", toString r.pass),
     ("depth_updates", toString r.depthUpdates),
     ("evaluated", toString r.evaluated),
     ("changed", jsonArray (r.changed.map NodeId.toJson)),
     ("fired", jsonArray (r.fired.map NodeId.toJson)),
     ("notifications", toString r.notifications),
     ("queued_edits", toString r.queuedEdits),
     ("rejected_edits", toString r.rejectedEdits)]

end Dataflow
