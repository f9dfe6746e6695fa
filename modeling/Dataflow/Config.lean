/-!
# Configuration

What can be tuned in an engine.
-/

namespace Dataflow

structure EngineConfig where
  /-- A constant equal to an existing one is not created again. -/
  dedupConstants : Bool
  /-- Every node that a pass touches is to be traced by the host. -/
  traceNodes : Bool
  /-- The most arguments of the library functions that take any number. -/
  maxVariadicArgs : Nat
  deriving DecidableEq

def EngineConfig.default : EngineConfig := ⟨true, false, 16⟩

end Dataflow
