import Dataflow.Engine.Operation
import Dataflow.Json.Decoding
import Dataflow.Json.Writing
import Dataflow.Proofs.Engine.Depths
import Dataflow.Proofs.Engine.Evaluation
import Dataflow.Proofs.Engine.Links
import Dataflow.Proofs.Engine.Constants
import Dataflow.Proofs.Engine.Refusal
import Dataflow.Proofs.Engine.Bookkeeping
import Dataflow.Proofs.Engine.Coalescing
import Dataflow.Proofs.Engine.Provokes
import Dataflow.Proofs.Engine.Delivery
import Dataflow.Proofs.Engine.Isolation
import Dataflow.Proofs.Engine.Typing
import Dataflow.Proofs.Engine.Scopes
import Dataflow.Proofs.Engine.Calls
import Dataflow.Proofs.Engine.Groups
import Dataflow.Proofs.Engine.History
import Dataflow.Proofs.Engine.Exact
import Dataflow.Proofs.Engine.Declarations
import Dataflow.Proofs.Engine.Reports
import Dataflow.Proofs.Engine.DepthChanges
import Dataflow.Proofs.Engine.Installation
import Dataflow.Proofs.Engine.PassNumbers
import Dataflow.Proofs.Engine.Forks
import Dataflow.Proofs.Store.Keys
import Dataflow.Proofs.PendingSet.Refinement
import Dataflow.Proofs.Value.Arithmetic
import Dataflow.Proofs.Value.Order
import Dataflow.Proofs.Cast.Integers
