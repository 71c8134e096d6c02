import Multiversion.Address
import Multiversion.Version

namespace Multiversion

inductive Request where
  /-- The least version that a live transaction of the member pins. -/
  | minimumVersion
  /-- The least view that the member's log still refers to. -/
  | minimumView
  | purge (least : Nat)
  deriving DecidableEq, Repr

inductive Response where
  | version (v : Version)
  | view (id : Nat)
  | acknowledged
  deriving DecidableEq, Repr

inductive Reply where
  | answered (r : Response)
  | departed
  | timedOut
  | failed (reason : String)
  deriving DecidableEq, Repr

def Response.describe : Response → String
  | .version v =>
    "MinimumVisibleVersion(GmuVersion \x7b view_id: " ++ toString v.view ++ ", node_index: " ++
      toString v.node ++ ", clock: [" ++ ", ".intercalate (v.clock.map toString) ++ "] \x7d)"
  | .view id => s!"MinimumViewId({id})"
  | .acknowledged => "Ack"

inductive GcError where
  | transport (member : Address) (reason : String)
  | timeout (member : Address) (ms : Nat)
  | interrupted
  | noVersion (reason : String)
  | workerSpawn (name reason : String)
  deriving DecidableEq, Repr

def GcError.message : GcError → String
  | .transport m reason => s!"GC transport failure from {m.short}: {reason}"
  | .timeout m ms => s!"GC member {m.short} did not answer within {ms}ms"
  | .interrupted => "GC cycle interrupted by shutdown"
  | .noVersion reason => s!"No version available: {reason}"
  | .workerSpawn name reason => s!"Failed to start GC worker {name}: {reason}"

inductive GcOutcome where
  | versions (floor : Version) (removed : Nat)
  | views (least removed : Nat)
  | skipped (reason : String)
  deriving DecidableEq, Repr

end Multiversion
