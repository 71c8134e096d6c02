import Multiversion.Cluster
import Multiversion.Wire

namespace Multiversion

structure NodeReport where
  address : String
  applied : Nat
  ordered : Bool
  queueSize : Nat
  historyLength : Nat
  storedValues : Nat
  l1Values : Nat
  metrics : Metrics
  deriving DecidableEq, Repr

namespace NodeReport

def ascending (ns : List Nat) : Bool := (ns.zip ns.tail).all fun (a, b) => decide (a ≤ b)

def ofNode (n : Node) : NodeReport where
  address := n.address.short
  applied := n.applied.length
  ordered := ascending n.applied
  queueSize := n.queue.size
  historyLength := n.log.history.length
  storedValues := n.data.valueCount
  l1Values := n.l1.valueCount
  metrics := n.metrics

def isClean (r : NodeReport) : Bool := r.ordered && r.queueSize = 0

def toValue (r : NodeReport) : Json.Value :=
  .record [("address", .text r.address), ("applied", .natural r.applied),
    ("ordered", .bool r.ordered), ("queue_size", .natural r.queueSize),
    ("history_len", .natural r.historyLength), ("stored_values", .natural r.storedValues),
    ("l1_values", .natural r.l1Values), ("metrics", r.metrics.toValue)]

end NodeReport

structure Report where
  seed : Nat
  transactions : Nat
  committed : Nat
  rolledBack : Nat
  gc : List GcOutcome
  nodes : List NodeReport
  elapsedMs : Nat
  deriving DecidableEq, Repr

namespace Report

def drainOrderOk (r : Report) : Bool := r.nodes.all NodeReport.isClean

def offenders (r : Report) : List String :=
  (r.nodes.filter fun n => !n.isClean).map (·.address)

def toValue (r : Report) : Json.Value :=
  .record [("seed", .natural r.seed), ("transactions", .natural r.transactions),
    ("committed", .natural r.committed), ("rolled_back", .natural r.rolledBack),
    ("drain_order_ok", .bool r.drainOrderOk), ("gc", .list GcOutcome.toValue r.gc),
    ("nodes", .list NodeReport.toValue r.nodes), ("elapsed_ms", .natural r.elapsedMs)]

def render (r : Report) : String := r.toValue.pretty 0

end Report

end Multiversion
