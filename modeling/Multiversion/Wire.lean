import Multiversion.Cluster.View
import Multiversion.Gc.Message
import Multiversion.Json.Fields
import Multiversion.Transaction

namespace Multiversion

open Json

namespace Version

def ofValue? (v : Value) : Option Version := do
  let f ← Fields.ofValue? ["view_id", "node_index", "clock"] v
  some ⟨← f.need 0 Value.nat64?, ← f.need 1 Value.nat64?, ← f.need 2 (Value.list? Value.nat64?)⟩

def toValue (v : Version) : Value :=
  .record [("view_id", .natural v.view), ("node_index", .natural v.node),
    ("clock", .list .natural v.clock)]

end Version

namespace Address

def ofValue? (v : Value) : Option Address := v.string? >>= parse?

def toValue (a : Address) : Value := .text a.text

end Address

namespace TransactionId

def ofValue? (v : Value) : Option TransactionId := do
  let f ← Fields.ofValue? ["origin", "sequence"] v
  some ⟨← f.need 0 Address.ofValue?, ← f.need 1 Value.nat64?⟩

def toValue (g : TransactionId) : Value :=
  .record [("origin", g.origin.toValue), ("sequence", .natural g.sequence)]

end TransactionId

namespace View

def ofValue? (v : Value) : Option View := do
  let f ← Fields.ofValue? ["view_id", "members"] v
  some ⟨← f.need 0 Value.nat64?, ← f.need 1 (Value.list? Address.ofValue?)⟩

def toValue (v : View) : Value :=
  .record [("view_id", .natural v.id), ("members", .list Address.toValue v.members)]

end View

namespace Write

def ofValue? (v : Value) : Option Write := do
  let f ← Fields.ofValue? ["key", "value"] v
  some ⟨← f.need 0 Value.string?, ← f.optional 1 (Value.list? Value.byte?)⟩

def toValue (w : Write) : Value :=
  .record [("key", .text w.key),
    ("value", .optional (.list fun b => .natural b.toNat) w.value)]

end Write

namespace Committed

def ofValue? (v : Value) : Option Committed := do
  let f ← Fields.ofValue?
    ["gtx", "version", "write_set", "sub_version", "concurrent_clock_number"] v
  some
    { id := ← f.need 0 TransactionId.ofValue?
      version := ← f.need 1 Version.ofValue?
      writes := ← f.need 2 (Value.list? Write.ofValue?)
      sub := ← f.need 3 Value.nat32?
      clock := ← f.need 4 Value.nat64? }

def toValue (c : Committed) : Value :=
  .record [("gtx", c.id.toValue), ("version", c.version.toValue),
    ("write_set", .list Write.toValue c.writes), ("sub_version", .natural c.sub),
    ("concurrent_clock_number", .natural c.clock)]

end Committed

namespace Request

def ofValue? (v : Value) : Option Request := do
  match ← choice? v with
  | ("MinimumVisibleVersion", x) => if bare? x then some .minimumVersion else none
  | ("MinimumViewId", x) => if bare? x then some .minimumView else none
  | ("PurgeViews", some x) =>
    let f ← Fields.ofValue? ["min_view_id"] x
    some (.purge (← f.need 0 Value.nat64?))
  | _ => none

def toValue : Request → Value
  | .minimumVersion => .text "MinimumVisibleVersion"
  | .minimumView => .text "MinimumViewId"
  | .purge least => .record [("PurgeViews", .record [("min_view_id", .natural least)])]

end Request

namespace Response

def ofValue? (v : Value) : Option Response := do
  match ← choice? v with
  | ("MinimumVisibleVersion", some x) => (Version.ofValue? x).map .version
  | ("MinimumViewId", some x) => x.nat64?.map .view
  | ("Ack", x) => if bare? x then some .acknowledged else none
  | _ => none

def toValue : Response → Value
  | .version v => .record [("MinimumVisibleVersion", v.toValue)]
  | .view id => .record [("MinimumViewId", .natural id)]
  | .acknowledged => .text "Ack"

end Response

def GcOutcome.toValue : GcOutcome → Value
  | .versions floor removed =>
    .record [("kind", .text "versions"), ("floor", floor.toValue), ("removed", .natural removed)]
  | .views least removed =>
    .record [("kind", .text "views"), ("min_view_id", .natural least), ("removed", .natural removed)]
  | .skipped reason => .record [("kind", .text "skipped"), ("reason", .text reason)]

end Multiversion
