import Multiversion.Config
import Multiversion.Json.Fields

namespace Multiversion

open Json

namespace VersionGcConfig

def ofValue? (v : Value) : Option VersionGcConfig := do
  let f ← Fields.ofValue? ["enabled", "commit_threshold", "max_idle_ms"] v
  let d : VersionGcConfig := {}
  some
    { enabled := ← f.orElse 0 Value.bool? d.enabled
      commitThreshold := ← f.orElse 1 Value.nat64? d.commitThreshold
      maxIdleMs := ← f.orElse 2 Value.nat64? d.maxIdleMs }

def toValue (c : VersionGcConfig) : Value :=
  .record [("enabled", .bool c.enabled), ("commit_threshold", .natural c.commitThreshold),
    ("max_idle_ms", .natural c.maxIdleMs)]

end VersionGcConfig

namespace L1GcConfig

def ofValue? (v : Value) : Option L1GcConfig := do
  let f ← Fields.ofValue? ["enabled", "interval_ms"] v
  let d : L1GcConfig := {}
  some
    { enabled := ← f.orElse 0 Value.bool? d.enabled
      intervalMs := ← f.orElse 1 Value.nat64? d.intervalMs }

def toValue (c : L1GcConfig) : Value :=
  .record [("enabled", .bool c.enabled), ("interval_ms", .natural c.intervalMs)]

end L1GcConfig

namespace ViewGcConfig

def ofValue? (v : Value) : Option ViewGcConfig := do
  let f ← Fields.ofValue? ["enabled", "backoff_ms"] v
  let d : ViewGcConfig := {}
  some
    { enabled := ← f.orElse 0 Value.bool? d.enabled
      backoffMs := ← f.orElse 1 Value.nat64? d.backoffMs }

def toValue (c : ViewGcConfig) : Value :=
  .record [("enabled", .bool c.enabled), ("backoff_ms", .natural c.backoffMs)]

end ViewGcConfig

namespace Config

def fieldNames : List String :=
  ["version_gc", "l1_gc", "view_gc", "rpc_timeout_ms", "fully_replicated", "track_waiting",
    "log_level"]

def ofValue? (v : Value) : Option Config := do
  let f ← Fields.ofValue? fieldNames v
  let d : Config := {}
  some
    { versionGc := ← f.orElse 0 VersionGcConfig.ofValue? d.versionGc
      l1Gc := ← f.orElse 1 L1GcConfig.ofValue? d.l1Gc
      viewGc := ← f.orElse 2 ViewGcConfig.ofValue? d.viewGc
      rpcTimeoutMs := ← f.orElse 3 Value.nat64? d.rpcTimeoutMs
      fullyReplicated := ← f.orElse 4 Value.bool? d.fullyReplicated
      trackWaiting := ← f.orElse 5 Value.bool? d.trackWaiting
      logLevel := ← f.orElse 6 Value.string? d.logLevel }

def toValue (c : Config) : Value :=
  .record [("version_gc", c.versionGc.toValue), ("l1_gc", c.l1Gc.toValue),
    ("view_gc", c.viewGc.toValue), ("rpc_timeout_ms", .natural c.rpcTimeoutMs),
    ("fully_replicated", .bool c.fullyReplicated), ("track_waiting", .bool c.trackWaiting),
    ("log_level", .text c.logLevel)]

def render (c : Config) : String := c.toValue.pretty 0

def ofText (s : String) : Except ConfigError (Config × Severity) :=
  match Json.parse? s >>= ofValue? with
  | none => .error (.parse "not a configuration")
  | some c => c.validate.map fun level => (c, level)

def ofFile (path : String) (contents : Option ByteArray) : Except ConfigError (Config × Severity) :=
  match contents with
  | none => .error (.io path "cannot be read")
  | some bytes =>
    match String.fromUTF8? bytes with
    | none => .error (.io path "not valid UTF-8")
    | some s => ofText s

end Config

end Multiversion
