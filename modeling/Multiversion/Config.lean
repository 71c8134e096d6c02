import Multiversion.Observe.Severity

namespace Multiversion

structure VersionGcConfig where
  enabled : Bool := true
  commitThreshold : Nat := 1000
  maxIdleMs : Nat := 60000
  deriving DecidableEq, Repr, Inhabited

structure L1GcConfig where
  enabled : Bool := true
  intervalMs : Nat := 60000
  deriving DecidableEq, Repr, Inhabited

structure ViewGcConfig where
  enabled : Bool := true
  backoffMs : Nat := 10000
  deriving DecidableEq, Repr, Inhabited

structure Config where
  versionGc : VersionGcConfig := {}
  l1Gc : L1GcConfig := {}
  viewGc : ViewGcConfig := {}
  rpcTimeoutMs : Nat := 15000
  /-- Every node holds every key, so there is no cache to collect. -/
  fullyReplicated : Bool := false
  trackWaiting : Bool := false
  logLevel : String := "info"
  deriving DecidableEq, Repr, Inhabited

inductive Setting where
  | commitThreshold
  | maxIdleMs
  | intervalMs
  | backoffMs
  | rpcTimeoutMs
  deriving DecidableEq, Repr

namespace Setting

def all : List Setting := [commitThreshold, maxIdleMs, intervalMs, backoffMs, rpcTimeoutMs]

def path : Setting → String
  | commitThreshold => "version_gc.commit_threshold"
  | maxIdleMs => "version_gc.max_idle_ms"
  | intervalMs => "l1_gc.interval_ms"
  | backoffMs => "view_gc.backoff_ms"
  | rpcTimeoutMs => "rpc_timeout_ms"

def value (c : Config) : Setting → Nat
  | commitThreshold => c.versionGc.commitThreshold
  | maxIdleMs => c.versionGc.maxIdleMs
  | intervalMs => c.l1Gc.intervalMs
  | backoffMs => c.viewGc.backoffMs
  | rpcTimeoutMs => c.rpcTimeoutMs

end Setting

inductive Defect where
  | notPositive (s : Setting)
  | unknownLevel (given : String)
  deriving DecidableEq, Repr

def Defect.reason : Defect → String
  | .notPositive s => s!"{s.path} must be > 0"
  | .unknownLevel given => s!"unknown log_level '{given}'"

inductive ConfigError where
  | io (path reason : String)
  | parse (reason : String)
  | invalid (reason : String)
  deriving DecidableEq, Repr

def ConfigError.message : ConfigError → String
  | .io path reason => s!"Failed to read config {path}: {reason}"
  | .parse reason => s!"Invalid config JSON: {reason}"
  | .invalid reason => s!"Invalid config value: {reason}"

namespace Config

def severity? (c : Config) : Option Severity := Severity.ofName? c.logLevel

def defect? (c : Config) : Option Defect :=
  match Setting.all.find? (fun s => s.value c = 0) with
  | some s => some (.notPositive s)
  | none => if c.severity?.isSome then none else some (.unknownLevel c.logLevel)

def validate (c : Config) : Except ConfigError Severity :=
  match c.defect?, c.severity? with
  | some d, _ => .error (.invalid d.reason)
  | none, some s => .ok s
  | none, none => .error (.invalid (Defect.unknownLevel c.logLevel).reason)

end Config

end Multiversion
