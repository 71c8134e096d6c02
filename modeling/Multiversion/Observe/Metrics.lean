import Multiversion.Json.Value
import Multiversion.Observe.Line

namespace Multiversion

inductive Counter where
  | prepared
  | readOnlyPrepared
  | commits
  | readOnlyCommits
  | rollbacks
  | duplicatePrepares
  | transactionsCommitted
  | waits
  | waitMicros
  | versionCycles
  | versionFailures
  | l1Cycles
  | l1Failures
  | viewCycles
  | viewFailures
  | valuesCollected
  deriving DecidableEq, Repr

namespace Counter

def all : List Counter :=
  [prepared, readOnlyPrepared, commits, readOnlyCommits, rollbacks, duplicatePrepares,
    transactionsCommitted, waits, waitMicros, versionCycles, versionFailures, l1Cycles, l1Failures,
    viewCycles, viewFailures, valuesCollected]

def name : Counter → String
  | prepared => "prepared"
  | readOnlyPrepared => "read_only_prepared"
  | commits => "commits"
  | readOnlyCommits => "read_only_commits"
  | rollbacks => "rollbacks"
  | duplicatePrepares => "duplicate_prepares"
  | transactionsCommitted => "transactions_committed"
  | waits => "waits"
  | waitMicros => "wait_micros"
  | versionCycles => "version_gc_cycles"
  | versionFailures => "version_gc_failures"
  | l1Cycles => "l1_gc_cycles"
  | l1Failures => "l1_gc_failures"
  | viewCycles => "view_gc_cycles"
  | viewFailures => "view_gc_failures"
  | valuesCollected => "values_collected"

def ofName? (s : String) : Option Counter := all.find? (·.name = s)

end Counter

inductive Notice where
  | logged (line : Line)
  | counted (counter : Counter) (n : Nat)
  deriving DecidableEq, Repr

namespace Notice

def one (c : Counter) : Notice := .counted c 1

def waited (micros : Nat) : List Notice := [one .waits, .counted .waitMicros micros]

def line? : Notice → Option Line
  | .logged l => some l
  | .counted .. => none

def lines (ns : List Notice) : List Line := ns.filterMap line?

end Notice

structure Metrics where
  counts : List (Counter × Nat) := Counter.all.map (·, 0)
  deriving DecidableEq, Repr, Inhabited

namespace Metrics

def get (m : Metrics) (c : Counter) : Nat := (m.counts.lookup c).getD 0

def add (m : Metrics) (c : Counter) (n : Nat) : Metrics :=
  ⟨m.counts.map fun (d, k) => (d, if d = c then (k + n) % UInt64.size else k)⟩

def note (m : Metrics) : Notice → Metrics
  | .counted c n => m.add c n
  | .logged _ => m

def noteAll (m : Metrics) (ns : List Notice) : Metrics := ns.foldl note m

def snapshot (m : Metrics) : List (String × Nat) := Counter.all.map fun c => (c.name, m.get c)

def toValue (m : Metrics) : Json.Value :=
  .record (m.snapshot.map fun (k, n) => (k, .natural n))

end Metrics

end Multiversion
