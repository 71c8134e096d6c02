import Multiversion.Gc.Gather
import Multiversion.Node
import Multiversion.Observe.Scope

namespace Multiversion

/-- How a collector reaches its own node and the other members. Asking may also change the state
    on which the node stands, and what is noticed meanwhile is reported. -/
structure Transport (σ : Type) where
  node : σ → Node
  update : σ → (Node → Node) → σ
  coordinates : σ → Bool
  ask : σ → Request → σ × List (Address × Reply) × List Notice

namespace Cycle

variable {σ : Type}

def gatherFloor (t : Transport σ) (s : σ) : σ × Except GcError Version × List Notice :=
  let own := (t.node s).localMinimum
  let (s, replies, asked) := t.ask s .minimumVersion
  let n := t.node s
  match Gather.answers Response.version? n.config.rpcTimeoutMs replies with
  | (.error e, heard) => (s, .error e, asked ++ heard)
  | (.ok vs, heard) =>
    match n.position.meet? (own :: vs) with
    | some floor => (s, .ok floor, asked ++ heard)
    | none => (s, .error (.noVersion "no minimum visible version gathered"), asked ++ heard)

def close (t : Transport σ) (s : σ) (scope : Scope) (elapsedMs : Nat) (done failed : Counter)
    (collected : Nat) (fields : List (String × String)) (result : Except GcError GcOutcome)
    (heard : List Notice) : σ × Except GcError GcOutcome × List Notice :=
  let notices :=
    match result with
    | .ok _ =>
      [.one done, .counted .valuesCollected collected,
        .logged (scope.closing (.complete fields elapsedMs))]
    | .error e => [.one failed, .logged (scope.closing (.fail e.message))]
  (t.update s (·.count notices), result, .logged scope.opening :: heard ++ notices)

def versionScope : Scope := { name := "VERSION_GC" }

def l1Scope : Scope := { name := "L1_GC" }

def viewScope : Scope := { name := "VIEW_GC" }

def closeVersions (t : Transport σ) (s : σ) (scope : Scope) (elapsedMs : Nat)
    (done failed : Counter) (result : Except GcError (Version × Nat)) (heard : List Notice) :
    σ × Except GcError GcOutcome × List Notice :=
  match result with
  | .ok (floor, removed) =>
    close t s scope elapsedMs done failed removed
      [("floor", floor.text), ("removed", toString removed)] (.ok (.versions floor removed)) heard
  | .error e => close t s scope elapsedMs done failed 0 [] (.error e) heard

def versionFloor (t : Transport σ) (s : σ) : σ × Except GcError Version × List Notice :=
  if (t.node s).stopped then (s, .error .interrupted, [])
  else
    match gatherFloor t s with
    | (s, .ok floor, heard) =>
      if (t.node s).stopped then (s, .error .interrupted, heard) else (s, .ok floor, heard)
    | (s, .error e, heard) => (s, .error e, heard)

/-- The log goes first: the container must keep what the log still answers. -/
def versions (t : Transport σ) (elapsedMs : Nat) (s : σ) :
    σ × Except GcError GcOutcome × List Notice :=
  let s := t.update s fun n => { n with since := 0 }
  match versionFloor t s with
  | (s, .ok floor, heard) =>
    let (n, needed) := (t.node s).pruneLog floor
    let (n, removed) := n.collectData needed
    closeVersions t (t.update s fun _ => n) versionScope elapsedMs .versionCycles .versionFailures
      (.ok (needed, removed)) heard
  | (s, .error e, heard) =>
    closeVersions t s versionScope elapsedMs .versionCycles .versionFailures (.error e) heard

def l1 (t : Transport σ) (elapsedMs : Nat) (s : σ) : σ × Except GcError GcOutcome × List Notice :=
  let n := t.node s
  if n.config.fullyReplicated then (s, .ok (.skipped "fully replicated"), [])
  else if n.stopped then
    closeVersions t s l1Scope elapsedMs .l1Cycles .l1Failures (.error .interrupted) []
  else
    let floor := n.localMinimum
    let (n, removed) := n.collectL1 floor
    closeVersions t (t.update s fun _ => n) l1Scope elapsedMs .l1Cycles .l1Failures
      (.ok (floor, removed)) []

def leastView (t : Transport σ) (s : σ) : σ × Except GcError Nat × List Notice :=
  let own := (t.node s).log.oldestView
  let (s, replies, asked) := t.ask s .minimumView
  let n := t.node s
  match Gather.answers Response.view? n.config.rpcTimeoutMs replies with
  | (.error e, heard) => (s, .error e, asked ++ heard)
  | (.ok ids, heard) =>
    if n.stopped then (s, .error .interrupted, asked ++ heard)
    else (s, .ok (ids.foldl min own), asked ++ heard)

def purgeAll (t : Transport σ) (s : σ) (least : Nat) : σ × Except GcError Nat × List Notice :=
  let (n, removed) := (t.node s).purgeViews least
  let (s, replies, asked) := t.ask (t.update s fun _ => n) (.purge least)
  match Gather.answers Response.acknowledged? (t.node s).config.rpcTimeoutMs replies with
  | (.error e, heard) => (s, .error e, asked ++ heard)
  | (.ok _, heard) => (s, .ok removed, asked ++ heard)

def purgeUnreferenced (t : Transport σ) (s : σ) : σ × Except GcError (Nat × Nat) × List Notice :=
  if (t.node s).stopped then (s, .error .interrupted, [])
  else
    match leastView t s with
    | (s, .error e, heard) => (s, .error e, heard)
    | (s, .ok least, heard) =>
      let (s, removed, told) := purgeAll t s least
      (s, removed.map (least, ·), heard ++ told)

def closeViews (t : Transport σ) (s : σ) (elapsedMs : Nat)
    (result : Except GcError (Nat × Nat)) (heard : List Notice) :
    σ × Except GcError GcOutcome × List Notice :=
  match result with
  | .ok (least, removed) =>
    close t (t.update s fun n => { n with retryView := false }) viewScope elapsedMs .viewCycles
      .viewFailures 0 [("min_view_id", toString least), ("removed", toString removed)]
      (.ok (.views least removed)) heard
  | .error e =>
    close t (t.update s fun n => { n with retryView := true }) viewScope elapsedMs .viewCycles
      .viewFailures 0 [] (.error e) heard

def views (t : Transport σ) (elapsedMs : Nat) (s : σ) :
    σ × Except GcError GcOutcome × List Notice :=
  if t.coordinates s then
    let (s, result, heard) := purgeUnreferenced t s
    closeViews t s elapsedMs result heard
  else
    (t.update s fun n => { n with retryView := false }, .ok (.skipped "not coordinator"), [])

end Cycle

end Multiversion
