import Multiversion.Observe.Event

/-!
A message that finds the channel full is dropped. The stop flag is shared with the collector, so it
is an argument of the steps and no part of the worker.
-/

namespace Multiversion

inductive Wake where
  | triggered
  | idle
  deriving DecidableEq, Repr

inductive WorkerMessage where
  | trigger
  | shutdown
  deriving DecidableEq, Repr

inductive Phase where
  /-- Before the look at the stop flag that opens each round. -/
  | checking
  | receiving
  /-- Woken, before the second look at the stop flag. -/
  | woken (w : Wake)
  /-- Past the second look; nothing keeps the cycle from its begin any more. -/
  | entering (w : Wake)
  | running (w : Wake)
  | stopped
  deriving DecidableEq, Repr

structure Worker where
  name : String
  idleMs : Nat
  channel : Option WorkerMessage := none
  phase : Phase := .checking
  slept : Nat := 0
  deriving DecidableEq, Repr

namespace Worker

def send (w : Worker) (m : WorkerMessage) : Worker := { w with channel := w.channel.or (some m) }

def trigger (w : Worker) : Worker := w.send .trigger

def sendShutdown (w : Worker) : Worker := w.send .shutdown

def step? (w : Worker) (stop : Bool) : Option Worker :=
  match w.phase with
  | .checking => some { w with phase := if stop then .stopped else .receiving, slept := 0 }
  | .receiving =>
    match w.channel with
    | some .trigger => some { w with channel := none, phase := .woken .triggered }
    | some .shutdown => some { w with channel := none, phase := .stopped }
    | none => none
  | .woken k => some { w with phase := if stop then .stopped else .entering k }
  | .entering k => some { w with phase := .running k }
  | .running _ => none
  | .stopped => none

def isBlocked (w : Worker) : Bool := w.phase = .receiving && w.channel = none

def isRunning (w : Worker) : Bool := w.phase ≠ .stopped

def sleep (w : Worker) (ms : Nat) : Worker :=
  if w.isBlocked then
    let slept := w.slept + ms
    if w.idleMs ≤ slept then { w with phase := .woken .idle, slept } else { w with slept }
  else w

/-- A round takes four steps at most. -/
def advance (w : Worker) (stop : Bool) : Worker :=
  let next (w : Worker) := (w.step? stop).getD w
  next (next (next (next w)))

def cycle? (w : Worker) : Option Wake :=
  match w.phase with
  | .running k => some k
  | _ => none

def finishCycle (w : Worker) : Worker :=
  match w.phase with
  | .running _ => { w with phase := .checking }
  | _ => w

def stoppedLine (w : Worker) : Line := Event.workerStopped.info [("worker", w.name)]

end Worker

end Multiversion
