import Multiversion.Gc.Worker

namespace Multiversion

structure WorkerRun where
  worker : Worker
  stop : Bool := false
  wakes : List Wake := []
  finished : Nat := 0
  deriving DecidableEq, Repr

namespace WorkerRun

def trigger (r : WorkerRun) : WorkerRun := { r with worker := r.worker.trigger }

/-- The flag is raised before the message is sent. -/
def shutdown (r : WorkerRun) : WorkerRun :=
  { r with stop := true, worker := r.worker.sendShutdown }

def advance (r : WorkerRun) : WorkerRun :=
  match r.worker.cycle? with
  | some _ => r
  | none =>
    let worker := r.worker.advance r.stop
    { r with worker, wakes := r.wakes ++ worker.cycle?.toList }

def runCycles (r : WorkerRun) : Nat → WorkerRun × Nat
  | 0 => (r.advance, 0)
  | permits + 1 =>
    let r := r.advance
    match r.worker.cycle? with
    | some _ =>
      runCycles { r with worker := r.worker.finishCycle, finished := r.finished + 1 } permits
    | none => (r, permits + 1)

def sleep (r : WorkerRun) (ms : Nat) : WorkerRun := { r with worker := r.worker.sleep ms }

end WorkerRun

end Multiversion
