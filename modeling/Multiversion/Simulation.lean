import Multiversion.Simulation.Report
import Multiversion.Simulation.Thread

/-!
A workload run over a cluster. A schedule says whose turn it is, a thread's or a collector's; what
the schedule leaves undone the threads do one after the other. Then every node is drained, the
nodes learn each other's versions, and the collectors run a cycle of each kind.
-/

namespace Multiversion

namespace Simulation

structure Options where
  nodes : Nat := 3
  transactions : Nat := 1000
  threads : Nat := 4
  seed : Nat := 42
  config : Config := {}
  deriving DecidableEq, Repr

inductive Turn where
  | thread (t : Nat)
  | collector (node : Nat) (c : Collector)
  | millisecond
  deriving DecidableEq, Repr

structure Chance where
  addresses : Nat → Address
  dice : Dice
  schedule : List Turn

namespace Chance

def turn (o : Options) (k : Nat) : Turn :=
  let n := Dice.word o.seed [k]
  if k % 16 = 15 then .collector (n / 3) (Collector.all.getD (n % 3) .version)
  else .thread (n % max o.threads 1)

def ofSeed (o : Options) (addresses : Nat → Address) : Chance where
  addresses
  dice := Dice.ofSeed o.seed
  schedule := (List.range (10 * o.transactions)).map (turn o)

end Chance

end Simulation

structure Simulation where
  seats : Seats
  cluster : Cluster
  threads : List Thread
  notices : Array Notice := #[]
  deriving Repr

namespace Simulation

def note (s : Simulation) (notices : List Notice) : Simulation :=
  { s with notices := s.notices ++ notices }

def onNode (s : Simulation) (a : Address) (f : Node → Node × List Notice) : Simulation :=
  match s.cluster.node? a with
  | some n => { s with cluster := s.cluster.editNode a fun _ => (f n).1 }.note (f n).2
  | none => s

def nodes (s : Simulation) : List Node := s.seats.filterMap s.cluster.node?

def start (o : Options) (ch : Chance) : Simulation :=
  let seats := (List.range (max o.nodes 1)).map ch.addresses
  let (cluster, notices) := (seats.foldl (fun c a => c.join a o.config) ({} : Cluster)).install
  let threads := (Workload.ofDice ch.dice o.transactions (max o.threads 1)).map fun calls =>
    ({ calls } : Thread)
  seats.foldl (fun s a => s.onNode a Node.start)
    { seats, cluster, threads, notices := notices.toArray }

def putThread (s : Simulation) (i : Nat) (r : Cluster × Thread × List Notice) : Simulation :=
  { s with cluster := r.1, threads := s.threads.set i r.2.1 }.note r.2.2

def putCluster (s : Simulation) (r : Cluster × List Notice) : Simulation :=
  { s with cluster := r.1 }.note r.2

def take (s : Simulation) : Turn → Simulation
  | .thread i =>
    match s.threads[i]? with
    | some t => s.putThread i (t.turn s.seats s.cluster)
    | none => s
  | .collector i k => s.putCluster (s.cluster.advance (s.seats.at i) k)
  | .millisecond => s.putCluster s.cluster.tick

def complete (s : Simulation) (i : Nat) : Simulation :=
  match s.threads[i]? with
  | some t => s.putThread i (t.complete s.seats s.cluster)
  | none => s

def runThreads (s : Simulation) (schedule : List Turn) : Simulation :=
  (List.range s.threads.length).foldl complete (schedule.foldl take s)

/-- Applies until nothing is ready; each round claims an entry at least. -/
def drain : Nat → Node → Node × List Notice
  | 0, n => (n, [])
  | fuel + 1, n =>
    match n.applyReady 0 with
    | (n, [], ns) => (n, ns)
    | (n, _, ns) =>
      let (n, ms) := drain fuel n
      (n, ns ++ ms)

def drainAll (s : Simulation) : Simulation :=
  s.seats.foldl (fun s a => s.onNode a fun n => drain (n.queue.size + 1) n) s

def exchange (s : Simulation) : Simulation :=
  let versions := s.nodes.map fun n => n.log.current
  s.seats.foldl (fun s a => s.onNode a fun n => (versions.foldl Node.learn n, [])) s

def cycle (run : Cluster → Cluster × Except GcError GcOutcome × List Notice) :
    Simulation × Except GcError (List GcOutcome) → Simulation × Except GcError (List GcOutcome)
  | (s, .ok outcomes) =>
    let (cluster, result, notices) := run s.cluster
    ({ s with cluster }.note notices, result.map fun o => outcomes ++ [o])
  | (s, .error e) => (s, .error e)

def collect (s : Simulation) : Simulation × Except GcError (List GcOutcome) :=
  let each r a := cycle (·.l1Gc a 0) (cycle (·.versionGc a 0) r)
  cycle (·.viewGc (s.seats.at 0) 0) (s.seats.foldl each (s, .ok []))

def shutdown (s : Simulation) : Simulation := s.seats.foldl (fun s a => s.onNode a Node.shutdown) s

def abandon (s : Simulation) : Simulation :=
  s.seats.foldl (fun s a => s.onNode a Node.stopCollectors) s

def report (s : Simulation) (o : Options) (gc : List GcOutcome) : Report where
  seed := o.seed
  transactions := o.transactions
  committed := s.threads.foldl (fun k t => k + t.committed) 0
  rolledBack := s.threads.foldl (fun k t => k + t.rolledBack) 0
  gc := gc
  nodes := s.nodes.map NodeReport.ofNode
  elapsedMs := 0

def run (o : Options) (ch : Chance) : Except GcError Report × List Notice :=
  match (((start o ch).runThreads ch.schedule).drainAll).exchange.collect with
  | (s, .ok gc) =>
    let s := s.shutdown
    (.ok (s.report o gc), s.notices.toList)
  | (s, .error e) => (.error e, s.abandon.notices.toList)

end Simulation

end Multiversion
