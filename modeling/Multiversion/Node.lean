import Multiversion.Cluster.View
import Multiversion.Config
import Multiversion.Gc.Message
import Multiversion.Gc.Worker
import Multiversion.Sequencer
import Multiversion.Store

namespace Multiversion

inductive Collector where
  | version
  | l1
  | view
  deriving DecidableEq, Repr

namespace Collector

def all : List Collector := [version, l1, view]

def name : Collector → String
  | version => "version-gc"
  | l1 => "l1-gc"
  | view => "view-gc"

def enabled (c : Config) : Collector → Bool
  | version => c.versionGc.enabled
  | l1 => c.l1Gc.enabled && !c.fullyReplicated
  | view => c.viewGc.enabled

def idleMs (c : Config) : Collector → Nat
  | version => c.versionGc.maxIdleMs
  | l1 => c.l1Gc.intervalMs
  | view => c.viewGc.backoffMs

end Collector

structure Node where
  address : Address
  config : Config
  sequencer : Sequencer
  data : Store := {}
  l1 : Store := {}
  views : ViewRegistry := {}
  ids : IdSource
  applied : List Nat := []
  /-- Transactions committed since the last version cycle began. -/
  since : Nat := 0
  /-- Whether a view cycle has failed and waits for another attempt. -/
  retryView : Bool := false
  stopped : Bool := false
  workers : List (Collector × Worker) := []
  metrics : Metrics := {}
  deriving Repr

namespace Node

def create (address : Address) (config : Config) : Node :=
  let p := Position.of 0 0 1
  { address
    config
    sequencer := Sequencer.onLog p (CommitLog.empty p) config.trackWaiting
    ids := { origin := address } }

def position (n : Node) : Position := n.sequencer.position

def log (n : Node) : CommitLog := n.sequencer.log

def queue (n : Node) : Queue := n.sequencer.queue

def setLog (n : Node) (log : CommitLog) : Node :=
  { n with sequencer := { n.sequencer with log } }

def learn (n : Node) (v : Version) : Node := n.setLog (n.log.update n.position v)

def count (n : Node) (notices : List Notice) : Node :=
  { n with metrics := n.metrics.noteAll notices }

def adopt (n : Node) (sequencer : Sequencer) (notices : List Notice) : Node :=
  { n with sequencer }.count notices

def begin (n : Node) : Nat × Node :=
  let (g, ids) := n.ids.draw
  let (tx, sequencer) := n.sequencer.begin g
  (tx, { n with ids, sequencer })

def enlist (n : Node) (tx : Transaction) : Nat × Node :=
  let (t, inFlight) := n.sequencer.inFlight.enlist tx
  (t, { n with sequencer := { n.sequencer with inFlight } })

def renew (n : Node) (tx : Transaction) : Node :=
  { n with sequencer := { n.sequencer with inFlight := n.sequencer.inFlight.renew tx } }

def finish (n : Node) (g : TransactionId) : Node :=
  { n with sequencer := (n.sequencer.finish g).2 }

def transaction (n : Node) (tx : Nat) : Transaction := n.sequencer.transaction tx

def write (n : Node) (tx : Nat) (w : Write) : Node :=
  { n with sequencer := n.sequencer.edit tx (·.add w) }

def prepare (n : Node) (tx : Nat) (now : Time) : Node × List Notice :=
  let (s, notices) :=
    if (n.transaction tx).modifies then n.sequencer.prepare tx now
    else n.sequencer.prepareReadOnly tx
  (n.adopt s notices, notices)

def raise (n : Node) (v : Version) : Node := { n with sequencer := n.sequencer.raise v }

def settle (n : Node) (g : TransactionId) (v : Version) (now : Time) :
    Node × Option Nat × List Notice :=
  let (s, e, notices) := n.sequencer.settle g v now
  (n.adopt s notices, e, notices)

def commit (n : Node) (g : TransactionId) (v : Version) (now : Time) :
    Node × Option Nat × List Notice :=
  (n.raise v).settle g v now

def rollback (n : Node) (g : TransactionId) (now : Time) : Node × List Notice :=
  let (s, notices) := n.sequencer.rollback g now
  (n.adopt s notices, notices)

def read (n : Node) (snapshot : Version) (key : String) : Option Bytes :=
  n.data.read n.position key snapshot

def worker? (n : Node) (c : Collector) : Option Worker := n.workers.lookup c

def editWorker (n : Node) (c : Collector) (f : Worker → Worker) : Node :=
  { n with workers := n.workers.map fun (d, w) => (d, if d = c then f w else w) }

def trigger (n : Node) (c : Collector) : Node := n.editWorker c Worker.trigger

def notifyCommitted (n : Node) (k : Nat) : Node :=
  let n := { n with since := (n.since + k) % UInt64.size }
  if n.config.versionGc.commitThreshold < n.since then n.trigger .version else n

def claimReady (n : Node) : Node × List Nat :=
  let (s, won) := n.sequencer.claimAll n.sequencer.readyPrefix
  ({ n with sequencer := s }, won)

def applyOne (n : Node) (tx : Committed) : Node :=
  { n with
    data := n.data.apply n.position tx
    applied := n.applied ++ [n.position.seq tx.version] }

/-- Takes over a transaction that was applied before, without counting it as one of its own. -/
def restore (n : Node) (tx : Committed) : Node :=
  { n.setLog (n.log.insertAll n.position [tx]) with data := n.data.apply n.position tx }

def publish (n : Node) (txs : List Committed) (won : List Nat) (now : Time) :
    Node × List Notice :=
  let (s, notices) := n.sequencer.publish txs won now
  ((n.adopt s notices).notifyCommitted txs.length, notices)

def applyReady (n : Node) (now : Time) : Node × List Committed × List Notice :=
  match n.claimReady with
  | (n, []) => (n, [], [])
  | (n, won) =>
    let txs := n.sequencer.records won
    let (n, notices) := (txs.foldl applyOne n).publish txs won now
    (n, txs, notices)

def cache (n : Node) (tx : Committed) : Node := { n with l1 := n.l1.apply n.position tx }

def install (n : Node) (v : View) : Node :=
  let s :=
    match v.indexOf n.address with
    | some i => { n.sequencer with position := Position.of i v.id v.members.length }
    | none => n.sequencer
  let n := { n with sequencer := s, views := n.views.install v }
  if n.config.viewGc.enabled && v.coordinator = some n.address then n.trigger .view else n

/-- What the node's readers pin, or what the next reader would. -/
def localMinimum (n : Node) : Version := n.sequencer.live.minimum n.position n.log.current

def purgeViews (n : Node) (least : Nat) : Node × Nat :=
  let (views, removed) := n.views.purge least
  ({ n with views }, removed)

def pruneLog (n : Node) (floor : Version) : Node × Version :=
  let (log, needed) := n.log.prune n.position floor
  (n.setLog log, needed)

def collectData (n : Node) (minimum : Version) : Node × Nat :=
  let (data, removed) := n.data.collect n.position minimum
  ({ n with data }, removed)

def collectL1 (n : Node) (minimum : Version) : Node × Nat :=
  let (l1, removed) := n.l1.collect n.position minimum
  ({ n with l1 }, removed)

def handle (n : Node) : Request → Node × Response
  | .minimumVersion => (n, .version n.localMinimum)
  | .minimumView => (n, .view n.log.oldestView)
  | .purge least => ((n.purgeViews least).1, .acknowledged)

def stoppedNotice (w : Worker) : Notice := .logged w.stoppedLine

def spawn (n : Node) (c : Collector) : Node × List Notice :=
  if c.enabled n.config && (n.worker? c).isNone then
    let w := ({ name := c.name, idleMs := c.idleMs n.config } : Worker).advance n.stopped
    ({ n with workers := n.workers ++ [(c, w)] }, if w.isRunning then [] else [stoppedNotice w])
  else (n, [])

def running (n : Node) : List String :=
  (Collector.all.filterMap n.worker?).filterMap fun w => if w.isRunning then some w.name else none

def start (n : Node) : Node × List Notice :=
  let (n, ns) := Collector.all.foldl
    (fun (n, ns) c => let (n, ms) := n.spawn c; (n, ns ++ ms)) (n, ([] : List Notice))
  (n, ns ++ [.logged (Event.nodeStarted.info
    [("node", n.address.short), ("workers", ",".intercalate n.running)])])

/-- Ends the collectors one after the other. One that has ended before says nothing more, and one
    that runs a cycle has its say afterwards. -/
def stopCollectors (n : Node) : Node × List Notice :=
  let live := (Collector.all.filterMap n.worker?).filter fun w => w.isRunning && w.cycle?.isNone
  ({ n with stopped := true, workers := [] }, live.map stoppedNotice)

def shutdown (n : Node) : Node × List Notice :=
  let (n, ns) := n.stopCollectors
  (n, ns ++ [.logged (Event.nodeStopped.info [("node", n.address.short)])])

end Node

end Multiversion
