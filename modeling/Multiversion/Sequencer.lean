import Multiversion.CommitLog
import Multiversion.InFlight
import Multiversion.Transaction.Live

namespace Multiversion

structure Sequencer where
  position : Position
  log : CommitLog
  inFlight : InFlight := {}
  live : Live := {}
  lastPrepared : Nat
  deriving Repr

namespace Sequencer

def onLog (p : Position) (log : CommitLog) (tracking : Bool) : Sequencer where
  position := p
  log := log
  inFlight := { queue := { tracking } }
  lastPrepared := p.seq log.current

def queue (s : Sequencer) : Queue := s.inFlight.queue

def setQueue (s : Sequencer) (queue : Queue) : Sequencer :=
  { s with inFlight := { s.inFlight with queue } }

def transaction (s : Sequencer) (n : Nat) : Transaction := s.inFlight.transaction n

def edit (s : Sequencer) (n : Nat) (f : Transaction → Transaction) : Sequencer :=
  { s with inFlight := s.inFlight.edit n f }

def visible (s : Sequencer) : Nat := s.position.seq s.log.current

/-- The snapshot is taken and pinned in one step. -/
def begin (s : Sequencer) (g : TransactionId) : Nat × Sequencer :=
  let (n, inFlight) := s.inFlight.start (Transaction.start g s.log.current)
  (n, { s with inFlight, live := s.live.register g s.log.current })

def finish (s : Sequencer) (g : TransactionId) : Bool × Sequencer :=
  (s.live.holds g, { s with live := s.live.unregister g })

/-- Sequences stay below `2 ^ 64 - 1`, so that the next one still fits into 64 bits. -/
def nextSequence (s : Sequencer) : Nat := max s.lastPrepared s.visible + 1

/-- Stamps the transaction and queues it under one lock, so that admission follows sequence. -/
def prepare (s : Sequencer) (n : Nat) (now : Time) : Sequencer × List Notice :=
  let seq := s.nextSequence
  let s' := s.edit n (·.stamp (s.position.stamp s.log.current seq))
  let (inFlight, notices) := s'.inFlight.prepare n seq s.visible now
  ({ s' with inFlight, lastPrepared := seq }, notices ++ [.one .prepared])

def prepareReadOnly (s : Sequencer) (n : Nat) : Sequencer × List Notice :=
  (s.edit n (·.stamp s.log.current), [.one .readOnlyPrepared])

/-- The first half of a commit: the counter learns the sequence. -/
def raise (s : Sequencer) (v : Version) : Sequencer :=
  { s with lastPrepared := max s.lastPrepared (s.position.seq v) }

/-- The second half: the entry gets its final version. Without an entry the version only advances
    what is visible. -/
def settle (s : Sequencer) (g : TransactionId) (v : Version) (now : Time) :
    Sequencer × Option Nat × List Notice :=
  match s.inFlight.commit g v (s.position.seq v) now with
  | (inFlight, some n, notices) => ({ s with inFlight }, some n, notices ++ [.one .commits])
  | (_, none, _) =>
    ({ s with log := s.log.update s.position v }, none,
      [.one .readOnlyCommits,
        .logged (Event.commitWithoutEntry.trace [("gtx", g.text), ("version", v.text)])])

def commit (s : Sequencer) (g : TransactionId) (v : Version) (now : Time) :
    Sequencer × Option Nat × List Notice :=
  (s.raise v).settle g v now

/-- A final version: what the transaction is stamped with, joined with what a peer has seen, and the
    sequence raised by `bump`. -/
def finalVersion (s : Sequencer) (n bump : Nat) (peer : Option Version) : Version :=
  let tentative := (s.transaction n).version
  let base := peer.elim tentative fun v => s.position.join tentative [v]
  s.position.stamp base (s.position.seq tentative + bump)

def rollback (s : Sequencer) (g : TransactionId) (now : Time) : Sequencer × List Notice :=
  match s.inFlight.rollback g now with
  | (inFlight, some _) =>
    ({ s with inFlight },
      [.one .rollbacks, .logged (Event.transactionRolledBack.trace [("gtx", g.text)])])
  | (_, none) => (s, [])

def readyPrefix (s : Sequencer) : List Nat := s.queue.readyPrefix

def claimAll (s : Sequencer) (ns : List Nat) : Sequencer × List Nat :=
  let (queue, won) := s.queue.claimAll ns
  (s.setQueue queue, won)

def claimUpTo (s : Sequencer) (limit : Option Nat) (ns : List Nat) : Sequencer × List Nat :=
  match limit with
  | some k =>
    let (queue, won) := s.queue.claimUpTo k ns
    (s.setQueue queue, won)
  | none => s.claimAll ns

def records (s : Sequencer) (ns : List Nat) : List Committed := ns.map s.inFlight.record

def insertAll (s : Sequencer) (txs : List Committed) : Sequencer :=
  { s with log := s.log.insertAll s.position txs }

def markAll (s : Sequencer) (ns : List Nat) (now : Time) : Sequencer :=
  s.setQueue (s.queue.markAll ns now)

def detach (s : Sequencer) (now : Time) : Sequencer × Nat :=
  let (queue, k) := s.queue.detach now
  (s.setQueue queue, k)

/-- Publishes an applied batch: the log first, then the waiters of the entries, then the line. -/
def publish (s : Sequencer) (txs : List Committed) (ns : List Nat) (now : Time) :
    Sequencer × List Notice :=
  let (s, detached) := ((s.insertAll txs).markAll ns now).detach now
  (s,
    [.counted .transactionsCommitted txs.length,
      .logged (Event.transactionsCommitted.trace
        [("count", toString txs.length), ("detached", toString detached)])])

end Sequencer

end Multiversion
