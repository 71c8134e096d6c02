import Multiversion.Position
import Multiversion.Timeline
import Multiversion.Transaction

namespace Multiversion

structure LogEntry where
  version : Version
  sub : Nat
  deriving DecidableEq, Repr, Inhabited

structure CommitLog where
  current : Version
  history : List LogEntry
  floor : Version
  deriving DecidableEq, Repr, Inhabited

namespace LogEntry

def seq (p : Position) (e : LogEntry) : Nat := p.seq e.version

def rank (p : Position) (e : LogEntry) : Rank := ⟨e.seq p, e.sub⟩

end LogEntry

namespace CommitLog

def empty (p : Position) : CommitLog := ⟨p.zero, [], p.zero⟩

def update (log : CommitLog) (p : Position) (v : Version) : CommitLog :=
  { log with current := p.join log.current [v] }

def insert (log : CommitLog) (p : Position) (tx : Committed) : CommitLog :=
  { log.update p tx.version with
    history := Timeline.insert (LogEntry.rank p) ⟨tx.version, tx.sub⟩ log.history }

def insertAll (log : CommitLog) (p : Position) (txs : List Committed) : CommitLog :=
  txs.foldl (·.insert p ·) log

def available (log : CommitLog) (p : Position) (v : Version) : Version :=
  match (Timeline.upTo (LogEntry.seq p) (p.seq v) log.history).getLast? with
  | some e => e.version
  | none => log.floor

/-- Drops what `floor` has superseded. The version returned is the one that readers still need: a
    collection must go no further than it. -/
def prune (log : CommitLog) (p : Position) (floor : Version) : CommitLog × Version :=
  if Timeline.upTo (LogEntry.seq p) (p.seq floor) log.history = [] then (log, floor)
  else
    match Timeline.prune (LogEntry.seq p) (p.seq floor) log.history with
    | [] => (log, floor)
    | kept :: later =>
      let needed := p.meet kept.version [floor]
      ({ log with history := kept :: later, floor := needed }, needed)

def oldestView (log : CommitLog) : Nat :=
  log.history.foldl (fun n e => min n e.version.view) log.current.view

def reached (log : CommitLog) (p : Position) (seq : Nat) : Bool := seq ≤ p.seq log.current

def sequences (log : CommitLog) (p : Position) : List Nat := log.history.map (LogEntry.seq p)

end CommitLog

end Multiversion
