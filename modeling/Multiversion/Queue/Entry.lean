import Multiversion.Transaction
import Multiversion.Wait

namespace Multiversion

abbrev Time := Nat

structure Entry where
  tx : Nat
  id : TransactionId
  /-- Place in the order of admission; it decides between equal sequences. -/
  admission : Nat
  /-- The visible sequence at the time of the prepare. -/
  clock : Nat
  version : Version
  /-- The sequence that the version had when it was set; the queue is sorted by it. -/
  order : Nat
  /-- Its number within its batch. A batch stays below `2 ^ 32` entries. -/
  sub : Nat := 0
  received : Bool := false
  ready : Bool := false
  claimed : Bool := false
  committed : Bool := false
  waited : Bool := false
  pending : Bool := false
  createdAt : Time
  receivedAt : Option Time := none
  readyAt : Option Time := none
  committedAt : Option Time := none
  latch : Latch := {}
  notifier : Notifier := {}
  tracked : Bool := false
  deriving DecidableEq, Repr, Inhabited

namespace Entry

/-- The final version replaces the tentative one, and a later one replaces it again. -/
def receive (e : Entry) (v : Version) (order : Nat) (now : Time) : Entry :=
  { e with
    version := v
    order := order
    received := true
    receivedAt := if e.received then e.receivedAt else some now }

def markReady (e : Entry) (sub : Nat) (now : Time) : Entry :=
  if e.ready then e
  else
    { e with
      ready := true
      sub := sub
      pending := false
      readyAt := some now
      latch := e.latch.release.2 }

def holdBack (e : Entry) : Entry := if e.ready then e else { e with pending := true }

def abort (e : Entry) : Entry :=
  { e with latch := e.latch.release.2, notifier := (e.notifier.decide .aborted).2 }

def claim (e : Entry) : Bool × Entry := (!e.claimed, { e with claimed := true })

def markCommitted (e : Entry) (now : Time) : Entry :=
  if e.committed then e
  else
    { e with
      committed := true
      committedAt := some now
      notifier := (e.notifier.decide .committed).2 }

def isAborted (e : Entry) : Bool := e.notifier.isAborted

def record (e : Entry) (ts : Transactions) : Committed :=
  ⟨e.id, e.version, (ts.get e.tx).writes, e.sub, e.clock⟩

def text (e : Entry) : String :=
  s!"{e.id.text} version={e.version.text} seq={e.order} sub={e.sub} clock={e.clock}" ++
    s!" commit_received={e.received} ready={e.ready} committing={e.claimed}" ++
    s!" committed={e.committed} pending={e.pending}"

end Entry

end Multiversion
