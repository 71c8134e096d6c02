import Multiversion.Observe.Event
import Multiversion.Observe.Metrics
import Multiversion.Queue.Arena
import Multiversion.Queue.Readiness

namespace Multiversion

structure Queue where
  /-- All entries in the order of their admission, those that have left the queue included. -/
  entries : Array Entry := #[]
  arena : Arena := {}
  index : List (TransactionId × Nat) := []
  tracking : Bool := false
  deriving Repr, Inhabited

namespace Queue

def entry (q : Queue) (n : Nat) : Entry := q.entries.getD n default

def order (q : Queue) (n : Nat) : Nat := (q.entry n).order

def update (q : Queue) (n : Nat) (f : Entry → Entry) : Queue :=
  { q with entries := q.entries.modify n f }

def toList (q : Queue) : List Entry := q.arena.toList.map q.entry

def size (q : Queue) : Nat := q.index.length

def isEmpty (q : Queue) : Bool := q.index.isEmpty

def slot? (q : Queue) (g : TransactionId) : Option Nat := q.index.lookup g

def find? (q : Queue) (g : TransactionId) : Option Nat :=
  (q.slot? g).bind fun i =>
    match q.arena.content i with
    | .entry n => some n
    | _ => none

def isSorted (q : Queue) : Bool :=
  let keys := q.arena.toList.map fun n => Key.entry (q.order n) n
  (keys.zip keys.tail).all fun (a, b) => !(decide (b < a))

def dropSlot (q : Queue) (i : Nat) : Queue :=
  { q with arena := (q.arena.unlink i).release i }

def grantReady (q : Queue) (now : Time) : Queue :=
  (Readiness.grants q.toList).foldl (fun q g => q.update g.admission (·.markReady g.sub now)) q

def remove (q : Queue) (g : TransactionId) : Queue × Option Nat :=
  match q.slot? g, q.find? g with
  | some i, some n =>
    let q := q.dropSlot i
    ({ q with index := q.index.filter (·.1 ≠ g) }.update n Entry.abort, some n)
  | _, _ => (q, none)

def enqueue (q : Queue) (e : Entry) : Queue :=
  let n := q.entries.size
  let q := { q with entries := q.entries.push { e with admission := n, tracked := q.tracking } }
  let (i, arena) := q.arena.alloc n
  { q with arena := arena.insertSorted q.order i, index := (e.id, i) :: q.index }

def duplicate (stale : Entry) : List Notice :=
  [.one .duplicatePrepares,
    .logged (Event.prepareDuplicate.warn
      [("gtx", stale.id.text), ("stale_version", stale.version.text)])]

/-- Queues a transaction at its tentative version. A second prepare of a queued transaction
    replaces its entry. -/
def prepare (q : Queue) (tx : Nat) (g : TransactionId) (v : Version) (order clock : Nat)
    (now : Time) : Queue × List Notice :=
  let fresh : Entry :=
    { tx, id := g, admission := 0, clock, version := v, order, createdAt := now }
  match q.remove g with
  | (q, none) => (q.enqueue fresh, [])
  | (q, some n) => ((q.enqueue fresh).grantReady now, duplicate (q.entry n))

def commit (q : Queue) (g : TransactionId) (v : Version) (order : Nat) (now : Time) :
    Queue × Option Nat × List Notice :=
  match q.slot? g, q.find? g with
  | some i, some n =>
    let q := q.update n (·.receive v order now)
    let (arena, moved) := q.arena.reposition q.order i
    let q := ({ q with arena }.grantReady now).update n Entry.holdBack
    let notices :=
      if moved then
        [.logged (Event.entryRepositioned.trace [("gtx", g.text), ("seq", toString order)])]
      else []
    (q, some n, notices)
  | _, _ => (q, none, [])

def rollback (q : Queue) (g : TransactionId) (now : Time) : Queue × Option Nat :=
  match q.remove g with
  | (q, some n) => (q.grantReady now, some n)
  | (q, none) => (q, none)

def readyPrefix (q : Queue) : List Nat := q.arena.toList.takeWhile fun n => (q.entry n).ready

def claim (q : Queue) (n : Nat) : Queue × Bool :=
  (q.update n fun e => e.claim.2, (q.entry n).claim.1)

def claimAll (q : Queue) : List Nat → Queue × List Nat
  | [] => (q, [])
  | n :: ns =>
    let (q, free) := q.claim n
    let (q, won) := q.claimAll ns
    (q, if free then n :: won else won)

def claimUpTo (q : Queue) : Nat → List Nat → Queue × List Nat
  | 0, _ => (q, [])
  | _, [] => (q, [])
  | limit + 1, n :: ns =>
    let (q, free) := q.claim n
    if free then
      let (q, won) := q.claimUpTo limit ns
      (q, n :: won)
    else q.claimUpTo (limit + 1) ns

def markCommitted (q : Queue) (n : Nat) (now : Time) : Queue :=
  q.update n (·.markCommitted now)

def markAll (q : Queue) (ns : List Nat) (now : Time) : Queue :=
  ns.foldl (fun q n => q.markCommitted n now) q

/-- Drops the head of the line if it is committed. The index may know a later entry of the same
    transaction, which stays. -/
def dropHead? (q : Queue) : Option Queue :=
  let i := q.arena.next Arena.head
  match q.arena.content i with
  | .entry n =>
    let e := q.entry n
    if e.committed then
      let q := q.dropSlot i
      some { q with index := q.index.filter fun (g, j) => !(g = e.id && j = i) }
    else none
  | _ => none

def dropCommitted (q : Queue) : Nat → Queue × Nat
  | 0 => (q, 0)
  | fuel + 1 =>
    match q.dropHead? with
    | some q =>
      let (q, k) := q.dropCommitted fuel
      (q, k + 1)
    | none => (q, 0)

def detach (q : Queue) (now : Time) : Queue × Nat :=
  let (q, k) := q.dropCommitted q.arena.length
  (q.grantReady now, k)

def text (q : Queue) : String :=
  let es := q.toList
  s!"queue size={es.length}\n" ++
    String.join (es.zipIdx.map fun (e, i) => s!"  [{i}] {e.text}\n")

end Queue

end Multiversion
