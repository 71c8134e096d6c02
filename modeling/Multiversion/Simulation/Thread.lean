import Multiversion.Cluster
import Multiversion.Simulation.Workload

namespace Multiversion

abbrev Seats := List Address

def Seats.at (seats : Seats) (i : Nat) : Address := seats.getD (i % seats.length) default

structure Thread where
  calls : List Call
  begun : List Nat := []
  version : Version := ⟨0, 0, []⟩
  applied : List Committed := []
  keeper : Nat := 0
  committed : Nat := 0
  rolledBack : Nat := 0
  deriving Repr

namespace Thread

def handle (t : Thread) (tx : Nat) : Nat := t.begun.getD tx 0

/-- What a call does to its node and to the thread; `visible` is what each member has visible. -/
def act (t : Thread) (n : Node) (visible : Nat → Option Version) :
    Action → Thread × Node × List Notice
  | .begin =>
    let (tx, n) := n.begin
    ({ t with begun := t.begun ++ [tx] }, n, [])
  | .write tx w => (t, n.write (t.handle tx) w, [])
  | .prepare tx =>
    let (n, notices) := n.prepare (t.handle tx) 0
    (t, n, notices)
  | .rollback tx =>
    let (n, notices) := n.rollback (n.transaction (t.handle tx)).id 0
    ({ t with rolledBack := t.rolledBack + 1 }, n, notices)
  | .keepVersion tx => ({ t with version := (n.transaction (t.handle tx)).version }, n, [])
  | .joinVersion tx peer bump =>
    let version := n.sequencer.finalVersion (t.handle tx) bump (visible peer)
    ({ t with version }, n, [])
  | .raise => (t, n.raise t.version, [])
  | .settle tx =>
    let (n, _, notices) := n.settle (n.transaction (t.handle tx)).id t.version 0
    ({ t with committed := t.committed + 1 }, n, notices)
  | .finish tx => (t, n.finish (n.transaction (t.handle tx)).id, [])
  | .apply keeper =>
    let (n, applied, notices) := n.applyReady 0
    ({ t with applied, keeper }, n, notices)

def visibleAt (seats : Seats) (c : Cluster) (i : Nat) : Option Version :=
  (c.node? (seats.at i)).map fun n => n.log.current

def perform (seats : Seats) (c : Cluster) (t : Thread) (call : Call) :
    Cluster × Thread × List Notice :=
  let a := seats.at call.node
  match c.node? a with
  | some n =>
    let (t, n, notices) := t.act n (visibleAt seats c) call.action
    (c.editNode a fun _ => n, t, notices)
  | none => (c, t, [])

def handOn (seats : Seats) (keeper : Nat) (c : Cluster) (tx : Committed) : Cluster :=
  c.editNode (seats.at keeper) (·.cache tx)

def turn (seats : Seats) (c : Cluster) (t : Thread) : Cluster × Thread × List Notice :=
  match t.applied, t.calls with
  | tx :: rest, _ => (handOn seats t.keeper c tx, { t with applied := rest }, [])
  | [], call :: rest => perform seats c { t with calls := rest } call
  | [], [] => (c, t, [])

def flush (seats : Seats) (c : Cluster) (t : Thread) : Cluster × Thread :=
  (t.applied.foldl (handOn seats t.keeper) c, { t with applied := [] })

def performAll (seats : Seats) :
    List Call → Cluster × Thread × List Notice → Cluster × Thread × List Notice
  | [], r => r
  | call :: rest, (c, t, ns) =>
    let (c, t, ms) := perform seats c t call
    let (c, t) := flush seats c t
    performAll seats rest (c, t, ns ++ ms)

def complete (seats : Seats) (c : Cluster) (t : Thread) : Cluster × Thread × List Notice :=
  let (c, t) := flush seats c t
  performAll seats t.calls (c, { t with calls := [] }, [])

end Thread

end Multiversion
