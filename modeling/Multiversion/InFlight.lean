import Multiversion.Queue

/-!
An entry and its transaction both carry the final version, until another member stamps the
transaction anew.
-/

namespace Multiversion

structure InFlight where
  transactions : Transactions := {}
  queue : Queue := {}
  deriving Repr, Inhabited

namespace InFlight

def start (f : InFlight) (t : Transaction) : Nat × InFlight :=
  let (n, transactions) := f.transactions.push t
  (n, { f with transactions })

def enlist (f : InFlight) (t : Transaction) : Nat × InFlight :=
  let (n, transactions) := f.transactions.enlist t
  (n, { f with transactions })

def renew (f : InFlight) (t : Transaction) : InFlight :=
  { f with transactions := f.transactions.renew t }

def edit (f : InFlight) (n : Nat) (g : Transaction → Transaction) : InFlight :=
  { f with transactions := f.transactions.update n g }

def transaction (f : InFlight) (n : Nat) : Transaction := f.transactions.get n

def prepare (f : InFlight) (n order clock : Nat) (now : Time) : InFlight × List Notice :=
  let t := f.transaction n
  let (queue, notices) := f.queue.prepare n t.id t.version order clock now
  ({ f with queue }, notices)

def commit (f : InFlight) (g : TransactionId) (v : Version) (order : Nat) (now : Time) :
    InFlight × Option Nat × List Notice :=
  match f.queue.commit g v order now with
  | (queue, some n, notices) =>
    ({ transactions := f.transactions.stamp (queue.entry n).tx v, queue }, some n, notices)
  | (_, none, notices) => (f, none, notices)

def rollback (f : InFlight) (g : TransactionId) (now : Time) : InFlight × Option Nat :=
  let (queue, n) := f.queue.rollback g now
  ({ f with queue }, n)

def owner (f : InFlight) (n : Nat) : Transaction := f.transaction (f.queue.entry n).tx

def record (f : InFlight) (n : Nat) : Committed := (f.queue.entry n).record f.transactions

end InFlight

end Multiversion
