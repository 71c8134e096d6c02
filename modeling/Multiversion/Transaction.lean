import Multiversion.Transaction.Id
import Multiversion.Version

namespace Multiversion

abbrev Bytes := List UInt8

/-- A write without a value removes the key. -/
structure Write where
  key : String
  value : Option Bytes
  deriving DecidableEq, Repr, Inhabited

structure Transaction where
  id : TransactionId
  snapshot : Version
  version : Version
  writes : List Write
  deriving DecidableEq, Repr, Inhabited

namespace Transaction

def start (id : TransactionId) (snapshot : Version) : Transaction :=
  ⟨id, snapshot, snapshot, []⟩

def add (t : Transaction) (w : Write) : Transaction := { t with writes := t.writes ++ [w] }

def stamp (t : Transaction) (v : Version) : Transaction := { t with version := v }

/-- Only a transaction that writes needs a place in the commit order. -/
def modifies (t : Transaction) : Bool := !t.writes.isEmpty

end Transaction

structure Committed where
  id : TransactionId
  version : Version
  writes : List Write
  sub : Nat
  clock : Nat
  deriving DecidableEq, Repr, Inhabited

structure Transactions where
  all : Array Transaction := #[]
  deriving Repr, Inhabited

namespace Transactions

def get (ts : Transactions) (n : Nat) : Transaction := ts.all.getD n default

def push (ts : Transactions) (t : Transaction) : Nat × Transactions :=
  (ts.all.size, ⟨ts.all.push t⟩)

def update (ts : Transactions) (n : Nat) (f : Transaction → Transaction) : Transactions :=
  ⟨ts.all.modify n f⟩

def stamp (ts : Transactions) (n : Nat) (v : Version) : Transactions := ts.update n (·.stamp v)

def find? (ts : Transactions) (g : TransactionId) : Option Nat := ts.all.findIdx? (·.id = g)

def enlist (ts : Transactions) (t : Transaction) : Nat × Transactions :=
  match ts.find? t.id with
  | some n => (n, ts)
  | none => ts.push t

def renew (ts : Transactions) (t : Transaction) : Transactions :=
  ⟨ts.all.map fun u => if u.id = t.id then t else u⟩

end Transactions

end Multiversion
