namespace Multiversion

structure Latch where
  released : Bool := false
  deriving DecidableEq, Repr, Inhabited

namespace Latch

def release (l : Latch) : Bool × Latch := (!l.released, ⟨true⟩)

end Latch

inductive Verdict where
  | committed
  | aborted
  deriving DecidableEq, Repr

structure Notifier where
  verdict : Option Verdict := none
  waiters : Nat := 0
  deriving DecidableEq, Repr, Inhabited

namespace Notifier

def released (n : Notifier) : Bool := n.verdict.isSome

def isCommitted (n : Notifier) : Bool := n.verdict = some .committed

def isAborted (n : Notifier) : Bool := n.verdict = some .aborted

def decide (n : Notifier) (v : Verdict) : Bool × Notifier :=
  match n.verdict with
  | none => (true, { n with verdict := some v })
  | some _ => (false, n)

def enter (n : Notifier) : Notifier := { n with waiters := n.waiters + 1 }

def leave (n : Notifier) : Notifier := { n with waiters := n.waiters - 1 }

end Notifier

end Multiversion
