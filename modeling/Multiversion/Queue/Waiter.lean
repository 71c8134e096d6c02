import Multiversion.Queue

namespace Multiversion

inductive Goal where
  | ready
  | committed
  deriving DecidableEq, Repr

structure Waiter where
  goal : Goal
  entry : Nat
  blocked : Bool
  answer : Option Bool := none
  deriving DecidableEq, Repr

namespace Goal

def released : Goal → Entry → Bool
  | ready, e => e.latch.released
  | committed, e => e.notifier.released

/-- What a released thread finds: an aborted entry has neither been made ready nor committed. -/
def reached : Goal → Entry → Bool
  | ready, e => e.ready
  | committed, e => e.committed

def enter : Goal → Entry → Entry
  | ready, e => { e with waited := true }
  | committed, e => { e with notifier := e.notifier.enter }

def leave : Goal → Entry → Entry
  | ready, e => e
  | committed, e => { e with notifier := e.notifier.leave }

/-- Only blocking waits for readiness are counted. -/
def notices (micros : Nat) : Goal → Entry → List Notice
  | ready, e => if e.tracked then Notice.waited micros else []
  | committed, _ => []

end Goal

namespace Queue

def enter (q : Queue) (goal : Goal) (n : Nat) : Queue × Waiter :=
  if goal.released (q.entry n) then (q, ⟨goal, n, false, none⟩)
  else (q.update n goal.enter, ⟨goal, n, true, none⟩)

def leave (q : Queue) (w : Waiter) (micros : Nat) : Queue × Bool × List Notice :=
  let e := q.entry w.entry
  if w.blocked then
    (q.update w.entry w.goal.leave, w.goal.released e, w.goal.notices micros e)
  else (q, w.goal.released e, [])

def await (q : Queue) (goal : Goal) (n micros : Nat) : Queue × Bool × List Notice :=
  let (q, w) := q.enter goal n
  q.leave w micros

def poll (q : Queue) (w : Waiter) (micros : Nat) : Queue × Waiter × List Notice :=
  if w.answer.isNone && w.goal.released (q.entry w.entry) then
    let (q, _, notices) := q.leave w micros
    (q, { w with answer := some (w.goal.reached (q.entry w.entry)) }, notices)
  else (q, w, [])

def pollAll (q : Queue) (micros : Nat) : List Waiter → Queue × List Waiter × List Notice
  | [] => (q, [], [])
  | w :: ws =>
    let (q, w, ns) := q.poll w micros
    let (q, ws, ms) := q.pollAll micros ws
    (q, w :: ws, ns ++ ms)

end Queue

end Multiversion
