import Multiversion.Gc.Message
import Multiversion.Observe.Event
import Multiversion.Observe.Metrics

namespace Multiversion

namespace Response

def version? : Response → Option Version
  | version v => some v
  | _ => none

def view? : Response → Option Nat
  | view id => some id
  | _ => none

def acknowledged? : Response → Option Unit
  | acknowledged => some ()
  | _ => none

end Response

namespace Gather

def departed (member : Address) : Notice :=
  .logged (Event.memberDeparted.info [("member", member.short)])

def failure (timeoutMs : Nat) (member : Address) : Reply → GcError
  | .answered r => .transport member s!"unexpected response {r.describe}"
  | .failed reason => .transport member reason
  | .timedOut => .timeout member timeoutMs
  | .departed => .timeout member timeoutMs

def answers {α : Type} (accept : Response → Option α) (timeoutMs : Nat) :
    List (Address × Reply) → Except GcError (List α) × List Notice
  | [] => (.ok [], [])
  | (member, .departed) :: rest =>
    let (found, notices) := answers accept timeoutMs rest
    (found, departed member :: notices)
  | (member, .answered r) :: rest =>
    match accept r with
    | some a =>
      let (found, notices) := answers accept timeoutMs rest
      (found.map (a :: ·), notices)
    | none => (.error (failure timeoutMs member (.answered r)), [])
  | (member, reply) :: _ => (.error (failure timeoutMs member reply), [])

end Gather

end Multiversion
