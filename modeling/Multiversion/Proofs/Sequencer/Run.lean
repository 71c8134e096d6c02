import Mathlib
import Multiversion.Proofs.Queue.Progress
import Multiversion.Proofs.Sequencer.Exact

namespace Multiversion.Sequencer

inductive Call where
  | begin (g : TransactionId)
  | finish (g : TransactionId)
  | write (tx : Nat) (w : Write)
  | prepare (tx : Nat) (now : Time)
  | prepareReadOnly (tx : Nat)
  | raise (v : Version)
  | settle (g : TransactionId) (v : Version) (now : Time)
  | rollback (g : TransactionId) (now : Time)
  | list
  | claim (n : Nat)
  | record (n : Nat)
  | insert (txs : List Committed)
  | mark (n : Nat) (now : Time)
  | detach (now : Time)
  | update (v : Version)
  | prune (floor : Version)
  deriving DecidableEq

inductive Answer where
  | done
  | begun (tx : Nat) (snapshot : Version)
  | finished (held : Bool)
  | prepared (v : Version)
  | stamped (v : Version)
  | settled (n : Option Nat)
  | listed (ns : List Nat)
  | claimed (free : Bool)
  | recorded (tx : Committed)
  | detached (count : Nat)
  | pruned (needed : Version)
  deriving DecidableEq

def call (s : Sequencer) : Call → Sequencer × Answer
  | .begin g =>
    let (n, t) := s.begin g
    (t, .begun n (t.transaction n).snapshot)
  | .finish g =>
    let (held, t) := s.finish g
    (t, .finished held)
  | .write tx w => (s.edit tx (·.add w), .done)
  | .prepare tx now =>
    let (t, _) := s.prepare tx now
    (t, .prepared (t.transaction tx).version)
  | .prepareReadOnly tx =>
    let (t, _) := s.prepareReadOnly tx
    (t, .stamped (t.transaction tx).version)
  | .raise v => (s.raise v, .done)
  | .settle g v now =>
    let (t, n, _) := s.settle g v now
    (t, .settled n)
  | .rollback g now =>
    let (t, _) := s.rollback g now
    (t, .done)
  | .list => (s, .listed s.readyPrefix)
  | .claim n =>
    let (q, free) := s.queue.claim n
    (s.setQueue q, .claimed free)
  | .record n => (s, .recorded (s.inFlight.record n))
  | .insert txs => (s.insertAll txs, .done)
  | .mark n now => (s.setQueue (s.queue.markCommitted n now), .done)
  | .detach now =>
    let (t, k) := s.detach now
    (t, .detached k)
  | .update v => ({ s with log := s.log.update s.position v }, .done)
  | .prune floor =>
    let (log, needed) := s.log.prune s.position floor
    ({ s with log }, .pruned needed)

def run (s : Sequencer) : List Call → Sequencer × List Answer
  | [] => (s, [])
  | c :: cs =>
    let (s, a) := s.call c
    let (s, as) := s.run cs
    (s, a :: as)

def Along (R : Sequencer → List Call → Call → Prop) (s : Sequencer) (past : List Call) :
    List Call → Prop
  | [] => True
  | c :: cs => R s past c ∧ Along R (s.call c).1 (c :: past) cs

instance decidableAlong (R : Sequencer → List Call → Call → Prop)
    [∀ s past, DecidablePred (R s past)] (s : Sequencer) (past : List Call) :
    (cs : List Call) → Decidable (Along R s past cs)
  | [] => isTrue trivial
  | c :: cs =>
    have := decidableAlong R (s.call c).1 (c :: past) cs
    inferInstanceAs (Decidable (R s past c ∧ Along R (s.call c).1 (c :: past) cs))

namespace Call

def Follows (s : Sequencer) (past : List Call) : Call → Prop
  | prepare tx _ => tx < s.inFlight.transactions.all.size
  | settle _ v _ => raise v ∈ past
  | _ => True

instance (s : Sequencer) (past : List Call) : DecidablePred (Follows s past)
  | prepare tx _ => inferInstanceAs (Decidable (tx < s.inFlight.transactions.all.size))
  | settle _ v _ => inferInstanceAs (Decidable (raise v ∈ past))
  | begin _ | finish _ | write _ _ | prepareReadOnly _ | raise _ | rollback _ _ | list | claim _
  | record _ | insert _ | mark _ _ | detach _ | update _ | prune _ => isTrue trivial

def onQueue (s : Sequencer) : Call → Queue.Call
  | prepare tx now =>
    .prepare tx (s.transaction tx).id (s.position.stamp s.log.current s.nextSequence) s.visible now
  | settle g v now => .commit g v now
  | rollback g now => .rollback g now
  | claim n => .claim n
  | mark n now => .markCommitted n now
  | detach now => .detach now
  | _ => .install s.position

end Call

variable {s t : Sequencer} {R : Sequencer → List Call → Call → Prop} {c : Call}
  {past cs ds : List Call} {txs : List Committed} {ns : List Nat} {now : Time}

theorem along_append : Along R s past (cs ++ ds) ↔
    Along R s past cs ∧ Along R (s.run cs).1 (cs.reverse ++ past) ds := by
  induction cs generalizing s past with
  | nil => simp [Along, run]
  | cons c cs ih => simp [Along, run, ih, and_assoc]

theorem Along.invariant {I : Sequencer → List Call → Prop} (hc : Along R s past cs)
    (hstep : ∀ s past c, I s past → R s past c → I (s.call c).1 (c :: past)) (h : I s past) :
    I (s.run cs).1 (cs.reverse ++ past) := by
  induction cs generalizing s past with
  | nil => exact h
  | cons c cs ih =>
    rw [List.reverse_cons, List.append_assoc]
    exact ih hc.2 (hstep s past c h hc.1)

theorem run_append : s.run (cs ++ ds) =
    (((s.run cs).1.run ds).1, (s.run cs).2 ++ ((s.run cs).1.run ds).2) := by
  induction cs generalizing s with
  | nil => rfl
  | cons c cs ih => simp [run, ih]

def published (txs : List Committed) (ns : List Nat) (now : Time) : List Call :=
  .insert txs :: (ns.map (.mark · now) ++ [.detach now])

theorem run_marks (q : Queue) :
    ((s.setQueue q).run (ns.map (.mark · now))).1 = s.setQueue (q.markAll ns now) := by
  induction ns generalizing q with
  | nil => rfl
  | cons n ns ih => exact ih (q.markCommitted n now)

theorem run_published : (s.run (published txs ns now)).1 = (s.publish txs ns now).1 := by
  have marked : ((s.insertAll txs).run (ns.map (.mark · now))).1 =
      (s.insertAll txs).markAll ns now := run_marks (s := s.insertAll txs) s.queue
  simp only [published, run, run_append]
  change (((s.insertAll txs).run _).1.detach now).1 = _
  rw [marked]
  rfl

theorem position_call : (s.call c).1.position = s.position := by
  cases c with
  | settle g v now => exact position_settle
  | rollback g now => exact position_rollback
  | _ => rfl

theorem queue_call (h : s.queue.Valid) (hc : c.Follows s past) :
    (s.call c).1.queue = (s.queue.call s.position (c.onQueue s)).1 := by
  cases c with
  | prepare tx now =>
    refine (queue_prepare hc).trans ?_
    simp only [Call.onQueue, Queue.call, Position.seq_stamp]
  | settle g v now => exact queue_settle h
  | rollback g now => exact queue_rollback h
  | _ => rfl

theorem lastPrepared_le_call : s.lastPrepared ≤ (s.call c).1.lastPrepared := by
  cases c with
  | prepare tx now => exact lastPrepared_lt_next.le
  | raise v => exact Nat.le_max_left ..
  | settle g v now => exact lastPrepared_settle.ge
  | rollback g now => exact lastPrepared_rollback.ge
  | _ => exact Nat.le_refl _

theorem lastPrepared_le_run : s.lastPrepared ≤ (s.run cs).1.lastPrepared := by
  induction cs generalizing s with
  | nil => exact Nat.le_refl _
  | cons c cs ih => exact lastPrepared_le_call.trans ih

theorem position_run : (s.run cs).1.position = s.position := by
  induction cs generalizing s with
  | nil => rfl
  | cons c cs ih => exact ih.trans position_call

structure Sequenced (s : Sequencer) (past : List Call) : Prop where
  settled : s.queue.Settled
  stamped : s.queue.Stamped s.position
  bounded : s.queue.Each fun e => e.order ≤ s.lastPrepared
  raised : ∀ v, .raise v ∈ past → s.position.seq v ≤ s.lastPrepared

namespace Sequenced

theorem onLog {p : Position} {log : CommitLog} {tracking : Bool} :
    (onLog p log tracking).Sequenced [] := by
  refine ⟨.empty, ?_, ?_, fun v hv => absurd hv List.not_mem_nil⟩
  all_goals exact fun n hn => absurd hn (Nat.not_lt_zero n)

theorem call (h : s.Sequenced past) (hc : c.Follows s past) :
    (s.call c).1.Sequenced (c :: past) := by
  have hv := h.settled.valid
  have hle := lastPrepared_le_call (s := s) (c := c)
  have raised (v) (hm : .raise v ∈ c :: past) :
      s.position.seq v ≤ (s.call c).1.lastPrepared := by
    rcases List.mem_cons.mp hm with rfl | hm
    · exact Nat.le_max_right ..
    · exact (h.raised v hm).trans hle
  refine ⟨?_, ?_, ?_, by rwa [position_call]⟩
  · rw [queue_call hv hc]
    exact h.settled.call.settled
  · rw [queue_call hv hc, position_call]
    exact h.stamped.call hv
  · rw [queue_call hv hc]
    refine hv.call_sequenced (Q := fun _ order => order ≤ (s.call c).1.lastPrepared)
      (fun n hn => (h.bounded n hn).trans hle) fun v hx => ?_
    cases c with
    | prepare tx now =>
      obtain rfl := Option.some.inj hx
      rw [Position.seq_stamp]
      exact Nat.le_refl _
    | settle g w now =>
      obtain rfl : w = v := Option.some.inj hx
      exact (h.raised w hc).trans hle
    | _ => cases hx

theorem run (h : s.Sequenced past) (hc : Along Call.Follows s past cs) :
    (s.run cs).1.Sequenced (cs.reverse ++ past) :=
  hc.invariant (fun _ _ _ hs hc => hs.call hc) h

end Sequenced

end Multiversion.Sequencer
