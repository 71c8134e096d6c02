import Mathlib
import Multiversion.Proofs.Position
import Multiversion.Proofs.Queue.Numbers
import Multiversion.Proofs.Queue.Repeat
import Multiversion.Proofs.Sequencer.Alike

/-!
While the entry is queued, a repeat finds it settled. When the entry has been published, the log has
seen its version, and the repeat adds nothing to it.
-/

namespace Multiversion

namespace CommitLog

variable {p : Position} {log : CommitLog} {v w floor : Version} {tx : Committed}
  {txs : List Committed}

def Absorbs (log : CommitLog) (p : Position) (v : Version) : Prop :=
  p.join log.current [v] = log.current

theorem absorbs_update : (log.update p v).Absorbs p v := Position.join_idem

namespace Absorbs

variable (h : log.Absorbs p v)
include h

theorem update_eq : log.update p v = log := congrArg (fun current => { log with current }) h

theorem update : (log.update p w).Absorbs p v :=
  Position.join_right_comm.trans (congrArg (p.join · [w]) h)

theorem insertAll : (log.insertAll p txs).Absorbs p v := by
  induction txs generalizing log with
  | nil => exact h
  | cons tx txs ih => exact @ih (log.insert p tx) h.update

theorem prune : (log.prune p floor).1.Absorbs p v := by
  have current : (log.prune p floor).1.current = log.current := by
    unfold CommitLog.prune
    split
    · rfl
    · split <;> rfl
  rwa [Absorbs, current]

end Absorbs

theorem absorbs_insertAll (ht : tx ∈ txs) : (log.insertAll p txs).Absorbs p tx.version := by
  induction txs generalizing log with
  | nil => cases ht
  | cons tx' txs ih =>
    rcases List.mem_cons.mp ht with rfl | ht
    · have seen : (log.insert p tx).Absorbs p tx.version := absorbs_update
      exact seen.insertAll
    · exact ih ht

end CommitLog

namespace Sequencer

variable {s t : Sequencer} {c : Call} {past cs : List Call} {g : TransactionId} {v : Version}
  {n : Nat} {now : Time}

def Call.inserted : Call → List Committed
  | insert txs => txs
  | _ => []

/-- An entry is marked after its own record has been inserted. -/
def Call.Owns (s : Sequencer) (past : List Call) : Call → Prop
  | mark n _ => ∃ c ∈ past, ∃ tx ∈ c.inserted,
      tx.id = (s.queue.entry n).id ∧ tx.version = (s.queue.entry n).version
  | _ => True

instance (s : Sequencer) (past : List Call) : DecidablePred (Call.Owns s past)
  | .mark n _ => inferInstanceAs (Decidable (∃ c ∈ past, ∃ tx ∈ c.inserted,
      tx.id = (s.queue.entry n).id ∧ tx.version = (s.queue.entry n).version))
  | .begin _ | .finish _ | .write _ _ | .prepare _ _ | .prepareReadOnly _ | .raise _
  | .settle _ _ _ | .rollback _ _ | .list | .claim _ | .record _ | .insert _ | .detach _
  | .update _ | .prune _ => isTrue trivial

def Call.Lawful (s : Sequencer) (past : List Call) (c : Call) : Prop :=
  c.Follows s past ∧ c.Owns s past

instance (s : Sequencer) (past : List Call) : DecidablePred (Call.Lawful s past) :=
  fun c => inferInstanceAs (Decidable (c.Follows s past ∧ c.Owns s past))

theorem absorbs_call (h : s.log.Absorbs s.position v) :
    (s.call c).1.log.Absorbs (s.call c).1.position v := by
  rw [position_call]
  cases c with
  | settle g w now =>
    change (s.settle g w now).1.log.Absorbs s.position v
    rcases log_settle s g w now with e | e
    · rwa [e]
    · rw [e]
      exact h.update
  | rollback g now =>
    change (s.rollback g now).1.log.Absorbs s.position v
    rwa [log_rollback]
  | insert txs => exact h.insertAll
  | update w => exact h.update
  | prune floor => exact h.prune
  | _ => exact h

structure Recorded (s : Sequencer) (past : List Call) : Prop extends s.Sequenced past where
  held : s.queue.Held
  absorbed : ∀ c ∈ past, ∀ tx ∈ c.inserted, s.log.Absorbs s.position tx.version

theorem Recorded.call (h : s.Recorded past) (hc : c.Follows s past) :
    (s.call c).1.Recorded (c :: past) := by
  refine ⟨h.toSequenced.call hc, ?_, fun d hd tx ht => ?_⟩
  · rw [queue_call h.settled.valid hc]
    exact h.held.call h.settled.valid
  · rcases List.mem_cons.mp hd with rfl | hd
    · cases d with
      | insert txs => exact CommitLog.absorbs_insertAll ht
      | _ => cases ht
    · exact absorbs_call (h.absorbed d hd tx ht)

theorem Recorded.onLog {p : Position} {log : CommitLog} {tracking : Bool} :
    (onLog p log tracking).Recorded [] :=
  ⟨.onLog, fun n hn => absurd hn (Nat.not_lt_zero n), fun _ hc => absurd hc List.not_mem_nil⟩

theorem Recorded.run (h : s.Recorded past) (hc : Along Call.Lawful s past cs) :
    (s.run cs).1.Recorded (cs.reverse ++ past) :=
  hc.invariant (fun _ _ _ hs hc => hs.call hc.1) h

def Stands (g : TransactionId) (n : Nat) (v : Version) (s : Sequencer) : Prop :=
  (s.queue.entry n).version = v ∧
    (s.queue.find? g = some n ∨ s.queue.find? g = none ∧ (s.queue.entry n).committed = true)

instance : DecidablePred (Stands g n v) := fun _ => inferInstanceAs (Decidable (_ ∧ _))

structure Delivered (s : Sequencer) (past : List Call) (n : Nat) (v : Version) : Prop where
  received : (s.queue.entry n).received = true
  raised : .raise v ∈ past
  published : (s.queue.entry n).committed = true → s.log.Absorbs s.position v

theorem Call.onQueue_mark {k : Nat} (h : c.onQueue s = .markCommitted k now) : c = .mark k now := by
  cases c with
  | mark m t =>
    cases h
    rfl
  | _ => cases h

namespace Delivered

variable (h : s.Delivered past n v) (hr : s.Recorded past) (hs : s.Stands g n v)
include h hr hs

theorem call (hc : c.Lawful s past) : (s.call c).1.Delivered (c :: past) n v := by
  have hv := hr.settled.valid
  have hq := queue_call hv hc.1
  refine ⟨?_, List.mem_cons_of_mem _ h.raised, fun hm => absorbs_call ?_⟩
  · rw [hq]
    exact hv.received_call h.received
  · by_cases hmark : ∃ now, c = .mark n now
    · obtain ⟨now, rfl⟩ := hmark
      obtain ⟨d, hd, tx, ht, -, hversion⟩ := hc.2
      have habs := hr.absorbed d hd tx ht
      rwa [hversion, hs.1] at habs
    · rw [hq, hv.committed_call fun now e => hmark ⟨now, Call.onQueue_mark e⟩] at hm
      exact h.published hm

omit hs in
theorem raise_again : s.raise v = s := by
  have hle := hr.raised v h.raised
  exact congrArg (fun lastPrepared => { s with lastPrepared }) (Nat.max_eq_left hle)

theorem settle_again : s.Alike (s.settle g v now).1 := by
  have hv := hr.settled.valid
  rcases hs.2 with hf | ⟨hf, hm⟩
  · obtain ⟨m, e⟩ := settle_some hv v now hf
    have hn := hv.known (hv.find?_eq_some_iff.mp hf).1
    have ho : s.queue.order n = s.position.seq v := by
      rw [← hs.1]
      exact (hr.stamped n hn).symm
    rw [hr.settled.commit_again hr.held hf h.received hs.1 ho] at e
    exact ⟨_, .stamp, e⟩
  · rw [settle_none hf, (h.published hm).update_eq]
    exact .refl

theorem commit_again : s.Alike (s.commit g v now).1 := by
  rw [commit, h.raise_again hr]
  exact h.settle_again hr hs

end Delivered

inductive Sent where
  | once (c : Call)
  | raiseAgain
  | settleAgain (now : Time)

def Sent.once? : Sent → Option Call
  | once c => some c
  | _ => none

def deliver (g : TransactionId) (v : Version) (s : Sequencer) :
    List Sent → Sequencer × List Answer
  | [] => (s, [])
  | .once c :: xs =>
    let (s, a) := s.call c
    let (s, as) := deliver g v s xs
    (s, a :: as)
  | .raiseAgain :: xs => deliver g v (s.raise v) xs
  | .settleAgain now :: xs => deliver g v (s.settle g v now).1 xs

namespace Delivered

theorem run (h : s.Delivered past n v) (hr : s.Recorded past) (hc : Along Call.Lawful s past cs)
    (hs : ∀ as ∈ cs.inits, Stands g n v (s.run as).1) :
    (s.run cs).1.Delivered (cs.reverse ++ past) n v := by
  induction cs generalizing s past with
  | nil => exact h
  | cons c cs ih =>
    rw [List.reverse_cons, List.append_assoc]
    refine ih (h.call hr (hs [] (by simp)) hc.1) (hr.call hc.1.1) hc.2 fun as has => ?_
    exact hs (c :: as) (by simpa using has)

theorem deliver {xs : List Sent} (h : s.Delivered past n v) (hr : s.Recorded past)
    (ht : s.Alike t) (hc : Along Call.Lawful s past (xs.filterMap Sent.once?))
    (hs : ∀ as ∈ (xs.filterMap Sent.once?).inits, Stands g n v (s.run as).1) :
    (deliver g v t xs).2 = (s.run (xs.filterMap Sent.once?)).2 ∧
      (s.run (xs.filterMap Sent.once?)).1.Alike (deliver g v t xs).1 := by
  induction xs generalizing s t past with
  | nil => exact ⟨rfl, ht⟩
  | cons x xs ih =>
    have hs0 : Stands g n v s := hs [] (by simp)
    cases x with
    | once c =>
      obtain ⟨ha, hst⟩ := ht.call (c := c)
      obtain ⟨has, hrun⟩ := ih (h.call hr hs0 hc.1) (hr.call hc.1.1) hst hc.2 fun as has =>
        hs (c :: as) (by simpa [Sent.once?] using has)
      exact ⟨congrArg₂ List.cons ha has, hrun⟩
    | raiseAgain =>
      have hst := (ht.call (c := .raise v)).2
      change (s.raise v).Alike (t.raise v) at hst
      rw [h.raise_again hr] at hst
      exact ih h hr hst hc hs
    | settleAgain now =>
      have hst := (ht.call (c := .settle g v now)).2
      exact ih h hr ((h.settle_again hr hs0).trans hst) hc hs

end Delivered

/-- The commit of `g` is settled on an entry that is not published yet, and the entry stands from
    then on. -/
structure Redelivered (s : Sequencer) (g : TransactionId) (v : Version) (n : Nat) (now : Time)
    (pre cs : List Call) : Prop where
  lawful : Along Call.Lawful s [] (pre ++ .settle g v now :: cs)
  queued : (s.run pre).1.queue.find? g = some n
  unmarked : ((s.run pre).1.queue.entry n).committed = false
  stands : ∀ as ∈ cs.inits, Stands g n v (s.run (pre ++ .settle g v now :: as)).1

theorem Redelivered.delivered {pre : List Call} (h : Redelivered s g v n now pre cs)
    (hr : s.Recorded []) :
    ∃ past, (s.run (pre ++ [.settle g v now])).1.Recorded past ∧
      (s.run (pre ++ [.settle g v now])).1.Delivered past n v ∧
      Along Call.Lawful (s.run (pre ++ [.settle g v now])).1 past cs := by
  obtain ⟨hpre, hc, hcs⟩ := along_append.mp h.lawful
  have hr := hr.run hpre
  have hv := hr.settled.valid
  have hrun : (s.run (pre ++ [.settle g v now])).1 =
      ((s.run pre).1.call (.settle g v now)).1 := congrArg Prod.fst run_append
  have hq := queue_call hv hc.1
  have hmark (t) : Queue.Call.commit g v now ≠ .markCommitted n t := Queue.Call.noConfusion
  rw [hrun]
  refine ⟨_, hr.call hc.1, ⟨?_, List.mem_cons_of_mem _ hc.1, fun hm => ?_⟩, hcs⟩
  · rw [hq]
    exact (hv.commit_settles v _ now h.queued).1
  · rw [hq, Call.onQueue, hv.committed_call hmark, h.unmarked] at hm
    cases hm

/-- A repeated commit changes nothing but the version that its transaction is stamped with, and a
    run with repeats answers as the run without them does, to its end and beyond. -/
theorem repeat_harmless {p : Position} {log : CommitLog} {tracking : Bool} {pre : List Call}
    (h : Redelivered (onLog p log tracking) g v n now pre cs) :
    let base := ((onLog p log tracking).run (pre ++ [.settle g v now])).1
    let s := (base.run cs).1
    (∀ now', (s.commit g v now').1.queue = s.queue ∧
      (s.commit g v now').1.lastPrepared = s.lastPrepared ∧ (s.commit g v now').1.log = s.log) ∧
    ∀ sent, sent.filterMap Sent.once? = cs → ∀ rest,
      let t := (deliver g v base sent).1
      (deliver g v base sent).2 = (base.run cs).2 ∧ s.Alike t ∧
        (t.run rest).2 = (s.run rest).2 ∧ (s.run rest).1.Alike (t.run rest).1 := by
  intro base s
  obtain ⟨past, hr, hd, hc⟩ := h.delivered .onLog
  have stands (as) (has : as ∈ cs.inits) : Stands g n v (base.run as).1 := by
    have hs := h.stands as has
    rwa [List.append_cons, run_append] at hs
  refine ⟨fun now' => ?_, ?_⟩
  · have hs : Stands g n v s := stands cs (by simp)
    obtain ⟨ts, -, e⟩ : s.Alike (s.commit g v now').1 :=
      (hd.run hr hc stands).commit_again (hr.run hc) hs
    rw [e]
    exact ⟨rfl, rfl, rfl⟩
  · rintro sent rfl rest
    obtain ⟨ha, hs⟩ := hd.deliver hr .refl hc stands
    exact ⟨ha, hs, hs.run⟩

def behind : List Call :=
  [.begin ⟨default, 1⟩, .begin ⟨default, 2⟩, .prepare 0 0, .prepare 1 0, .raise ⟨1, 0, [3]⟩]

def redelivered : List Sent :=
  [.settleAgain 1, .once (.raise ⟨1, 0, [1]⟩), .once (.settle ⟨default, 1⟩ ⟨1, 0, [1]⟩ 1),
    .settleAgain 2, .once .list, .once (.claim 0), .once (.claim 1), .raiseAgain,
    .once (.insert [⟨⟨default, 1⟩, ⟨1, 0, [1]⟩, [], 0, 0⟩, ⟨⟨default, 2⟩, ⟨1, 0, [3]⟩, [], 0, 0⟩]),
    .once (.mark 0 2), .once (.mark 1 2), .settleAgain 3, .once (.detach 3), .raiseAgain,
    .settleAgain 4, .once (.begin ⟨default, 3⟩)]

theorem repeat_harmless_redelivered :
    let start := onLog (.of 0 1 1) (.empty (.of 0 1 1)) false
    let base := (start.run (behind ++ [.settle ⟨default, 2⟩ ⟨1, 0, [3]⟩ 0])).1
    let cs := redelivered.filterMap Sent.once?
    let t := (deliver ⟨default, 2⟩ ⟨1, 0, [3]⟩ base redelivered).1
    Redelivered start ⟨default, 2⟩ ⟨1, 0, [3]⟩ 1 0 behind cs ∧
    (deliver ⟨default, 2⟩ ⟨1, 0, [3]⟩ base redelivered).2 = (base.run cs).2 ∧
    (base.run cs).2.contains (.listed [0, 1]) = true ∧ (base.run cs).1.Alike t ∧
    t.queue.line = [] ∧ t.log.current = ⟨1, 0, [3]⟩ := by
  have h : Redelivered (onLog (.of 0 1 1) (.empty (.of 0 1 1)) false) ⟨default, 2⟩ ⟨1, 0, [3]⟩ 1 0
      behind (redelivered.filterMap Sent.once?) := by
    refine ⟨?_, ?_, ?_, ?_⟩
    all_goals decide +kernel
  obtain ⟨ha, hs, -, -⟩ := (repeat_harmless h).2 redelivered rfl []
  exact ⟨h, ha, by decide +kernel, hs, by decide +kernel, by decide +kernel⟩

def early : List Call :=
  [.begin ⟨default, 1⟩, .begin ⟨default, 2⟩, .prepare 0 0, .prepare 1 0, .raise ⟨1, 0, [1]⟩,
    .settle ⟨default, 1⟩ ⟨1, 0, [1]⟩ 0, .raise ⟨1, 0, [2]⟩, .settle ⟨default, 2⟩ ⟨1, 0, [2]⟩ 0] ++
  published [⟨⟨default, 2⟩, ⟨1, 0, [2]⟩, [], 0, 0⟩] [1] 0 ++ [.raise ⟨1, 0, [7]⟩]

def passedBy : List Call :=
  [.raise ⟨1, 0, [9]⟩, .settle ⟨default, 1⟩ ⟨1, 0, [9]⟩ 0, .detach 0]

/-- A commit that reaches its entry only after the publication leaves no trace in the log, and its
    repeat does. -/
theorem repeat_adds_version :
    let start := onLog (.of 0 1 1) (.empty (.of 0 1 1)) false
    let settle := Call.settle ⟨default, 2⟩ ⟨1, 0, [7]⟩ 0
    let s := (start.run (early ++ settle :: passedBy)).1
    Along Call.Lawful start [] (early ++ settle :: passedBy) ∧
    (start.run early).1.queue.find? ⟨default, 2⟩ = some 1 ∧
    (∀ as ∈ passedBy.inits,
      Stands ⟨default, 2⟩ 1 ⟨1, 0, [7]⟩ (start.run (early ++ settle :: as)).1) ∧
    s.log.current = ⟨1, 0, [2]⟩ ∧
    (s.commit ⟨default, 2⟩ ⟨1, 0, [7]⟩ 0).1.log.current = ⟨1, 0, [7]⟩ := by
  decide +kernel

end Sequencer

end Multiversion
