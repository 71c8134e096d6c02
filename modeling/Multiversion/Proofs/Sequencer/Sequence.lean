import Mathlib
import Multiversion.Proofs.Queue.Roster
import Multiversion.Proofs.Sequencer.Run

namespace Multiversion.Sequencer

variable {s : Sequencer} {p : Position} {log : CommitLog} {tracking : Bool} {c : Call}
  {past cs : List Call} {v : Version} {tx : Nat} {now : Time}

def Answer.prepared? : Answer → Option Version
  | prepared v => some v
  | _ => none

def Call.committed? : Call → Option Version
  | raise v => some v
  | settle _ v _ => some v
  | _ => none

def handedOut (p : Position) (as : List Answer) : List Nat :=
  (as.filterMap Answer.prepared?).map p.seq

def brought (p : Position) (cs : List Call) : List Nat := (cs.filterMap Call.committed?).map p.seq

theorem answer_prepare (h : tx < s.inFlight.transactions.all.size) :
    (s.call (.prepare tx now)).2 = .prepared (s.position.stamp s.log.current s.nextSequence) := by
  have ht : (s.inFlight.transactions.update tx
      (·.stamp (s.position.stamp s.log.current s.nextSequence))).get tx =
      (s.transaction tx).stamp (s.position.stamp s.log.current s.nextSequence) := by
    rw [Transactions.get_update h, if_pos rfl]
    rfl
  exact congrArg (fun t => Answer.prepared t.version) ht

theorem call_prepared (hc : c.Follows s past) (ha : (s.call c).2.prepared? = some v) :
    s.lastPrepared < s.position.seq v ∧ s.position.seq v ≤ (s.call c).1.lastPrepared := by
  cases c with
  | prepare tx now =>
    rw [answer_prepare hc] at ha
    obtain rfl := Option.some.inj ha
    rw [Position.seq_stamp]
    exact ⟨lastPrepared_lt_next, Nat.le_refl _⟩
  | _ => cases ha

theorem run_prepared (hc : Along Call.Follows s past cs) :
    ∀ k ∈ handedOut s.position (s.run cs).2,
      s.lastPrepared < k ∧ k ≤ (s.run cs).1.lastPrepared := by
  induction cs generalizing s past with
  | nil => exact fun k hk => absurd hk List.not_mem_nil
  | cons c cs ih =>
    intro k hk
    have rest (hk : k ∈ handedOut s.position ((s.call c).1.run cs).2) :
        s.lastPrepared < k ∧ k ≤ ((s.call c).1.run cs).1.lastPrepared := by
      obtain ⟨h1, h2⟩ := ih hc.2 k (by rwa [position_call])
      exact ⟨lastPrepared_le_call.trans_lt h1, h2⟩
    simp only [handedOut, run, List.filterMap_cons] at hk
    split at hk
    next => exact rest hk
    next v hv =>
      rcases List.mem_cons.mp hk with rfl | hk
      · obtain ⟨h1, h2⟩ := call_prepared hc.1 hv
        exact ⟨h1, h2.trans lastPrepared_le_run⟩
      · exact rest hk

theorem handedOut_ascending (hc : Along Call.Follows s past cs) :
    (handedOut s.position (s.run cs).2).Pairwise (· < ·) := by
  induction cs generalizing s past with
  | nil => exact .nil
  | cons c cs ih =>
    have hr := ih hc.2
    have above := run_prepared hc.2
    rw [position_call] at hr above
    simp only [handedOut, run, List.filterMap_cons]
    split
    next => exact hr
    next v hv =>
      refine List.pairwise_cons.mpr ⟨fun k hk => ?_, hr⟩
      exact (call_prepared hc.1 hv).2.trans_lt (above k hk).1

theorem Sequenced.brought_le (h : s.Sequenced past)
    (hc : Along Call.Follows s past cs) :
    ∀ k ∈ brought s.position cs, k ≤ (s.run cs).1.lastPrepared := by
  induction cs generalizing s past with
  | nil => exact fun k hk => absurd hk List.not_mem_nil
  | cons c cs ih =>
    intro k hk
    have rest (hk : k ∈ brought s.position cs) := ih (h.call hc.1) hc.2 k (by rwa [position_call])
    simp only [brought, List.filterMap_cons] at hk
    split at hk
    next => exact rest hk
    next v hv =>
      rcases List.mem_cons.mp hk with rfl | hk
      · have raised : s.position.seq v ≤ (s.call c).1.lastPrepared := by
          cases c with
          | raise w =>
            obtain rfl := Option.some.inj hv
            exact Nat.le_max_right ..
          | settle g w now =>
            obtain rfl := Option.some.inj hv
            exact (h.raised w hc.1).trans lastPrepared_le_call
          | _ => cases hv
        exact raised.trans lastPrepared_le_run
      · exact rest hk

/-- The counter never falls and covers whatever was handed out or brought; the next prepare goes
    above all of it, above what is visible and behind everything that is queued. -/
theorem sequences_ascend (p : Position) (log : CommitLog) (tracking : Bool) (cs : List Call)
    (hc : Along Call.Follows (onLog p log tracking) [] cs) :
    let s := ((onLog p log tracking).run cs).1
    let as := ((onLog p log tracking).run cs).2
    (∀ ds, s.lastPrepared ≤ (s.run ds).1.lastPrepared) ∧
    (∀ k ∈ handedOut p as ++ brought p cs, k ≤ s.lastPrepared) ∧
    (handedOut p as).Pairwise (· < ·) ∧
    (∀ n < s.queue.entries.size, s.queue.order n = p.seq (s.queue.entry n).version ∧
      s.queue.order n ≤ s.lastPrepared) ∧
    ∀ tx now, tx < s.inFlight.transactions.all.size → ∃ v,
      (s.call (.prepare tx now)).2 = .prepared v ∧
      (∀ k ∈ handedOut p as ++ brought p cs, k < p.seq v) ∧ p.seq s.log.current < p.seq v ∧
      (s.call (.prepare tx now)).1.queue.line =
        (s.queue.line.filter fun n => (s.queue.entry n).id ≠ (s.transaction tx).id) ++
          [s.queue.entries.size] ∧
      ((s.call (.prepare tx now)).1.queue.entry s.queue.entries.size).version = v ∧
      (s.call (.prepare tx now)).1.queue.order s.queue.entries.size = p.seq v := by
  intro s as
  have hs : s.Sequenced (cs.reverse ++ []) := Sequenced.onLog.run hc
  have hp : s.position = p := position_run
  have covered (k) (hk : k ∈ handedOut p as ++ brought p cs) : k ≤ s.lastPrepared := by
    rcases List.mem_append.mp hk with hk | hk
    · exact (run_prepared hc k hk).2
    · exact Sequenced.onLog.brought_le hc k hk
  refine ⟨fun ds => lastPrepared_le_run, covered, handedOut_ascending hc, fun n hn => ?_,
    fun tx now ht => ?_⟩
  · exact ⟨hp ▸ (hs.stamped n hn).symm, hs.bounded n hn⟩
  · have hv := hs.settled.valid
    have hq : (s.call (.prepare tx now)).1.queue = _ := queue_prepare ht
    have tail {m} (hm : m ∈ s.queue.line) : s.queue.order m < s.nextSequence :=
      (hs.bounded m (hv.known hm)).trans_lt lastPrepared_lt_next
    rw [← hp, hq]
    refine ⟨_, answer_prepare ht, ?_⟩
    rw [Position.seq_stamp]
    refine ⟨fun k hk => ?_, visible_lt_next, hv.prepare_tail fun m => tail, hv.prepare_fresh⟩
    exact (covered k (hp ▸ hk)).trans_lt lastPrepared_lt_next

def interleaved : List Call :=
  [.begin ⟨default, 1⟩, .begin ⟨default, 2⟩, .prepare 0 0, .raise ⟨1, 0, [5]⟩, .update ⟨1, 0, [9]⟩,
    .prepare 1 0, .settle ⟨default, 1⟩ ⟨1, 0, [5]⟩ 0]

theorem sequences_ascend_interleaved :
    let start := onLog (.of 0 1 1) (.empty (.of 0 1 1)) false
    let s := (start.run interleaved).1
    Along Call.Follows start [] interleaved ∧ 0 < s.inFlight.transactions.all.size ∧
    handedOut (.of 0 1 1) (start.run interleaved).2 = [1, 10] ∧
    ∃ v, (s.call (.prepare 0 0)).2 = .prepared v ∧ 10 < (Position.of 0 1 1).seq v ∧
      (s.call (.prepare 0 0)).1.queue.line = [1, 2] := by
  have hc : Along Call.Follows (onLog (.of 0 1 1) (.empty (.of 0 1 1)) false) [] interleaved := by
    decide +kernel
  have ht : 0 < ((onLog (.of 0 1 1) (.empty (.of 0 1 1)) false).run
      interleaved).1.inFlight.transactions.all.size := by decide +kernel
  obtain ⟨-, -, -, -, h⟩ := sequences_ascend (.of 0 1 1) (.empty (.of 0 1 1)) false interleaved hc
  obtain ⟨v, hv, hk, -, hl, -⟩ := h 0 0 ht
  refine ⟨hc, ht, by decide +kernel, v, hv, hk 10 (by decide +kernel), hl.trans ?_⟩
  decide +kernel

end Multiversion.Sequencer
