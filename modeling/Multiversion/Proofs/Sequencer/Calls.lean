import Mathlib
import Multiversion.Proofs.Queue.Exact
import Multiversion.Sequencer

namespace Multiversion

namespace Transactions

variable {ts : Transactions} {f : Transaction → Transaction} {m n : Nat}

theorem get_update (h : m < ts.all.size) :
    (ts.update n f).get m = if m = n then f (ts.get m) else ts.get m :=
  getD_modify fun _ => h

@[simp] theorem size_update : (ts.update n f).all.size = ts.all.size := by simp [update]

end Transactions

namespace Sequencer

variable {s : Sequencer} {g : TransactionId} {v : Version} {ns : List Nat} {txs : List Committed}
  {e n : Nat} {now : Time}

section Prepare

theorem queue_prepare (h : n < s.inFlight.transactions.all.size) :
    (s.prepare n now).1.queue = (s.queue.prepare n (s.transaction n).id
      (s.position.stamp s.log.current s.nextSequence) s.nextSequence s.visible now).1 := by
  have ht : ((s.inFlight.transactions.update n
      (·.stamp (s.position.stamp s.log.current s.nextSequence))).get n) =
      (s.transaction n).stamp (s.position.stamp s.log.current s.nextSequence) := by
    rw [Transactions.get_update h, if_pos rfl]
    rfl
  simp only [prepare, edit, InFlight.edit, InFlight.prepare, InFlight.transaction, ht, queue]
  rfl

theorem lastPrepared_prepare : (s.prepare n now).1.lastPrepared = s.nextSequence := rfl

theorem position_prepare : (s.prepare n now).1.position = s.position := rfl

end Prepare

section Settle

theorem position_settle : (s.settle g v now).1.position = s.position := by
  unfold settle
  split <;> rfl

theorem lastPrepared_settle : (s.settle g v now).1.lastPrepared = s.lastPrepared := by
  unfold settle
  split <;> rfl

theorem live_settle : (s.settle g v now).1.live = s.live := by
  unfold settle
  split <;> rfl

theorem log_settle (s : Sequencer) (g : TransactionId) (v : Version) (now : Time) :
    (s.settle g v now).1.log = s.log ∨
    (s.settle g v now).1.log = s.log.update s.position v := by
  unfold settle
  split
  · exact .inl rfl
  · exact .inr rfl

theorem settle_none (h : s.queue.find? g = none) :
    (s.settle g v now).1 = { s with log := s.log.update s.position v } := by
  have hc : s.inFlight.queue.commit g v (s.position.seq v) now = (s.inFlight.queue, none, []) :=
    Queue.Valid.commit_none h
  simp only [settle, InFlight.commit, hc]

theorem settle_some (hv : s.queue.Valid) (v : Version) (now : Time)
    (h : s.queue.find? g = some n) : ∃ m, (s.settle g v now).1 =
      { s with inFlight := ⟨s.inFlight.transactions.stamp m v,
        (s.queue.commit g v (s.position.seq v) now).1⟩ } := by
  obtain ⟨hn, -⟩ := hv.commit_some v (s.position.seq v) now h
  obtain ⟨⟨q, m, ns⟩, hc⟩ : ∃ c, s.inFlight.queue.commit g v (s.position.seq v) now = c := ⟨_, rfl⟩
  obtain rfl : m = some n := by
    rw [queue, hc] at hn
    exact hn
  refine ⟨(q.entry n).tx, ?_⟩
  simp only [settle, InFlight.commit, queue, hc]

theorem queue_settle (hv : s.queue.Valid) :
    (s.settle g v now).1.queue = (s.queue.commit g v (s.position.seq v) now).1 := by
  cases hf : s.queue.find? g with
  | none =>
    rw [settle_none hf, Queue.Valid.commit_none hf]
    rfl
  | some n =>
    obtain ⟨m, e⟩ := settle_some hv v now hf
    rw [e]
    rfl

end Settle

section Rollback

theorem position_rollback : (s.rollback g now).1.position = s.position := by
  unfold rollback
  split <;> rfl

theorem lastPrepared_rollback : (s.rollback g now).1.lastPrepared = s.lastPrepared := by
  unfold rollback
  split <;> rfl

theorem live_rollback : (s.rollback g now).1.live = s.live := by
  unfold rollback
  split <;> rfl

theorem log_rollback : (s.rollback g now).1.log = s.log := by
  unfold rollback
  split <;> rfl

theorem rollback_none (h : s.queue.find? g = none) : (s.rollback g now).1 = s := by
  have hc : s.inFlight.queue.rollback g now = (s.inFlight.queue, none) :=
    Queue.Valid.rollback_none h
  simp only [rollback, InFlight.rollback, hc]

theorem rollback_some (hv : s.queue.Valid) (now : Time) (h : s.queue.find? g = some n) :
    (s.rollback g now).1 = s.setQueue (s.queue.rollback g now).1 := by
  obtain ⟨hn, -⟩ := hv.rollback_some now h
  obtain ⟨⟨q, m⟩, hc⟩ : ∃ c, s.inFlight.queue.rollback g now = c := ⟨_, rfl⟩
  obtain rfl : m = some n := by
    rw [queue, hc] at hn
    exact hn
  simp only [rollback, InFlight.rollback, setQueue, queue, hc]

theorem rollback_eq (hv : s.queue.Valid) :
    (s.rollback g now).1 = s.setQueue (s.queue.rollback g now).1 := by
  cases hf : s.queue.find? g with
  | none =>
    rw [rollback_none hf, Queue.Valid.rollback_none hf]
    rfl
  | some n => exact rollback_some hv now hf

theorem queue_rollback (hv : s.queue.Valid) :
    (s.rollback g now).1.queue = (s.queue.rollback g now).1 := by
  rw [rollback_eq hv]
  rfl

end Rollback

end Sequencer

end Multiversion
