import Mathlib
import Multiversion.Proofs.Sequencer.Run
import Multiversion.Proofs.Sequencer.Transactions

namespace Multiversion

namespace Transactions

variable {ts us vs : Transactions} {t : Transaction} {f : Transaction → Transaction} {n : Nat}
  {v : Version}

structure Alike (ts us : Transactions) : Prop where
  size : us.all.size = ts.all.size
  get : ∀ n v, (us.get n).stamp v = (ts.get n).stamp v

namespace Alike

theorem refl : ts.Alike ts := ⟨rfl, fun _ _ => rfl⟩

theorem trans (h : ts.Alike us) (h' : us.Alike vs) : ts.Alike vs :=
  ⟨h'.size.trans h.size, fun n v => (h'.get n v).trans (h.get n v)⟩

theorem stamp : ts.Alike (ts.stamp n v) := by
  refine ⟨size_update, fun m w => ?_⟩
  rcases Nat.lt_or_ge m ts.all.size with hm | hm
  · rw [Transactions.stamp, get_update hm]
    split <;> rfl
  · rw [get_of_le hm, Transactions.stamp, get_of_le (size_update.le.trans hm)]

variable (h : ts.Alike us)
include h

theorem update (hf : ∀ t u v, t.stamp v = u.stamp v → (f t).stamp v = (f u).stamp v) :
    (ts.update n f).Alike (us.update n f) := by
  refine ⟨by simp [h.size], fun m w => ?_⟩
  rcases Nat.lt_or_ge m ts.all.size with hm | hm
  · rw [get_update hm, get_update (h.size ▸ hm)]
    split
    · exact hf _ _ w (h.get m w)
    · exact h.get m w
  · rw [get_of_le (size_update.le.trans hm), get_of_le (size_update.le.trans (h.size.le.trans hm))]

theorem push : (ts.push t).2.Alike (us.push t).2 := by
  refine ⟨by simp [Transactions.push, h.size], fun m w => ?_⟩
  rw [get_push_eq, get_push_eq, h.size]
  split
  · rfl
  · exact h.get m w

theorem get_stamp : (us.update n (·.stamp v)).get n = (ts.update n (·.stamp v)).get n := by
  rcases Nat.lt_or_ge n ts.all.size with hn | hn
  · rw [get_update hn, get_update (h.size ▸ hn), if_pos rfl, if_pos rfl, h.get]
  · rw [get_of_le (size_update.le.trans hn), get_of_le (size_update.le.trans (h.size.le.trans hn))]

end Alike

end Transactions

namespace Sequencer

variable {s t u : Sequencer} {c : Call} {cs : List Call} {g : TransactionId}

def Alike (s t : Sequencer) : Prop :=
  ∃ ts, s.inFlight.transactions.Alike ts ∧ t = { s with inFlight := ⟨ts, s.queue⟩ }

theorem answer_begin : (s.call (.begin g)).2 =
    .begun s.inFlight.transactions.all.size s.log.current :=
  congrArg (fun t : Transaction => Answer.begun _ t.snapshot) Transactions.get_push

namespace Alike

theorem refl : s.Alike s := ⟨_, .refl, rfl⟩

theorem trans (h : s.Alike t) (h' : t.Alike u) : s.Alike u := by
  obtain ⟨ts, h, rfl⟩ := h
  obtain ⟨us, h', rfl⟩ := h'
  exact ⟨us, h.trans h', rfl⟩

theorem call (h : s.Alike t) : (t.call c).2 = (s.call c).2 ∧ (s.call c).1.Alike (t.call c).1 := by
  obtain ⟨ts, h, rfl⟩ := h
  cases c with
  | begin g => exact ⟨by rw [answer_begin, answer_begin, h.size], _, h.push, rfl⟩
  | finish g => exact ⟨rfl, ts, h, rfl⟩
  | write tx w => exact ⟨rfl, _, h.update fun _ _ _ => congrArg (Transaction.add · w), rfl⟩
  | prepare tx now =>
    have ht := h.get_stamp (n := tx) (v := s.position.stamp s.log.current s.nextSequence)
    refine ⟨congrArg (fun t : Transaction => Answer.prepared t.version) ht, _,
      h.update fun _ _ _ e => e, ?_⟩
    exact congrArg (fun t : Transaction => ({ s with
      inFlight := ⟨ts.update tx (·.stamp (s.position.stamp s.log.current s.nextSequence)),
        (s.queue.prepare tx t.id t.version s.nextSequence s.visible now).1⟩
      lastPrepared := s.nextSequence } : Sequencer)) ht
  | prepareReadOnly tx =>
    have ht := h.get_stamp (n := tx) (v := s.log.current)
    exact ⟨congrArg (fun t : Transaction => Answer.stamped t.version) ht, _,
      h.update fun _ _ _ e => e, rfl⟩
  | raise v => exact ⟨rfl, ts, h, rfl⟩
  | settle g v now =>
    obtain ⟨⟨q, m, ns⟩, hc⟩ : ∃ c, s.inFlight.queue.commit g v (s.position.seq v) now = c :=
      ⟨_, rfl⟩
    cases m with
    | none =>
      simp only [Sequencer.call, settle, InFlight.commit, queue, hc]
      exact ⟨trivial, ts, h, rfl⟩
    | some m =>
      simp only [Sequencer.call, settle, InFlight.commit, queue, hc]
      exact ⟨trivial, _, h.update fun _ _ _ e => e, rfl⟩
  | rollback g now =>
    obtain ⟨⟨q, m⟩, hc⟩ : ∃ c, s.inFlight.queue.rollback g now = c := ⟨_, rfl⟩
    cases m with
    | none =>
      simp only [Sequencer.call, rollback, InFlight.rollback, queue, hc]
      exact ⟨trivial, ts, h, rfl⟩
    | some m =>
      simp only [Sequencer.call, rollback, InFlight.rollback, queue, hc]
      exact ⟨trivial, ts, h, rfl⟩
  | list => exact ⟨rfl, ts, h, rfl⟩
  | claim n => exact ⟨rfl, ts, h, rfl⟩
  | record n =>
    have hw := congrArg Transaction.writes (h.get (s.queue.entry n).tx default)
    refine ⟨?_, ts, h, rfl⟩
    exact congrArg (fun ws => Answer.recorded ⟨_, _, ws, _, _⟩) hw
  | insert txs => exact ⟨rfl, ts, h, rfl⟩
  | mark n now => exact ⟨rfl, ts, h, rfl⟩
  | detach now => exact ⟨rfl, ts, h, rfl⟩
  | update v => exact ⟨rfl, ts, h, rfl⟩
  | prune floor => exact ⟨rfl, ts, h, rfl⟩

theorem run (h : s.Alike t) : (t.run cs).2 = (s.run cs).2 ∧ (s.run cs).1.Alike (t.run cs).1 := by
  induction cs generalizing s t with
  | nil => exact ⟨rfl, h⟩
  | cons c cs ih =>
    obtain ⟨ha, hs⟩ := h.call (c := c)
    obtain ⟨has, hr⟩ := ih hs
    exact ⟨congrArg₂ List.cons ha has, hr⟩

end Alike

end Sequencer

end Multiversion
