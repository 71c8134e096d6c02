import Mathlib
import Multiversion.Proofs.Sequencer.Calls

namespace Multiversion

namespace Transactions

structure Keeps (ts us : Transactions) : Prop where
  size : ts.all.size ≤ us.all.size
  id : ∀ n < ts.all.size, (us.get n).id = (ts.get n).id
  snapshot : ∀ n < ts.all.size, (us.get n).snapshot = (ts.get n).snapshot

variable {ts us vs : Transactions} {t : Transaction} {f : Transaction → Transaction} {m n : Nat}

theorem Keeps.refl : ts.Keeps ts := ⟨Nat.le_refl _, fun _ _ => rfl, fun _ _ => rfl⟩

theorem get_of_le (h : ts.all.size ≤ n) : ts.get n = default := by
  simp [get, Array.getD_eq_getD_getElem?, Array.getElem?_eq_none h]

theorem get_push_eq : (ts.push t).2.get n = if n = ts.all.size then t else ts.get n := by
  simp only [get, push, Array.getD_eq_getD_getElem?, Array.getElem?_push]
  split <;> rfl

theorem get_push : (ts.push t).2.get (ts.push t).1 = t := by
  rw [get_push_eq]
  exact if_pos rfl

theorem lt_size_push : (ts.push t).1 < (ts.push t).2.all.size := by simp [push]

theorem keeps_push : ts.Keeps (ts.push t).2 := by
  have get_eq {n} (hn : n < ts.all.size) : (ts.push t).2.get n = ts.get n := by
    rw [get_push_eq, if_neg hn.ne]
  refine ⟨?_, fun n hn => ?_, fun n hn => ?_⟩
  · simp [push]
  · rw [get_eq hn]
  · rw [get_eq hn]

theorem keeps_update (hi : ∀ t, (f t).id = t.id) (hs : ∀ t, (f t).snapshot = t.snapshot) :
    ts.Keeps (ts.update m f) := by
  refine ⟨size_update.ge, fun n hn => ?_, fun n hn => ?_⟩
  · rw [get_update hn]
    split
    · exact hi _
    · rfl
  · rw [get_update hn]
    split
    · exact hs _
    · rfl

theorem keeps_enlist : ts.Keeps (ts.enlist t).2 := by
  unfold enlist
  split
  · exact .refl
  · exact keeps_push

theorem keeps_renew (h : ∀ n < ts.all.size, (ts.get n).id = t.id →
    (ts.get n).snapshot = t.snapshot) : ts.Keeps (ts.renew t) := by
  have get_eq {n} (hn : n < ts.all.size) :
      (ts.renew t).get n = if (ts.get n).id = t.id then t else ts.get n := by
    simp [get, renew, Array.getD_eq_getD_getElem?, hn]
  refine ⟨?_, fun n hn => ?_, fun n hn => ?_⟩
  · simp [renew]
  · rw [get_eq hn]
    split
    next hi => exact hi.symm
    next => rfl
  · rw [get_eq hn]
    split
    next hi => exact (h n hn hi).symm
    next => rfl

end Transactions

namespace Sequencer

variable {s : Sequencer} {g : TransactionId} {v : Version} {n : Nat} {now : Time}

theorem keeps_prepare :
    s.inFlight.transactions.Keeps (s.prepare n now).1.inFlight.transactions :=
  Transactions.keeps_update (fun _ => rfl) fun _ => rfl

theorem keeps_settle :
    s.inFlight.transactions.Keeps (s.settle g v now).1.inFlight.transactions := by
  obtain ⟨⟨q, m, ns⟩, hc⟩ : ∃ c, s.inFlight.queue.commit g v (s.position.seq v) now = c := ⟨_, rfl⟩
  cases m with
  | none =>
    simp only [settle, InFlight.commit, hc]
    exact .refl
  | some m =>
    simp only [settle, InFlight.commit, hc]
    exact Transactions.keeps_update (fun _ => rfl) fun _ => rfl

theorem keeps_rollback :
    s.inFlight.transactions.Keeps (s.rollback g now).1.inFlight.transactions := by
  obtain ⟨⟨q, m⟩, hc⟩ : ∃ c, s.inFlight.queue.rollback g now = c := ⟨_, rfl⟩
  cases m with
  | none =>
    simp only [rollback, InFlight.rollback, hc]
    exact .refl
  | some m =>
    simp only [rollback, InFlight.rollback, hc]
    exact .refl

end Sequencer

end Multiversion
