import Mathlib
import Multiversion.Proofs.Queue.Leaves
import Multiversion.Proofs.Queue.Progress
import Multiversion.Proofs.Queue.Roster

namespace Multiversion

namespace Entry

variable {e : Entry} {v : Version} {order : Nat} {now : Time}

theorem receive_again (hr : e.received = true) (hv : e.version = v) (ho : e.order = order) :
    e.receive v order now = e := by
  subst hv ho
  simp [receive, hr]
  cases e
  simp_all

/-- Every commit leaves its entry ready or marked as held back. -/
def Held (e : Entry) : Prop := e.received = true → e.ready = true ∨ e.pending = true

theorem Held.holdBack_eq (h : e.Held) (hr : e.received = true) : e.holdBack = e := by
  unfold holdBack
  split
  next => rfl
  next hu =>
    have hp := (h hr).resolve_left hu
    cases e
    simp_all

theorem held_holdBack : e.holdBack.Held := by
  unfold holdBack
  split
  next hr => exact fun _ => .inl hr
  next => exact fun _ => .inr rfl

theorem held_markReady {k : Nat} : (e.markReady k now).Held := fun _ => .inl ready_markReady

theorem Held.markCommitted (h : e.Held) : (e.markCommitted now).Held := by
  unfold Held
  rw [markCommitted_keeps received fun _ _ _ => rfl, markCommitted_keeps ready fun _ _ _ => rfl,
    markCommitted_keeps pending fun _ _ _ => rfl]
  exact h

end Entry

namespace Queue

variable {p : Position} {q : Queue} {g : TransactionId} {v : Version} {c : Call}
  {f : Entry → Entry} {n order : Nat} {gs : List Readiness.Grant} {now : Time}

theorem update_eq_self (h : f (q.entry n) = q.entry n) : q.update n f = q := by
  have he : (q.update n f).entries = q.entries := by
    refine entries_eq size_update fun m => ?_
    by_cases hm : m = n
    · subst hm
      rcases Nat.lt_or_ge m q.entries.size with hlt | hge
      · rw [entry_update hlt, if_pos rfl, h]
      · rw [update_of_le hge]
    · exact entry_update_of_ne hm
  exact congrArg (fun entries => { q with entries }) he

theorem grantAll_eq_self (h : ∀ g ∈ gs, (q.entry g.admission).ready = true) :
    q.grantAll now gs = q := by
  induction gs with
  | nil => rfl
  | cons g gs ih =>
    rw [grantAll_cons, update_eq_self (Entry.markReady_of_ready (h g (by simp)))]
    exact ih fun k hk => h k (by simp [hk])

def Held (q : Queue) : Prop := q.Each Entry.Held

theorem Held.call (hh : q.Held) (h : q.Valid) : (q.call p c).1.Held := by
  have fresh {e : Entry} (hr : e.received = false) : e.Held := by simp [Entry.Held, hr]
  cases c with
  | install p => exact hh
  | prepare tx g v clock now =>
    exact h.prepare_each hh (fun _ he => he) (fun _ _ _ => Entry.held_markReady)
      fun _ _ => fresh rfl
  | commit g v now =>
    refine h.commit_cases hh fun n r _ hr m hm => ?_
    rw [size_update, size_grantReady, hr.size] at hm
    by_cases hmn : m = n
    · subst hmn
      rw [entry_update (by rwa [size_grantReady, hr.size]), if_pos rfl]
      exact Entry.held_holdBack
    · rw [entry_update_of_ne hmn]
      refine grantReady_preserves (fun _ _ _ => Entry.held_markReady) ?_
      rw [hr.kept m hmn]
      exact hh m hm
  | rollback g now => exact h.rollback_each hh (fun _ he => he) fun _ _ _ => Entry.held_markReady
  | claim n => exact Each.update hh fun _ he => he
  | markCommitted n now => exact Each.update hh fun _ he => he.markCommitted
  | detach now => exact h.detach_each hh fun _ _ _ => Entry.held_markReady

section Flags

variable (h : q.Valid)
include h

theorem Valid.received_call (hr : (q.entry n).received = true) :
    ((q.call p c).1.entry n).received = true := by
  have hn : n < q.entries.size := by
    by_contra hn
    rw [entry_of_le (Nat.not_lt.mp hn)] at hr
    cases hr
  cases c with
  | install p => exact hr
  | prepare tx g v clock now =>
    refine h.prepare_cases (fun r hs => ?_) fun m r s _ hx hs => ?_
    · rwa [hs.kept n hn]
    · rwa [grantReady_keeps Entry.received fun _ _ => Entry.received_markReady,
        hs.kept n (hx.size ▸ hn), hx.keeps Entry.received fun _ => rfl]
  | commit g v now =>
    refine h.commit_cases hr fun m r _ hs => ?_
    rw [update_keeps Entry.received fun _ => Entry.holdBack_keeps _ fun _ => rfl,
      grantReady_keeps Entry.received fun _ _ => Entry.received_markReady]
    by_cases hm : n = m
    · rw [hm, hs.settled]
      rfl
    · rwa [hs.kept n hm]
  | rollback g now =>
    refine h.rollback_cases hr fun m r _ hs => ?_
    rwa [grantReady_keeps Entry.received fun _ _ => Entry.received_markReady,
      hs.keeps Entry.received fun _ => rfl]
  | claim m => exact update_preserves (P := fun e => e.received = true) (fun _ he => he) hr
  | markCommitted m now =>
    refine update_preserves (P := fun e => e.received = true) (fun e he => ?_) hr
    rwa [Entry.markCommitted_keeps Entry.received fun _ _ _ => rfl]
  | detach now =>
    refine h.detach_cases fun r hs => ?_
    rwa [grantReady_keeps Entry.received fun _ _ => Entry.received_markReady, hs.kept]

theorem Valid.committed_call (hc : ∀ now, c ≠ .markCommitted n now) :
    ((q.call p c).1.entry n).committed = (q.entry n).committed := by
  cases c with
  | install p => rfl
  | prepare tx g v clock now => exact h.prepare_leaves.committed
  | commit g v now => exact h.commit_leaves.committed
  | rollback g now => exact h.rollback_leaves.committed
  | claim m => exact update_keeps Entry.committed fun _ => rfl
  | markCommitted m now =>
    have hm : n ≠ m := fun e => hc now (e ▸ rfl)
    exact congrArg Entry.committed (entry_update_of_ne hm)
  | detach now => exact h.detach_leaves.committed

end Flags

namespace Settled

variable (h : q.Settled)
include h

theorem grantReady_eq : q.grantReady now = q := by
  refine grantAll_eq_self fun k hk => ?_
  have hm := List.mem_map_of_mem (f := (·.admission)) hk
  exact h.ready _ ((grants_sublist h.valid h.backed).subset hm)
    (decided_of_mem_grants h.valid h.backed hm)

theorem commit_again (hh : q.Held) (hf : q.find? g = some n) (hr : (q.entry n).received = true)
    (hv : (q.entry n).version = v) (ho : q.order n = order) :
    (q.commit g v order now).1 = q := by
  obtain ⟨i, hi⟩ := slot?_of_find? hf
  have received : q.update n (·.receive v order now) = q :=
    update_eq_self (Entry.receive_again hr hv ho)
  have order_eq : (q.place i n v order now).order = q.order :=
    (order_of_entries entries_place).trans (congrArg Queue.order received)
  have stays : (q.arena.reposition q.order i).1 = q.arena := by
    have hm := h.valid.reposition_moved v order now hi hf
    rw [order_eq] at hm
    refine Arena.Line.reposition_stays ?_
    by_contra hmoved
    exact hm.mp (by simpa using hmoved) (h.valid.line_notAfter fun _ _ => rfl)
  have placed : q.place i n v order now = q := by
    rw [place, received]
    exact congrArg (fun arena => { q with arena }) stays
  have held : (q.entry n).Held := hh n (h.valid.known (h.valid.find?_eq_some_iff.mp hf).1)
  rw [(commit_eq v order now hi hf).1, placed, h.grantReady_eq]
  exact update_eq_self (held.holdBack_eq hr)

end Settled

end Queue

end Multiversion
