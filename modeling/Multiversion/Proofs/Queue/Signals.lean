import Mathlib
import Multiversion.Proofs.Queue.Drain
import Multiversion.Proofs.Queue.Repeat
import Multiversion.Queue.Waiter

/-!
Grants change entries that the call is not about, so the agreement of flags, stamps, latch and
notifier is kept for every entry that there ever was, together with the ones that rollbacks and
second prepares have taken out of the line.
-/

namespace Multiversion

namespace Entry

variable {e : Entry} {v : Version} {tx order clock k : Nat} {g : TransactionId} {now : Time}
  {dropped dropped' : Prop}

structure Consistent (dropped : Prop) (e : Entry) : Prop where
  received : e.ready = true → e.received = true
  pending : e.pending = true → e.received = true ∧ e.ready = false
  latch : e.latch.released = true ↔ e.ready = true ∨ dropped
  notifier : e.notifier.released = true ↔ e.committed = true ∨ e.isAborted = true
  receivedAt : e.receivedAt.isSome = e.received
  readyAt : e.readyAt.isSome = e.ready
  committedAt : e.committedAt.isSome = e.committed

theorem released_decide {n : Notifier} {w : Verdict} : (n.decide w).2.released = true := by
  unfold Notifier.decide Notifier.released
  cases hn : n.verdict with
  | none => rfl
  | some _ => simp [hn]

namespace Consistent

theorem fresh (h : ¬ dropped) {m : Nat} {tracked : Bool} :
    Consistent dropped
      { Queue.tentative tx g v order clock now with admission := m, tracked } := by
  constructor <;> simp [Queue.tentative, Notifier.released, isAborted, Notifier.isAborted, h]

theorem congr (h : e.Consistent dropped) (hd : dropped' ↔ dropped) : e.Consistent dropped' := by
  obtain rfl := propext hd
  exact h

variable (h : e.Consistent dropped)
include h

theorem receive : (e.receive v order now).Consistent dropped := by
  refine ⟨fun _ => rfl, fun hp => ⟨rfl, (h.pending hp).2⟩, h.latch, h.notifier, ?_, h.readyAt,
    h.committedAt⟩
  cases hr : e.received <;> simp [Entry.receive, hr, h.receivedAt]

theorem markReady (hr : e.received = true) : (e.markReady k now).Consistent dropped := by
  unfold Entry.markReady
  split
  next => exact h
  next => exact ⟨fun _ => hr, nofun, by simp [Latch.release], h.notifier, h.receivedAt, rfl,
    h.committedAt⟩

theorem holdBack (hr : e.received = true) : e.holdBack.Consistent dropped := by
  unfold Entry.holdBack
  split
  next => exact h
  next hu =>
    exact ⟨h.received, fun _ => ⟨hr, by simpa using hu⟩, h.latch, h.notifier, h.receivedAt,
      h.readyAt, h.committedAt⟩

theorem abort (hd : dropped') : e.abort.Consistent dropped' := by
  refine ⟨h.received, h.pending, ?_, ?_, h.receivedAt, h.readyAt, h.committedAt⟩
  · simp [Entry.abort, Latch.release, hd]
  · have hreleased : e.abort.notifier.released = true := released_decide
    rw [hreleased]
    rcases Queue.verdict_abort (e := e) with ⟨hv, hs⟩ | ⟨-, hv⟩
    · have hsome : e.notifier.released = true := Option.isSome_iff_ne_none.mpr hs
      have haborted : e.abort.isAborted = e.isAborted := by
        simp only [isAborted, Notifier.isAborted, hv]
      rw [haborted]
      exact ⟨fun _ => h.notifier.mp hsome, fun _ => rfl⟩
    · exact ⟨fun _ => .inr (by simp [isAborted, Notifier.isAborted, hv]), fun _ => rfl⟩

theorem claim : e.claim.2.Consistent dropped :=
  ⟨h.received, h.pending, h.latch, h.notifier, h.receivedAt, h.readyAt, h.committedAt⟩

theorem markCommitted : (e.markCommitted now).Consistent dropped := by
  unfold Entry.markCommitted
  split
  next => exact h
  next =>
    exact ⟨h.received, h.pending, h.latch, by simp [released_decide], h.receivedAt, h.readyAt, rfl⟩

end Consistent

end Entry

namespace Queue

def Call.drops? (q : Queue) : Call → Option Nat
  | prepare _ g _ _ _ => q.find? g
  | rollback g _ => q.find? g
  | _ => none

def dropped (p : Position) (q : Queue) : List Call → List Nat
  | [] => []
  | c :: cs => (c.drops? q).toList ++ dropped (c.position p) (q.call p c).1 cs

variable {p : Position} {q r : Queue} {g : TransactionId} {v : Version} {e : Entry} {c : Call}
  {cs : List Call} {ds : List Nat} {m n tx order clock : Nat} {now : Time}

structure Consistent (q : Queue) (ds : List Nat) : Prop where
  valid : q.Valid
  entry : ∀ n < q.entries.size, (q.entry n).Consistent (n ∈ ds)
  known : ∀ n ∈ ds, n < q.entries.size

theorem Valid.entry_grantReady_cases (h : q.Valid) (hb : q.Backed) (n : Nat) :
    (q.grantReady now).entry n = q.entry n ∨ (q.entry n).received = true ∧
      ∃ k, (q.grantReady now).entry n = (q.entry n).markReady k now := by
  have hk : ∀ g ∈ Readiness.grants q.toList, g.admission < q.entries.size :=
    fun _ => known_of_mem_grants h hb
  by_cases hm : n ∈ (Readiness.grants q.toList).map (·.admission)
  · have hd := decided_of_mem_grants h hb hm
    have hl := (grants_sublist h hb).subset hm
    obtain ⟨g, hg, rfl⟩ := List.mem_map.mp hm
    refine .inr ⟨hd.received hl, g.sub, ?_⟩
    rw [grantReady_eq, entry_grantAll_of_mem hk (h.nodup.sublist (grants_sublist h hb)) hg]
  · exact .inl (by rw [grantReady_eq, entry_grantAll_of_notMem hk hm])

theorem Removed.consistent (hr : q.Removed n r) (hn : n < q.entries.size)
    (h : q.Consistent ds) : r.Consistent (n :: ds) := by
  refine ⟨hr.valid, fun m hm => ?_, fun m hm => ?_⟩
  · rw [hr.size] at hm
    by_cases hmn : m = n
    · subst hmn
      rw [hr.left]
      exact (h.entry m hm).abort (List.mem_cons_self ..)
    · rw [hr.kept m hmn]
      exact (h.entry m hm).congr (by simp [hmn])
  · rw [hr.size]
    rcases List.mem_cons.mp hm with rfl | hm
    · exact hn
    · exact h.known m hm

namespace Consistent

theorem empty {tracking : Bool} : Consistent { tracking } [] :=
  ⟨valid_empty, fun _ hn => absurd hn (Nat.not_lt_zero _), fun _ hn => absurd hn List.not_mem_nil⟩

theorem congr {ds' : List Nat} (h : q.Consistent ds) (hd : ∀ n, n ∈ ds' ↔ n ∈ ds) :
    q.Consistent ds' :=
  ⟨h.valid, fun n hn => (h.entry n hn).congr (hd n), fun n hn => h.known n ((hd n).mp hn)⟩

variable (h : q.Consistent ds)
include h

theorem backed : q.Backed := fun n hn => (h.entry n (h.valid.known hn)).received

theorem grantReady : (q.grantReady now).Consistent ds := by
  refine ⟨h.valid.grantReady, fun n hn => ?_, by rw [size_grantReady]; exact h.known⟩
  rw [size_grantReady] at hn
  rcases h.valid.entry_grantReady_cases h.backed n with he | ⟨hr, k, he⟩
  · rw [he]
    exact h.entry n hn
  · rw [he]
    exact (h.entry n hn).markReady hr

theorem enqueued (hr : q.Enqueued (tentative tx g v order clock now) r) : r.Consistent ds := by
  refine ⟨hr.valid, fun n hn => ?_, fun n hn => ?_⟩
  · rw [hr.size] at hn
    rcases Nat.lt_succ_iff_lt_or_eq.mp hn with hn | rfl
    · rw [hr.kept n hn]
      exact h.entry n hn
    · rw [hr.fresh]
      exact .fresh fun hd => (h.known _ hd).false
  · rw [hr.size]
    exact (h.known n hn).trans (Nat.lt_succ_self _)

theorem received (hr : q.Received m v order now r) : r.Consistent ds := by
  refine ⟨hr.valid, fun n hn => ?_, fun n hn => hr.size ▸ h.known n hn⟩
  rw [hr.size] at hn
  by_cases hnm : n = m
  · subst hnm
    rw [hr.settled]
    exact (h.entry n hn).receive
  · rw [hr.kept n hnm]
    exact h.entry n hn

theorem detached (hr : q.Detached r) : r.Consistent ds := by
  refine ⟨hr.valid, fun n hn => ?_, fun n hn => hr.size ▸ h.known n hn⟩
  rw [hr.kept]
  exact h.entry n (hr.size ▸ hn)

theorem update {f : Entry → Entry} (hv : (q.update m f).Valid)
    (hf : (q.entry m).Consistent (m ∈ ds) → (f (q.entry m)).Consistent (m ∈ ds)) :
    (q.update m f).Consistent ds := by
  refine ⟨hv, fun n hn => ?_, by rw [size_update]; exact h.known⟩
  rw [size_update] at hn
  by_cases hnm : n = m
  · subst hnm
    rw [entry_update hn, if_pos rfl]
    exact hf (h.entry n hn)
  · rw [entry_update_of_ne hnm]
    exact h.entry n hn

theorem call : (q.call p c).1.Consistent ((c.drops? q).toList ++ ds) := by
  cases c with
  | install p => exact h
  | prepare tx g v clock now =>
    cases hf : q.find? g with
    | none =>
      rw [Call.drops?, hf]
      exact h.enqueued (h.valid.prepare_none tx v (p.seq v) clock now hf)
    | some n =>
      obtain ⟨r, s, hr, hs, he⟩ := h.valid.prepare_some tx v (p.seq v) clock now hf
      have hn := h.valid.known (h.valid.find?_eq_some_iff.mp hf).1
      rw [Call.drops?, hf, Queue.call, he]
      exact ((hr.consistent hn h).enqueued hs).grantReady
  | commit g v now =>
    refine h.valid.commit_cases h fun n r hf hr => ?_
    have hg : (r.grantReady now).Consistent ds := (h.received hr).grantReady
    refine hg.update (hg.valid.update ?_ ?_ ?_) fun he => he.holdBack ?_
    · exact fun _ => Entry.holdBack_keeps _ fun _ => rfl
    · exact fun _ => Entry.holdBack_keeps _ fun _ => rfl
    · exact fun _ => Entry.holdBack_keeps _ fun _ => rfl
    · rw [grantReady_keeps Entry.received fun _ _ => Entry.received_markReady, hr.settled]
      rfl
  | rollback g now =>
    cases hf : q.find? g with
    | none =>
      rw [Call.drops?, hf, Queue.call, Valid.rollback_none hf]
      exact h
    | some n =>
      obtain ⟨-, r, hr, he⟩ := h.valid.rollback_some now hf
      have hn := h.valid.known (h.valid.find?_eq_some_iff.mp hf).1
      rw [Call.drops?, hf, Queue.call, he]
      exact (hr.consistent hn h).grantReady
  | claim n => exact h.update h.valid.claim Entry.Consistent.claim
  | markCommitted n now => exact h.update h.valid.markCommitted Entry.Consistent.markCommitted
  | detach now => exact h.valid.detach_cases fun r hr => (h.detached hr).grantReady

theorem run : (Call.run Queue.call p q cs).1.Consistent (dropped p q cs ++ ds) := by
  induction cs generalizing p q ds with
  | nil => exact h
  | cons c cs ih =>
    have hrest : (Call.run Queue.call p q (c :: cs)).1.Consistent
        (dropped (c.position p) (q.call p c).1 cs ++ ((c.drops? q).toList ++ ds)) := ih h.call
    refine hrest.congr fun n => ?_
    simp only [dropped, List.mem_append]
    tauto

end Consistent

structure Parted (q : Queue) : Prop where
  queued : ∀ n ∈ q.line, (q.entry n).isAborted = false
  left : ∀ n, q.Accounted n

namespace Parted

theorem empty {tracking : Bool} : Parted { tracking } :=
  ⟨fun _ hn => absurd hn List.not_mem_nil, fun _ hn => absurd hn (Nat.not_lt_zero _)⟩

theorem leaves (h : q.Parted) (hl : ∀ n, Leaves n q r) : r.Parted := by
  refine ⟨fun n hn => ?_, fun n => (hl n).accounted (h.left n)⟩
  obtain ⟨hv, hq⟩ := (hl n).line hn
  rw [Entry.isAborted, Notifier.isAborted, hv]
  rcases hq with hq | hq
  · exact h.queued n hq
  · simp [hq]

theorem markCommitted (h : q.Parted) : (q.markCommitted m now).Parted := by
  refine ⟨fun n hn => ?_, fun n hn => ?_⟩
  · rw [Queue.markCommitted, update_keeps Entry.isAborted fun _ => Entry.isAborted_markCommitted]
    exact h.queued n hn
  · rw [Queue.markCommitted, size_update] at hn
    by_cases hnm : n = m
    · exact .inr (.inr ((Queue.committed_markCommitted (hnm ▸ hn)).trans (if_pos hnm)))
    · rw [Queue.markCommitted, entry_update_of_ne hnm]
      exact h.left n hn

theorem call (h : q.Parted) (hv : q.Valid) : (q.call p c).1.Parted := by
  cases c with
  | install p => exact h
  | prepare tx g v clock now => exact h.leaves fun _ => hv.prepare_leaves
  | commit g v now => exact h.leaves fun _ => hv.commit_leaves
  | rollback g now => exact h.leaves fun _ => hv.rollback_leaves
  | claim m => exact h.leaves fun _ => .update (fun _ => rfl) fun _ => rfl
  | markCommitted m now => exact h.markCommitted
  | detach now => exact h.leaves fun _ => hv.detach_leaves

end Parted

theorem held_empty {tracking : Bool} : Held { tracking } :=
  fun _ hn => absurd hn (Nat.not_lt_zero _)

theorem held_parted_run (hv : q.Valid) (hh : q.Held) (hp : q.Parted) :
    (Call.run Queue.call p q cs).1.Held ∧ (Call.run Queue.call p q cs).1.Parted := by
  have hrun : (Call.run Queue.call p q cs).1.Valid ∧ (Call.run Queue.call p q cs).1.Held ∧
      (Call.run Queue.call p q cs).1.Parted :=
    Call.run_invariant (I := fun q : Queue => q.Valid ∧ q.Held ∧ q.Parted)
      (fun _ _ _ ⟨h1, h2, h3⟩ => ⟨h1.call, h2.call h1, h3.call h1⟩) ⟨hv, hh, hp⟩
  exact hrun.2

theorem answer_poll {w : Waiter} {micros : Nat}
    (h : w.goal.released (q.entry w.entry) = true) :
    (q.poll w micros).2.1.answer.isSome = true := by
  rw [poll]
  cases ha : w.answer with
  | none => simp [h]
  | some b => simp [ha]

/-- The flags of an entry, its stamps, its latch and its notifier agree after any calls. Nobody
    waits in vain for an entry that has left the line, unless it is for readiness and the entry was
    marked committed and detached without it. -/
theorem signals_agree (p : Position) (tracking : Bool) (calls : List Call) :
    let q := (Call.run Queue.call p { tracking } calls).1
    let dropped := dropped p { tracking } calls
    ∀ n < q.entries.size,
      let e := q.entry n
      (e.ready = true → e.received = true) ∧
      (e.pending = true ↔ e.received = true ∧ e.ready = false) ∧
      (e.latch.released = true ↔ e.ready = true ∨ n ∈ dropped) ∧
      (e.notifier.released = true ↔ e.committed = true ∨ e.isAborted = true) ∧
      (n ∈ q.line → e.isAborted = false) ∧
      (n ∉ q.line → (e.committed = true ∨ e.isAborted = true) ∧
        ∀ w : Waiter, w.entry = n → (w.goal = .ready → e.ready = true ∨ n ∈ dropped) →
          ∀ micros, (q.poll w micros).2.1.answer.isSome = true) ∧
      e.receivedAt.isSome = e.received ∧ e.readyAt.isSome = e.ready ∧
      e.committedAt.isSome = e.committed := by
  intro q dropped n hn e
  have hc : q.Consistent (dropped ++ []) := Consistent.empty.run
  obtain ⟨hheld, hparted⟩ : q.Held ∧ q.Parted := held_parted_run valid_empty held_empty .empty
  have h : e.Consistent (n ∈ dropped) := (hc.entry n hn).congr (by simp)
  have hpending : e.pending = true ↔ e.received = true ∧ e.ready = false :=
    ⟨h.pending, fun ⟨hr, hu⟩ => (hheld n hn hr).resolve_left (by simpa using hu)⟩
  refine ⟨h.received, hpending, h.latch, h.notifier, hparted.queued n, fun hl => ?_,
    h.receivedAt, h.readyAt, h.committedAt⟩
  have hdone : e.committed = true ∨ e.isAborted = true := by
    rcases (hparted.left n hn).resolve_left hl with hv | hcommitted
    · exact h.notifier.mp (Option.isSome_iff_ne_none.mpr hv)
    · exact .inl hcommitted
  refine ⟨hdone, ?_⟩
  rintro w rfl hw micros
  refine answer_poll ?_
  cases hg : w.goal with
  | ready => exact h.latch.mpr (hw hg)
  | committed => exact h.notifier.mpr hdone

def replacing : List Call :=
  [.prepare 0 ⟨default, 1⟩ ⟨1, 0, [2]⟩ 0 0, .prepare 1 ⟨default, 2⟩ ⟨1, 0, [4]⟩ 0 0,
    .commit ⟨default, 2⟩ ⟨1, 0, [4]⟩ 1, .prepare 2 ⟨default, 3⟩ ⟨1, 0, [1]⟩ 0 1,
    .prepare 0 ⟨default, 1⟩ ⟨1, 0, [3]⟩ 0 2, .rollback ⟨default, 3⟩ 3]

theorem signals_agree_replaced :
    let q := (Call.run call (.of 0 1 1) {} replacing).1
    q.line = [3, 1] ∧ dropped (.of 0 1 1) {} replacing = [0, 2] ∧
    (0 < q.entries.size ∧ 0 ∉ q.line ∧
      ((q.entry 0).latch.released = true ↔ (q.entry 0).ready = true ∨ 0 ∈ [0, 2])) ∧
    (1 < q.entries.size ∧
      ((q.entry 1).pending = true ↔
        (q.entry 1).received = true ∧ (q.entry 1).ready = false)) ∧
    (q.entry 1).pending = true ∧ (q.entry 0).ready = false ∧ (q.entry 0).latch.released = true ∧
    (q.poll ⟨.ready, 0, true, none⟩ 0).2.1.answer = some false := by
  intro q
  have hdropped : dropped (.of 0 1 1) {} replacing = [0, 2] := by decide +kernel
  have h0 : 0 < q.entries.size := by decide +kernel
  have h1 : 1 < q.entries.size := by decide +kernel
  obtain ⟨-, -, hlatch, -⟩ := signals_agree (.of 0 1 1) false replacing 0 h0
  obtain ⟨-, hpending, -⟩ := signals_agree (.of 0 1 1) false replacing 1 h1
  rw [hdropped] at hlatch
  exact ⟨by decide +kernel, hdropped, ⟨h0, by decide +kernel, hlatch⟩, ⟨h1, hpending⟩,
    by decide +kernel, by decide +kernel, by decide +kernel, by decide +kernel⟩

/-- A thread waits for readiness while the entry is marked committed and detached. It is never
    answered. -/
theorem ready_waiter_stranded :
    let p := Position.of 0 1 1
    let prepared := (Call.run call p {} [.prepare 0 ⟨default, 1⟩ ⟨1, 0, [5]⟩ 0 0]).1
    let (waiting, w) := prepared.enter .ready 0
    let q := (Call.run call p waiting [.markCommitted 0 0, .detach 0]).1
    prepared.line = [0] ∧ w.blocked = true ∧ q.line = [] ∧ (q.entry 0).committed = true ∧
      (q.poll w 0).2.1.answer = none := by
  decide +kernel

end Queue

end Multiversion
