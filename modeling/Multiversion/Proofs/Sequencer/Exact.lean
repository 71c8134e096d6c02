import Mathlib
import Multiversion.Proofs.Sequencer.Calls

namespace Multiversion

def Entry.Fits (p : Position) (bound : Nat) (e : Entry) : Prop :=
  p.seq e.version = e.order ∧ e.order ≤ bound

namespace Entry.Fits

variable {p : Position} {k bound : Nat} {e : Entry} {now : Time}

theorem markReady (h : e.Fits p bound) : (e.markReady k now).Fits p bound := by
  rw [Fits, version_markReady, order_markReady]
  exact h

theorem holdBack (h : e.Fits p bound) : e.holdBack.Fits p bound := by
  rw [Fits, holdBack_keeps version fun _ => rfl, holdBack_keeps order fun _ => rfl]
  exact h

end Entry.Fits

namespace Sequencer

structure Exact (s : Sequencer) (raised : List Version) : Prop where
  valid : s.queue.Valid
  exact : s.queue.Exact
  stamped : s.queue.Each fun e => s.position.seq e.version = e.order
  bounded : s.queue.Each fun e => e.order ≤ s.lastPrepared
  covered : ∀ v ∈ raised, s.position.seq v ≤ s.lastPrepared

variable {s t : Sequencer} {raised ws : List Version} {g : TransactionId} {v : Version} {n : Nat}
  {now : Time}

theorem lastPrepared_lt_next : s.lastPrepared < s.nextSequence := by
  unfold nextSequence
  omega

theorem visible_lt_next : s.visible < s.nextSequence := by
  unfold nextSequence
  omega

namespace Exact

theorem congr (h : s.Exact raised) (hq : t.queue = s.queue) (hp : t.position = s.position)
    (hl : s.lastPrepared ≤ t.lastPrepared)
    (hw : ∀ v ∈ ws, v ∈ raised ∨ t.position.seq v ≤ t.lastPrepared) : t.Exact ws := by
  refine ⟨hq ▸ h.valid, hq ▸ h.exact, ?_, ?_, ?_⟩
  · rw [hq, hp]
    exact h.stamped
  · rw [hq]
    exact fun n hn => (h.bounded n hn).trans hl
  · intro v hv
    rcases hw v hv with hv | hv
    · rw [hp]
      exact (h.covered v hv).trans hl
    · exact hv

theorem onLog {p : Position} {log : CommitLog} {tracking : Bool} :
    (onLog p log tracking).Exact [] := by
  refine ⟨Queue.valid_empty, ?_, ?_, ?_, by simp⟩
  · intro n hn
    exact absurd hn List.not_mem_nil
  all_goals
    intro n hn
    exact absurd hn (Nat.not_lt_zero n)

theorem fits (h : s.Exact raised) : s.queue.Each (Entry.Fits s.position s.lastPrepared) :=
  fun n hn => ⟨h.stamped n hn, h.bounded n hn⟩

theorem order_lt_next (h : s.Exact raised) : ∀ n ∈ s.queue.line, s.queue.order n < s.nextSequence :=
  fun n hn => (h.bounded n (h.valid.known hn)).trans_lt lastPrepared_lt_next

theorem prepare (h : s.Exact raised) (hn : n < s.inFlight.transactions.all.size) :
    (s.prepare n now).1.Exact raised := by
  obtain ⟨h1, h2⟩ := h.valid.prepare_exact n (s.transaction n).id
    (s.position.stamp s.log.current s.nextSequence) s.visible now h.exact h.order_lt_next
  have hf : (s.queue.prepare n (s.transaction n).id
      (s.position.stamp s.log.current s.nextSequence) s.nextSequence s.visible now).1.Each
      (Entry.Fits s.position s.nextSequence) := by
    refine h.valid.prepare_each ?_ (fun _ he => he) (fun _ _ he => he.markReady) fun _ _ => ?_
    · exact fun m hm => ⟨h.stamped m hm, (h.bounded m hm).trans lastPrepared_lt_next.le⟩
    · exact ⟨Position.seq_stamp .., Nat.le_refl _⟩
  refine ⟨?_, ?_, ?_, ?_, ?_⟩
  · rw [queue_prepare hn]
    exact h1
  · rw [queue_prepare hn]
    exact h2
  · rw [queue_prepare hn]
    exact fun m hm => (hf m hm).1
  · rw [queue_prepare hn]
    exact fun m hm => (hf m hm).2
  · intro v hv
    rw [position_prepare, lastPrepared_prepare]
    exact (h.covered v hv).trans lastPrepared_lt_next.le

theorem raise (h : s.Exact raised) : (s.raise v).Exact (v :: raised) := by
  refine h.congr rfl rfl (Nat.le_max_left ..) ?_
  intro w hw
  rcases List.mem_cons.mp hw with rfl | hw
  · exact .inr (Nat.le_max_right ..)
  · exact .inl hw

theorem requeue {q : Queue} (h : s.Exact raised) (hq : t.queue = q) (hp : t.position = s.position)
    (hl : t.lastPrepared = s.lastPrepared) (hx : q.Valid ∧ q.Exact)
    (hf : q.Each (Entry.Fits s.position s.lastPrepared)) : t.Exact raised := by
  refine ⟨hq ▸ hx.1, hq ▸ hx.2, ?_, ?_, ?_⟩
  · rw [hq, hp]
    exact fun n hn => (hf n hn).1
  · rw [hq, hl]
    exact fun n hn => (hf n hn).2
  · rw [hp, hl]
    exact h.covered

theorem settle (h : s.Exact raised) (hv : v ∈ raised)
    (hu : ∀ n, s.queue.find? g = some n → (s.queue.entry n).received = false) :
    (s.settle g v now).1.Exact raised := by
  cases hf : s.queue.find? g with
  | none =>
    rw [settle_none hf]
    exact h.congr rfl rfl (Nat.le_refl _) fun w hw => .inl hw
  | some n =>
    obtain ⟨m, e⟩ := settle_some h.valid v now hf
    have hx := h.valid.commit_exact v (s.position.seq v) now h.exact hf (hu n hf)
    refine h.requeue (by rw [e]; rfl) (by rw [e]) (by rw [e]) hx ?_
    exact h.valid.commit_each h.fits (fun _ _ => ⟨rfl, h.covered v hv⟩) (fun _ _ he => he.markReady)
      fun _ he => he.holdBack

theorem rollback (h : s.Exact raised) : (s.rollback g now).1.Exact raised := by
  cases hf : s.queue.find? g with
  | none =>
    rw [rollback_none hf]
    exact h
  | some n =>
    have e := rollback_some h.valid now hf
    refine h.requeue (by rw [e]; rfl) (by rw [e]; rfl) (by rw [e]; rfl)
      (h.valid.rollback_exact h.exact) ?_
    exact h.valid.rollback_each h.fits (fun _ he => he) fun _ _ he => he.markReady

theorem detach (h : s.Exact raised) : (s.detach now).1.Exact raised := by
  refine h.requeue (q := (s.queue.detach now).1) rfl rfl rfl (h.valid.detach_exact h.exact) ?_
  exact h.valid.detach_each h.fits fun _ _ he => he.markReady

theorem update {f : Entry → Entry} (h : s.Exact raised) (hn : ∀ e, (f e).admission = e.admission)
    (hg : ∀ e, (f e).id = e.id) (ho : ∀ e, (f e).order = e.order)
    (hv : ∀ e, (f e).version = e.version) (hr : ∀ e, (f e).ready = e.ready)
    (hd : ∀ e, (f e).received = e.received) : (s.setQueue (s.queue.update n f)).Exact raised := by
  refine h.requeue rfl rfl rfl ⟨h.valid.update hn hg ho, h.exact.update hr hd ho⟩ ?_
  refine h.fits.update fun e he => ?_
  rw [Entry.Fits, hv, ho]
  exact he

theorem claim (h : s.Exact raised) : (s.setQueue (s.queue.claim n).1).Exact raised :=
  h.update (fun _ => rfl) (fun _ => rfl) (fun _ => rfl) (fun _ => rfl) (fun _ => rfl) fun _ => rfl

theorem markCommitted (h : s.Exact raised) :
    (s.setQueue (s.queue.markCommitted n now)).Exact raised := by
  apply h.update
  all_goals
    intro e
    unfold Entry.markCommitted
    split <;> rfl

end Exact

end Sequencer

end Multiversion
