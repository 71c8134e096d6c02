import Mathlib
import Multiversion.Proofs.Queue.Numbers
import Multiversion.Proofs.Sequencer.Readiness

/-!
Sub-versions in the runs of the commit side. An entry whose final version joins a batch behind all
of its ready members takes the next number. One that joins it ahead of them, or after one of them
has left, is given a number that is taken already.
-/

namespace Multiversion

open Relation (ReflTransGen)

namespace Queue

variable {q r : Queue}

/-- Whatever receives its final version between `q` and `r` lands behind the ready members of its
    batch, none of which has left the line. -/
def Orderly (q r : Queue) : Prop :=
  ∀ n ∈ q.line, (q.entry n).received = false → (r.entry n).received = true →
    ∀ m < q.entries.size, (q.entry m).ready = true → q.order m = r.order n → m ∈ q.line ∧ m < n

instance : Decidable (Orderly q r) :=
  inferInstanceAs (Decidable (∀ n ∈ q.line, (q.entry n).received = false →
    (r.entry n).received = true → ∀ m < q.entries.size, (q.entry m).ready = true →
      q.order m = r.order n → m ∈ q.line ∧ m < n))

theorem orderly_refl : Orderly q q := by
  intro n hn hu hr
  rw [hu] at hr
  cases hr

theorem Numbered.orderly (h : q.Numbered) (hle : ∀ n ∈ q.line, q.order n ≤ r.order n) :
    Orderly q r := by
  intro n hn hu _ m _ hm ho
  have hlt := h.above m hm n hn hu
  have := hle n hn
  omega

end Queue

namespace Sequencer

variable {s : Sequencer} {raised : List Version} {x y : Sequencer × List Version}
  {g : TransactionId} {v : Version} {m n : Nat} {now : Time}

def OrderlyStep (x y : Sequencer × List Version) : Prop :=
  Step x y ∧ Queue.Orderly x.1.queue y.1.queue

abbrev OrderlyRun := ReflTransGen OrderlyStep

theorem Step.numbered (h : Step x y) (ho : Queue.Orderly x.1.queue y.1.queue)
    (hx : x.1.Exact x.2) (hn : x.1.queue.Numbered) : y.1.queue.Numbered := by
  cases h with
  | prepare s raised n now h =>
    rw [queue_prepare h]
    refine hn.prepare hx.valid hx.exact fun m hm => ?_
    exact (hx.bounded m hm).trans_lt lastPrepared_lt_next
  | raise s raised v => exact hn
  | settle s raised g v now hv hu =>
    rw [queue_settle hx.valid] at ho ⊢
    cases hf : s.queue.find? g with
    | none =>
      rw [Queue.Valid.commit_none hf]
      exact hn
    | some n =>
      obtain ⟨hl, -⟩ := hx.valid.find?_eq_some_iff.mp hf
      obtain ⟨hr, he⟩ := hx.valid.commit_settles v (s.position.seq v) now hf
      refine hn.commit hx.valid hx.exact hf (hu n hf) fun m hm hmo => ?_
      exact ho n hl (hu n hf) hr m (Queue.lt_of_ready hm) hm (hmo.trans he.symm)
  | rollback s raised g now =>
    rw [queue_rollback hx.valid]
    exact hn.rollback hx.valid hx.exact
  | claim s raised n =>
    exact hn.update hx.valid.nodup (fun _ => rfl) (fun _ => rfl) (fun _ => rfl) fun _ => rfl
  | markCommitted s raised n now =>
    refine hn.update hx.valid.nodup ?_ ?_ ?_ ?_
    all_goals
      intro e
      exact Entry.markCommitted_keeps _ fun _ _ _ => rfl
  | detach s raised now => exact hn.detach hx.valid hx.exact
  | log s raised log => exact hn
  | transactions s raised ts live => exact hn

theorem OrderlyRun.position_eq (h : OrderlyRun x y) : y.1.position = x.1.position := by
  induction h with
  | refl => rfl
  | tail _ hs ih => exact hs.1.position_eq.trans ih

theorem OrderlyRun.numbered (h : OrderlyRun x y) (hx : x.1.Exact x.2) (hn : x.1.queue.Numbered) :
    y.1.Exact y.2 ∧ y.1.queue.Numbered := by
  induction h with
  | refl => exact ⟨hx, hn⟩
  | tail _ hs ih => exact ⟨hs.1.exact ih.1, hs.1.numbered hs.2 ih.1 ih.2⟩

/-- No final version lies below the tentative one, which keeps every batch in order. -/
def RisingStep (x y : Sequencer × List Version) : Prop :=
  Step x y ∧ ∀ n ∈ x.1.queue.line, x.1.queue.order n ≤ y.1.queue.order n

theorem OrderlyRun.of_rising {p : Position} {log : CommitLog} {tracking : Bool}
    (h : ReflTransGen RisingStep (onLog p log tracking, []) y) :
    OrderlyRun (onLog p log tracking, []) y := by
  induction h with
  | refl => exact .refl
  | tail _ hs ih =>
    have hn := (ih.numbered Exact.onLog Queue.Numbered.empty).2
    exact ih.tail ⟨hs.1, hn.orderly hs.2⟩

theorem OrderlyRun.commit
    (hu : ∀ n, s.queue.find? g = some n → (s.queue.entry n).received = false)
    (ho : Queue.Orderly s.queue (s.commit g v now).1.queue) :
    OrderlyRun (s, raised) ((s.commit g v now).1, raised) := by
  have h : Step (s.raise v, v :: raised) ((s.commit g v now).1, (v :: raised).erase v) :=
    .settle (s.raise v) (v :: raised) g v now (by simp) hu
  rw [List.erase_cons_head] at h
  exact (ReflTransGen.single ⟨.raise s raised v, Queue.orderly_refl⟩).tail ⟨h, ho⟩

/-- Each number of a component is given out once, and the numbers ascend along the queue. -/
theorem sub_identifies {p : Position} {log : CommitLog} {tracking : Bool}
    (h : OrderlyRun (onLog p log tracking, []) (s, raised)) :
    s.position = p ∧
    (∀ m n, (s.queue.entry m).ready = true → (s.queue.entry n).ready = true →
      s.component m = s.component n → (s.queue.entry m).sub = (s.queue.entry n).sub → m = n) ∧
    s.queue.line.Pairwise fun m n => (s.queue.entry m).ready = true →
      (s.queue.entry n).ready = true → s.component m = s.component n →
        (s.queue.entry m).sub < (s.queue.entry n).sub := by
  obtain ⟨hx, hn⟩ : s.Exact raised ∧ s.queue.Numbered :=
    h.numbered Exact.onLog Queue.Numbered.empty
  have comp {m} (hm : (s.queue.entry m).ready = true) : s.component m = s.queue.order m :=
    hx.stamped m (Queue.lt_of_ready hm)
  refine ⟨h.position_eq, fun m n hm hn' hc hs => ?_, ?_⟩
  · rw [comp hm, comp hn'] at hc
    rcases Nat.lt_trichotomy m n with hlt | he | hlt
    · have := hn.ascending m n hm hn' hc hlt
      omega
    · exact he
    · have := hn.ascending n m hn' hm hc.symm hlt
      omega
  · refine hx.valid.sorted.imp ?_
    intro m n hmn hm hn' hc
    rw [comp hm, comp hn'] at hc
    refine hn.ascending m n hm hn' hc ?_
    unfold Before at hmn
    omega

def joined : Sequencer :=
  ((overtaking.commit ⟨default, 1⟩ (.zero 1 0 1) 0).1.commit ⟨default, 2⟩ (.zero 1 0 1) 0).1

theorem run_joined :
    OrderlyRun (onLog (.of 0 1 1) (.empty (.of 0 1 1)) false, []) (joined, []) := by
  have begun (s : Sequencer) (g) : OrderlyRun (s, []) ((s.begin g).2, []) :=
    .single ⟨.transactions .., Queue.orderly_refl⟩
  have h : OrderlyRun (onLog (.of 0 1 1) (.empty (.of 0 1 1)) false, []) (overtaking, []) :=
    (((begun _ _).trans (begun _ _)).tail ⟨.prepare _ _ 0 0 (by decide), by decide +kernel⟩).tail
      ⟨.prepare _ _ 1 0 (by decide), by decide +kernel⟩
  refine (h.trans (OrderlyRun.commit ?_ (by decide +kernel))).trans
    (OrderlyRun.commit ?_ (by decide +kernel))
  · intro n hn
    have e : overtaking.queue.find? ⟨default, 1⟩ = some 0 := by decide +kernel
    rw [e] at hn
    cases hn
    decide +kernel
  · intro n hn
    have e : (overtaking.commit ⟨default, 1⟩ (.zero 1 0 1) 0).1.queue.find? ⟨default, 2⟩ =
        some 1 := by decide +kernel
    rw [e] at hn
    cases hn
    decide +kernel

theorem sub_identifies_joined : joined.queue.line = [0, 1] ∧
    joined.component 0 = joined.component 1 ∧
    (joined.queue.entry 0).sub ≠ (joined.queue.entry 1).sub := by
  have h := (sub_identifies run_joined).2.1 0 1 (by decide +kernel) (by decide +kernel)
    (by decide +kernel)
  exact ⟨by decide +kernel, by decide +kernel, fun hs => absurd (h hs) (by decide)⟩

def doubled : Sequencer := (overtaken.commit ⟨default, 1⟩ (.zero 1 0 1) 0).1

theorem sub_doubled : Run (onLog (.of 0 1 1) (.empty (.of 0 1 1)) false, []) (doubled, []) ∧
    doubled.queue.line = [0, 1] ∧
    (doubled.queue.entry 0).ready = true ∧ (doubled.queue.entry 1).ready = true ∧
    doubled.component 0 = doubled.component 1 ∧
    (doubled.queue.entry 0).sub = (doubled.queue.entry 1).sub := by
  refine ⟨run_overtaken.trans (Run.commit ?_), by decide +kernel, by decide +kernel,
    by decide +kernel, by decide +kernel, by decide +kernel⟩
  intro n hn
  have e : overtaken.queue.find? ⟨default, 1⟩ = some 0 := by decide +kernel
  rw [e] at hn
  cases hn
  decide +kernel

end Sequencer

end Multiversion
