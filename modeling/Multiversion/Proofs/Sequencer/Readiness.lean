import Mathlib
import Multiversion.Proofs.Sequencer.Exact

namespace Multiversion.Sequencer

inductive Step : Sequencer × List Version → Sequencer × List Version → Prop
  | prepare (s raised n now) (h : n < s.inFlight.transactions.all.size) :
      Step (s, raised) ((s.prepare n now).1, raised)
  | raise (s raised v) : Step (s, raised) (s.raise v, v :: raised)
  -- an entry that is still queued gets one commit at most, whatever its version
  | settle (s raised g v now) (hv : v ∈ raised)
      (hu : ∀ n, s.queue.find? g = some n → (s.queue.entry n).received = false) :
      Step (s, raised) ((s.settle g v now).1, raised.erase v)
  | rollback (s raised g now) : Step (s, raised) ((s.rollback g now).1, raised)
  | claim (s raised n) : Step (s, raised) (s.setQueue (s.queue.claim n).1, raised)
  | markCommitted (s raised n now) :
      Step (s, raised) (s.setQueue (s.queue.markCommitted n now), raised)
  | detach (s raised now) : Step (s, raised) ((s.detach now).1, raised)
  -- whatever is inserted into the log, folded into it or pruned from it
  | log (s raised log) : Step (s, raised) ({ s with log }, raised)
  -- begins, finishes and writes, here and at other members
  | transactions (s raised transactions live) :
      Step (s, raised) ({ s with live, inFlight := { s.inFlight with transactions } }, raised)

abbrev Run := Relation.ReflTransGen Step

section Calls

variable {s : Sequencer} {raised : List Version} {g : TransactionId} {v : Version} {n : Nat}
  {ns : List Nat} {txs : List Committed} {now : Time}

theorem Run.begin : Run (s, raised) ((s.begin g).2, raised) := .single (.transactions ..)

theorem Run.commit (hu : ∀ n, s.queue.find? g = some n → (s.queue.entry n).received = false) :
    Run (s, raised) ((s.commit g v now).1, raised) := by
  have h : Step (s.raise v, v :: raised) ((s.commit g v now).1, (v :: raised).erase v) :=
    .settle (s.raise v) (v :: raised) g v now (by simp) hu
  rw [List.erase_cons_head] at h
  exact (Relation.ReflTransGen.single (.raise s raised v)).tail h

theorem Run.claimAll : Run (s, raised) ((s.claimAll ns).1, raised) := by
  have h (q : Queue) : Run (s.setQueue q, raised) (s.setQueue (q.claimAll ns).1, raised) := by
    induction ns generalizing q with
    | nil => exact .refl
    | cons n ns ih => exact (ih _).head (.claim (s.setQueue q) raised n)
  exact h s.queue

theorem Run.markAll : Run (s, raised) (s.markAll ns now, raised) := by
  have h (q : Queue) : Run (s.setQueue q, raised) (s.setQueue (q.markAll ns now), raised) := by
    induction ns generalizing q with
    | nil => exact .refl
    | cons n ns ih => exact (ih _).head (.markCommitted (s.setQueue q) raised n now)
  exact h s.queue

theorem Run.publish : Run (s, raised) ((s.publish txs ns now).1, raised) := by
  have h : Run (s, raised) ((s.insertAll txs).markAll ns now, raised) :=
    .head (.log s raised _) Run.markAll
  exact h.tail (.detach _ raised now)

end Calls

theorem Step.position_eq {x y : Sequencer × List Version} (h : Step x y) :
    y.1.position = x.1.position := by
  cases h with
  | settle s raised g v now hv hu => exact position_settle
  | rollback s raised g now => exact position_rollback
  | _ => rfl

theorem Step.exact {x y : Sequencer × List Version} (h : Step x y) (hx : x.1.Exact x.2) :
    y.1.Exact y.2 := by
  cases h with
  | prepare s raised n now h => exact hx.prepare h
  | raise s raised v => exact hx.raise
  | settle s raised g v now hv hu =>
    exact (hx.settle hv hu).congr rfl rfl (Nat.le_refl _) fun w hw =>
      .inl (List.mem_of_mem_erase hw)
  | rollback s raised g now => exact hx.rollback
  | claim s raised n => exact hx.claim
  | markCommitted s raised n now => exact hx.markCommitted
  | detach s raised now => exact hx.detach
  | log s raised log => exact hx.congr rfl rfl (Nat.le_refl _) fun w hw => .inl hw
  | transactions s raised ts live => exact hx.congr rfl rfl (Nat.le_refl _) fun w hw => .inl hw

theorem Run.exact {x y : Sequencer × List Version} (h : Run x y) (hx : x.1.Exact x.2) :
    y.1.Exact y.2 ∧ y.1.position = x.1.position := by
  induction h with
  | refl => exact ⟨hx, rfl⟩
  | tail _ hs ih => exact ⟨hs.exact ih.1, hs.position_eq.trans ih.2⟩

def component (s : Sequencer) (n : Nat) : Nat := s.position.seq (s.queue.entry n).version

theorem Exact.component_eq {s : Sequencer} {raised : List Version} {n : Nat} (h : s.Exact raised)
    (hn : n ∈ s.queue.line) : s.component n = s.queue.order n := h.stamped n (h.valid.known hn)

/-- Readiness is exact in every reachable state, for final versions of any size. -/
theorem ready_iff_decided {p : Position} {log : CommitLog} {tracking : Bool} {s : Sequencer}
    {raised : List Version} (h : Run (onLog p log tracking, []) (s, raised)) :
    s.position = p ∧
    (∀ n ∈ s.queue.line, (s.queue.entry n).ready = true ↔
      ∀ m ∈ s.queue.line, s.component m ≤ s.component n → (s.queue.entry m).received = true) ∧
    (∃ rest, s.queue.line = s.readyPrefix ++ rest ∧
      (∀ m ∈ s.readyPrefix, (s.queue.entry m).ready = true) ∧
      (∀ n ∈ rest, (s.queue.entry n).ready = false) ∧
      ∀ m ∈ s.readyPrefix, ∀ n ∈ rest, s.component m < s.component n) ∧
    (∀ m ∈ s.queue.line, (s.queue.entry m).ready = true → s.component m < s.nextSequence ∧
      ∀ n ∈ s.queue.line, (s.queue.entry n).received = false → s.component m < s.component n) ∧
    ∀ n ∈ s.queue.line, (s.queue.entry n).received = true → (s.queue.entry n).ready = false →
      ∃ m ∈ s.queue.line, s.component m ≤ s.component n ∧ (s.queue.entry m).received = false := by
  obtain ⟨hx, hp⟩ := h.exact Exact.onLog
  have comp {n} (hn : n ∈ s.queue.line) : s.component n = s.queue.order n := hx.component_eq hn
  refine ⟨hp, ?_, ?_, ?_, ?_⟩
  · intro n hn
    rw [hx.exact n hn]
    refine forall₂_congr fun m hm => ?_
    rw [comp hm, comp hn]
  · obtain ⟨rest, hline, hus, hvs, hlt⟩ := hx.exact.exists_rest hx.valid
    refine ⟨rest, hline, hus, hvs, ?_⟩
    intro m hm n hn
    rw [comp (hline ▸ List.mem_append_left _ hm), comp (hline ▸ List.mem_append_right _ hn)]
    exact hlt m hm n hn
  · intro m hm hr
    refine ⟨?_, fun n hn hu => ?_⟩
    · rw [comp hm]
      exact hx.order_lt_next m hm
    · rw [comp hm, comp hn]
      exact hx.exact.lt_of_undecided hm hn hr hu
  · intro n hn _ hu
    obtain ⟨m, hm, hle, hr⟩ := hx.exact.exists_undecided hn hu
    exact ⟨m, hm, by rwa [comp hm, comp hn], hr⟩

def overtaking : Sequencer :=
  let s := ((onLog (.of 0 1 1) (.empty (.of 0 1 1)) false).begin ⟨default, 1⟩).2
  let s := ((s.begin ⟨default, 2⟩).2.prepare 0 0).1
  (s.prepare 1 0).1

def overtaken : Sequencer := (overtaking.commit ⟨default, 2⟩ (.zero 1 0 1) 0).1

theorem run_overtaken :
    Run (onLog (.of 0 1 1) (.empty (.of 0 1 1)) false, []) (overtaken, []) := by
  have h : Run (onLog (.of 0 1 1) (.empty (.of 0 1 1)) false, []) (overtaking, []) :=
    ((Run.begin.trans Run.begin).tail (.prepare _ _ 0 0 (by decide))).tail
      (.prepare _ _ 1 0 (by decide))
  refine h.trans (Run.commit ?_)
  intro n hn
  have e : overtaking.queue.find? ⟨default, 2⟩ = some 1 := by decide
  rw [e] at hn
  cases hn
  decide

theorem ready_iff_decided_overtaken : overtaken.queue.line = [1, 0] ∧
    (overtaken.queue.entry 1).ready = true ∧ (overtaken.queue.entry 0).ready = false ∧
    ∀ m ∈ overtaken.queue.line, overtaken.component m ≤ overtaken.component 1 →
      (overtaken.queue.entry m).received = true := by
  have hr : (overtaken.queue.entry 1).ready = true := by decide +kernel
  have h := (ready_iff_decided run_overtaken).2.1 1 (by decide +kernel)
  exact ⟨by decide +kernel, hr, by decide +kernel, h.mp hr⟩

end Multiversion.Sequencer
