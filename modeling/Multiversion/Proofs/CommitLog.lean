import Mathlib
import Multiversion.Proofs.Gc.Floor
import Multiversion.Proofs.Timeline

namespace Multiversion

def Committed.entry (tx : Committed) : LogEntry := ⟨tx.version, tx.sub⟩

namespace CommitLog

inductive Call where
  | insert (txs : List Committed)
  | update (v : Version)
  | prune (floor : Version)

def call (log : CommitLog) (p : Position) : Call → CommitLog
  | .insert txs => log.insertAll p txs
  | .update v => log.update p v
  | .prune floor => (log.prune p floor).1

def run (log : CommitLog) (p : Position) (calls : List Call) : CommitLog :=
  calls.foldl (·.call p ·) log

variable {p : Position} {log log' : CommitLog} {v floor : Version} {txs : List Committed}
  {calls : List Call} {c : Call} {e : LogEntry}

def Sorted (p : Position) (log : CommitLog) : Prop :=
  Timeline.Sorted (LogEntry.rank p) log.history

theorem Sorted.ascending (h : log.Sorted p) : Timeline.Ascending (LogEntry.seq p) log.history :=
  Timeline.Sorted.ascending h

theorem insertAll_eq : log.insertAll p txs =
    { log with
      current := txs.foldl (fun v tx => p.join v [tx.version]) log.current
      history := (txs.map (·.entry)).foldl
        (fun es e => Timeline.insert (LogEntry.rank p) e es) log.history } := by
  rw [insertAll]
  induction txs generalizing log with
  | nil => rfl
  | cons tx txs ih => exact ih

theorem history_insertAll : (log.insertAll p txs).history =
    (txs.map (·.entry)).foldl
      (fun es e => Timeline.insert (LogEntry.rank p) e es) log.history :=
  congrArg history insertAll_eq

theorem history_insertAll_congr (h : log.history = log'.history) :
    (log.insertAll p txs).history = (log'.insertAll p txs).history := by
  rw [history_insertAll, history_insertAll, h]

theorem mem_history_insertAll (h : e ∈ (log.insertAll p txs).history) :
    e ∈ log.history ∨ ∃ tx ∈ txs, e = ⟨tx.version, tx.sub⟩ := by
  rw [history_insertAll, Timeline.mem_foldl_insert, List.mem_map] at h
  exact h.imp_right fun ⟨tx, htx, he⟩ => ⟨tx, htx, he.symm⟩

theorem Sorted.insertAll (h : log.Sorted p) : (log.insertAll p txs).Sorted p := by
  rw [Sorted, history_insertAll, Timeline.Sorted.foldl_insert h]
  exact Timeline.sorted_sort

theorem history_prune : (log.prune p floor).1.history =
    Timeline.prune (LogEntry.seq p) (p.seq floor) log.history := by
  rcases Timeline.prune_cut (LogEntry.seq p) (p.seq floor) log.history with
    ⟨hu, hp⟩ | ⟨gone, kept, hu, -, hp⟩
  · simp [prune, hu, hp]
  · simp [prune, hu, hp]

theorem Sorted.call (h : log.Sorted p) : (log.call p c).Sorted p := by
  cases c with
  | insert txs => exact h.insertAll
  | update v => exact h
  | prune floor =>
    rw [Sorted, CommitLog.call, history_prune]
    exact h.sublist (List.drop_sublist ..)

theorem Sorted.run (h : log.Sorted p) : (log.run p calls).Sorted p := by
  induction calls generalizing log with
  | nil => exact h
  | cons c calls ih => exact ih h.call

theorem sorted_empty : (empty p).Sorted p := List.Pairwise.nil

theorem Sorted.prune_cases (h : log.Sorted p) (floor : Version) :
    log.prune p floor = (log, floor) ∨
    ∃ gone kept later, log.history = gone ++ kept :: later ∧ kept.seq p ≤ p.seq floor ∧
      log.prune p floor =
        ({ log with history := kept :: later, floor := p.meet kept.version [floor] },
          p.meet kept.version [floor]) := by
  have hup := h.ascending.upTo_eq (p.seq floor)
  rcases h.ascending.prune_cut (p.seq floor) with
    ⟨hall, hp⟩ | ⟨gone, kept, later, hhist, hp, hle, -⟩
  · have hnone : Timeline.upTo (LogEntry.seq p) (p.seq floor) log.history = [] := by
      rw [hup, List.filter_eq_nil_iff]
      exact fun e he => by simpa using hall e he
    exact .inl (by rw [prune, if_pos hnone])
  · have hsome : Timeline.upTo (LogEntry.seq p) (p.seq floor) log.history ≠ [] := by
      rw [hup, ne_eq, List.filter_eq_nil_iff]
      exact fun hn => hn kept (by simp [hhist]) (by simpa using hle kept (by simp))
    refine .inr ⟨gone, kept, later, hhist, hle kept (by simp), ?_⟩
    rw [prune, if_neg hsome, hp]

theorem Sorted.available_eq (h : log.Sorted p) : log.available p v =
    ((Timeline.newest? (LogEntry.seq p) (p.seq v) log.history).map (·.version)).getD log.floor := by
  rw [available, h.ascending.upTo_eq, Timeline.newest?]
  cases (log.history.filter fun e => e.seq p ≤ p.seq v).getLast? <;> rfl

theorem Sorted.available_prune (h : log.Sorted p) (hv : p.seq (log.prune p floor).2 ≤ p.seq v) :
    (log.prune p floor).1.available p v = log.available p v := by
  have hafter : (log.prune p floor).1.Sorted p := h.call (c := .prune floor)
  rw [hafter.available_eq, h.available_eq]
  rcases h.prune_cases floor with hp | ⟨gone, kept, later, hhist, hle, hp⟩
  · rw [hp]
  · rw [hp] at hv ⊢
    have hseq : p.seq (p.meet kept.version [floor]) = min (kept.seq p) (p.seq floor) :=
      Position.component_meet
    rw [hseq, Nat.min_eq_left hle] at hv
    obtain ⟨e, he⟩ := Timeline.exists_newest? (List.mem_cons_self (l := later)) hv
    rw [hhist, Timeline.newest?_suffix hv, he]
    rfl

/-- A pruning is exact. What it takes a later entry supersedes at the floor, and what it takes
    nobody misses who reads at the version it returns or above. -/
theorem prune_exact (p : Position) (calls : List Call) (floor : Version) :
    let log := (empty p).run p calls
    let after := (log.prune p floor).1
    let needed := (log.prune p floor).2
    needed.dominatedBy floor = true ∧
    (∃ gone, log.history = gone ++ after.history ∧
      ∀ us e vs, log.history = us ++ e :: vs →
        (us.length < gone.length ↔ ∃ f ∈ vs, f.seq p ≤ p.seq floor)) ∧
    after.history.Pairwise (fun e f => e.rank p ≤ f.rank p) ∧
    (after.history.filter fun e => e.seq p ≤ p.seq floor).length ≤ 1 ∧
    after.current = log.current ∧
    ∀ v, p.seq needed ≤ p.seq v → after.available p v = log.available p v := by
  intro log after needed
  have h : log.Sorted p := sorted_empty.run
  have hhist : after.history = Timeline.prune (LogEntry.seq p) (p.seq floor) log.history :=
    history_prune
  refine ⟨Version.dominatedBy_iff.mpr prune_le, ?_, h.call (c := .prune floor), ?_, current_prune,
    fun v => h.available_prune⟩
  · rw [hhist]
    exact h.ascending.superseded _
  · rw [hhist, h.ascending.reached_prune]
    exact Option.length_toList_le

theorem prune_exact_batched :
    let entry (n sub : Nat) : Committed := ⟨default, ⟨1, 0, [n, 3]⟩, [], sub, 0⟩
    let p := Position.of 0 1 2
    let calls : List Call := [.insert [entry 9 0, entry 4 1], .insert [entry 2 0, entry 4 0],
      .prune ⟨1, 0, [1, 1]⟩]
    let log := (empty p).run p calls
    log.sequences p = [2, 4, 4, 9] ∧
    (log.prune p ⟨1, 0, [6, 2]⟩).1.history = [⟨⟨1, 0, [4, 3]⟩, 1⟩, ⟨⟨1, 0, [9, 3]⟩, 0⟩] ∧
    (log.prune p ⟨1, 0, [6, 2]⟩).2 = ⟨1, 0, [4, 2]⟩ ∧
    (log.prune p ⟨1, 0, [6, 2]⟩).1.available p ⟨1, 0, [4]⟩ = log.available p ⟨1, 0, [4]⟩ ∧
    (log.prune p ⟨1, 0, [6, 2]⟩).1.available p ⟨1, 0, [3]⟩ ≠ log.available p ⟨1, 0, [3]⟩ := by
  intro entry p calls log
  obtain ⟨-, -, -, -, -, hkeep⟩ := prune_exact p calls ⟨1, 0, [6, 2]⟩
  exact ⟨by decide +kernel, by decide +kernel, by decide +kernel,
    hkeep ⟨1, 0, [4]⟩ (by decide +kernel), by decide +kernel⟩

end CommitLog

end Multiversion
