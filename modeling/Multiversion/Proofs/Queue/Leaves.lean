import Mathlib
import Multiversion.Proofs.Queue.Run

namespace Multiversion

namespace Queue

variable {q r s : Queue} {g : TransactionId} {v : Version} {e : Entry} {m n tx order clock : Nat}
  {now : Time}

def Accounted (q : Queue) (n : Nat) : Prop :=
  n < q.entries.size → n ∈ q.line ∨ (q.entry n).notifier.verdict ≠ none ∨
    (q.entry n).committed = true

structure Leaves (n : Nat) (q r : Queue) : Prop where
  size : q.entries.size ≤ r.entries.size
  committed : (r.entry n).committed = (q.entry n).committed
  verdict : (r.entry n).notifier.verdict = (q.entry n).notifier.verdict ∨
    (q.entry n).notifier.verdict = none ∧ (r.entry n).notifier.verdict = some .aborted
  line : n ∈ r.line → (r.entry n).notifier.verdict = (q.entry n).notifier.verdict ∧
    (n ∈ q.line ∨ (q.entry n).notifier.verdict = none)
  accounted : q.Accounted n → r.Accounted n

namespace Leaves

theorem refl : Leaves n q q := ⟨Nat.le_refl _, rfl, .inl rfl, fun h => ⟨rfl, .inl h⟩, id⟩

theorem trans (h : Leaves n q r) (h' : Leaves n r s) : Leaves n q s := by
  refine ⟨h.size.trans h'.size, h'.committed.trans h.committed, ?_, ?_,
    fun ha => h'.accounted (h.accounted ha)⟩
  · rcases h'.verdict with h1 | ⟨h1, h2⟩
    · rw [h1]
      exact h.verdict
    · rcases h.verdict with h3 | ⟨h3, h4⟩
      · exact .inr ⟨h3.symm.trans h1, h2⟩
      · rw [h1] at h4
        cases h4
  · intro hn
    obtain ⟨h1, h2⟩ := h'.line hn
    rcases h2 with h2 | h2
    · obtain ⟨h3, h4⟩ := h.line h2
      exact ⟨h1.trans h3, h4⟩
    · rcases h.verdict with h3 | ⟨h3, -⟩
      · exact ⟨h1.trans h3, .inr (h3.symm.trans h2)⟩
      · exact ⟨h1.trans (h2.trans h3.symm), .inr h3⟩

theorem update {f : Entry → Entry} (hn : ∀ e, (f e).notifier = e.notifier)
    (hc : ∀ e, (f e).committed = e.committed) : Leaves n q (q.update m f) := by
  refine ⟨size_update.ge, update_keeps Entry.committed hc, ?_, ?_, ?_⟩
  · exact .inl (congrArg Notifier.verdict (update_keeps Entry.notifier hn))
  · intro hl
    rw [update_keeps Entry.notifier hn]
    exact ⟨rfl, .inl hl⟩
  · intro ha
    rw [Accounted, size_update, line_update, update_keeps Entry.notifier hn,
      update_keeps Entry.committed hc]
    exact ha

theorem update_of_ne {f : Entry → Entry} (h : n ≠ m) : Leaves n q (q.update m f) := by
  have he : (q.update m f).entry n = q.entry n := entry_update_of_ne h
  refine ⟨size_update.ge, by rw [he], .inl (by rw [he]), ?_, ?_⟩
  · rw [he, line_update]
    exact fun hl => ⟨rfl, .inl hl⟩
  · rw [Accounted, Accounted, size_update, he, line_update]
    exact id

theorem grantReady : Leaves n q (q.grantReady now) := by
  have hn : ((q.grantReady now).entry n).notifier = (q.entry n).notifier :=
    grantReady_keeps Entry.notifier fun _ _ => Entry.notifier_markReady
  have hc : ((q.grantReady now).entry n).committed = (q.entry n).committed :=
    grantReady_keeps Entry.committed fun _ _ => Entry.committed_markReady
  refine ⟨size_grantReady.ge, hc, .inl (by rw [hn]), ?_, ?_⟩
  · intro hl
    rw [line_grantReady] at hl
    exact ⟨by rw [hn], .inl hl⟩
  · intro ha
    rw [Accounted, size_grantReady, line_grantReady, hn, hc]
    exact ha

end Leaves

theorem verdict_abort : e.abort.notifier.verdict = e.notifier.verdict ∧ e.notifier.verdict ≠ none ∨
    e.notifier.verdict = none ∧ e.abort.notifier.verdict = some .aborted := by
  unfold Entry.abort Notifier.decide
  cases hv : e.notifier.verdict with
  | none => exact .inr ⟨rfl, rfl⟩
  | some v => exact .inl ⟨hv, Option.some_ne_none v⟩

theorem Removed.leaves (hr : q.Removed m r) : Leaves n q r := by
  refine ⟨hr.size.ge, hr.keeps Entry.committed fun _ => rfl, ?_, ?_, ?_⟩
  · by_cases hn : n = m
    · subst hn
      rw [hr.left]
      exact verdict_abort.imp_left And.left
    · exact .inl (by rw [hr.kept n hn])
  · intro hl
    obtain ⟨hl, hn⟩ := (hr.line n).mp hl
    rw [hr.kept n hn]
    exact ⟨rfl, .inl hl⟩
  · intro ha hlt
    by_cases hn : n = m
    · subst hn
      rw [hr.left]
      refine .inr (.inl ?_)
      rcases verdict_abort (e := q.entry n) with ⟨h1, h2⟩ | ⟨-, h2⟩
      · rwa [h1]
      · simp [h2]
    · rw [hr.line, hr.kept n hn]
      exact (ha (hr.size ▸ hlt)).imp_left fun hl => ⟨hl, hn⟩

theorem Enqueued.leaves (hr : q.Enqueued e r) (hn : e.notifier.verdict = none)
    (hc : e.committed = false) : Leaves n q r := by
  rcases Nat.lt_trichotomy n q.entries.size with hlt | rfl | hlt
  · have he := hr.kept n hlt
    refine ⟨hr.size ▸ Nat.le_succ _, by rw [he], .inl (by rw [he]), ?_, ?_⟩
    · intro hl
      exact ⟨by rw [he], .inl (((hr.line n).mp hl).resolve_left hlt.ne)⟩
    · intro ha _
      rw [he, hr.line]
      exact (ha hlt).imp_left .inr
  · have he : q.entry q.entries.size = default := entry_of_le (Nat.le_refl _)
    refine ⟨hr.size ▸ Nat.le_succ _, ?_, ?_, ?_, ?_⟩
    · rw [hr.fresh, he]
      exact hc
    · rw [hr.fresh, he]
      exact .inl hn
    · intro _
      rw [hr.fresh, he]
      exact ⟨hn, .inr rfl⟩
    · exact fun _ _ => .inl ((hr.line _).mpr (.inl rfl))
  · have hq : q.entry n = default := entry_of_le hlt.le
    have hr' : r.entry n = default := entry_of_le (hr.size ▸ hlt)
    refine ⟨hr.size ▸ Nat.le_succ _, by rw [hq, hr'], .inl (by rw [hq, hr']), ?_, ?_⟩
    · intro _
      rw [hq, hr']
      exact ⟨rfl, .inr rfl⟩
    · intro _ hn'
      rw [hr.size] at hn'
      omega

theorem Received.leaves (hr : q.Received m v order now r) : Leaves n q r := by
  have hn : (r.entry n).notifier = (q.entry n).notifier := hr.keeps Entry.notifier fun _ => rfl
  have hc : (r.entry n).committed = (q.entry n).committed := hr.keeps Entry.committed fun _ => rfl
  refine ⟨hr.size.ge, hc, .inl (by rw [hn]), ?_, ?_⟩
  · intro hl
    exact ⟨by rw [hn], .inl ((hr.line n).mp hl)⟩
  · intro ha
    rw [Accounted, hr.size, hr.line, hn, hc]
    exact ha

theorem Detached.leaves (hr : q.Detached r) : Leaves n q r := by
  have he := hr.kept n
  refine ⟨hr.size.ge, by rw [he], .inl (by rw [he]), ?_, ?_⟩
  · intro hl
    rw [hr.line] at hl
    exact ⟨by rw [he], .inl ((List.dropWhile_sublist _).subset hl)⟩
  · intro ha hlt
    rw [he, hr.line]
    rcases ha (hr.size ▸ hlt) with hl | ha
    · rw [← List.takeWhile_append_dropWhile (p := fun n => (q.entry n).committed) (l := q.line),
        List.mem_append] at hl
      rcases hl with hl | hl
      · have hc := List.mem_takeWhile_imp hl
        exact .inr (.inr hc)
      · exact .inl hl
    · exact .inr ha

namespace Valid

variable (h : q.Valid)
include h

theorem prepare_leaves : Leaves n q (q.prepare tx g v order clock now).1 :=
  h.prepare_cases (fun _ hr => hr.leaves rfl rfl) fun _ _ _ _ hr hs =>
    (hr.leaves.trans (hs.leaves rfl rfl)).trans .grantReady

theorem commit_leaves : Leaves n q (q.commit g v order now).1 := by
  refine h.commit_cases .refl fun k r _ hr => (hr.leaves.trans .grantReady).trans (.update ?_ ?_)
  all_goals
    intro e
    exact Entry.holdBack_keeps _ fun _ => rfl

theorem rollback_leaves : Leaves n q (q.rollback g now).1 :=
  h.rollback_cases .refl fun _ _ _ hr => hr.leaves.trans .grantReady

theorem detach_leaves : Leaves n q (q.detach now).1 :=
  h.detach_cases fun _ hr => hr.leaves.trans .grantReady

end Valid

end Queue

end Multiversion
