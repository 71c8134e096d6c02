import Mathlib
import Multiversion.Proofs.Queue.Exact

/-!
Where no final version lies below its tentative one, a batch gains no member once it is ready, and
its sub-versions follow the line.
-/

namespace Multiversion.Queue

variable {q r : Queue} {v : Version} {e : Entry} {m n order : Nat} {now : Time}

structure Steady (q : Queue) : Prop where
  valid : q.Valid
  sound : q.Sound
  whole : ∀ m ∈ q.line, ∀ n ∈ q.line, q.order m = q.order n →
    (q.entry m).ready = true → (q.entry n).ready = true
  ascending : ∀ m ∈ q.line, ∀ n ∈ q.line, q.order m = q.order n →
    (q.entry m).ready = true → m < n → (q.entry m).sub < (q.entry n).sub

namespace Steady

theorem empty {tracking : Bool} : Steady { tracking } := by
  refine ⟨valid_empty, ?_, ?_, ?_⟩
  all_goals
    intro n hn
    exact absurd hn List.not_mem_nil

variable (h : q.Steady)
include h

theorem of_subset (hv : r.Valid) (hr : ∀ m ∈ r.line, m ∈ q.line ∧ r.entry m = q.entry m) :
    r.Steady := by
  refine ⟨hv, ?_, ?_, ?_⟩
  · intro m hm hu k hk hle
    rw [Queue.order, Queue.order, (hr k hk).2, (hr m hm).2] at hle
    rw [(hr m hm).2] at hu
    rw [(hr k hk).2]
    exact h.sound m (hr m hm).1 hu k (hr k hk).1 hle
  · intro m hm n hn
    rw [Queue.order, Queue.order, (hr m hm).2, (hr n hn).2]
    exact h.whole m (hr m hm).1 n (hr n hn).1
  · intro m hm n hn
    rw [Queue.order, Queue.order, (hr m hm).2, (hr n hn).2]
    exact h.ascending m (hr m hm).1 n (hr n hn).1

theorem removed (hr : q.Removed n r) : r.Steady := by
  refine h.of_subset hr.valid fun m hm => ?_
  obtain ⟨hm, hmn⟩ := (hr.line m).mp hm
  exact ⟨hm, hr.kept m hmn⟩

theorem detached (hr : q.Detached r) : r.Steady := by
  refine h.of_subset hr.valid fun m hm => ⟨?_, hr.kept m⟩
  rw [hr.line] at hm
  exact (List.dropWhile_sublist _).subset hm

theorem enqueued (hr : q.Enqueued e r) (hu : e.ready = false)
    (ho : ∀ m ∈ q.line, q.order m < e.order) : r.Steady := by
  have old {m} (hm : m ∈ q.line) : r.entry m = q.entry m := hr.kept_line h.valid hm
  have fresh_unready : (r.entry q.entries.size).ready = false := by
    rw [hr.fresh]
    exact hu
  have fresh_order : r.order q.entries.size = e.order := by rw [Queue.order, hr.fresh]
  have old_order {m} (hm : m ∈ q.line) : r.order m = q.order m := by
    rw [Queue.order, old hm, Queue.order]
  refine ⟨hr.valid, hr.sound h.valid h.sound hu fun m hm _ => ho m hm, ?_, ?_⟩
  · intro m hm n hn heq hmr
    rcases (hr.line m).mp hm with rfl | hm
    · rw [fresh_unready] at hmr
      cases hmr
    · rcases (hr.line n).mp hn with rfl | hn
      · rw [old_order hm, fresh_order] at heq
        exact absurd (ho m hm) (by omega)
      · rw [old_order hm, old_order hn] at heq
        rw [old hm] at hmr
        rw [old hn]
        exact h.whole m hm n hn heq hmr
  · intro m hm n hn heq hmr hlt
    rcases (hr.line m).mp hm with rfl | hm
    · rw [fresh_unready] at hmr
      cases hmr
    · rcases (hr.line n).mp hn with rfl | hn
      · rw [old_order hm, fresh_order] at heq
        exact absurd (ho m hm) (by omega)
      · rw [old_order hm, old_order hn] at heq
        rw [old hm] at hmr ⊢
        rw [old hn]
        exact h.ascending m hm n hn heq hmr hlt

theorem received (hr : q.Received n v order now r) (hn : n ∈ q.line)
    (hu : (q.entry n).received = false) (ho : q.order n ≤ order) : r.Steady := by
  have line {m} (hm : m ∈ r.line) : m ∈ q.line := (hr.line m).mp hm
  have unready : (r.entry n).ready = false := by
    rw [hr.settled]
    exact h.sound.unready hn hu
  have apart {m} (hm : m ∈ q.line) (hmn : m ≠ n) (hmr : (r.entry m).ready = true) :
      r.order m < r.order n := by
    rw [hr.kept m hmn] at hmr
    have hlt : q.order m < q.order n := by
      by_contra hle
      rw [h.sound m hm hmr n hn (by omega)] at hu
      cases hu
    rw [Queue.order, hr.kept m hmn, Queue.order, hr.settled]
    exact hlt.trans_le ho
  have others {m k} (hm : m ∈ r.line) (hmr : (r.entry m).ready = true)
      (heq : r.order m = r.order k) : m ≠ n ∧ k ≠ n := by
    have hmn : m ≠ n := by
      rintro rfl
      rw [unready] at hmr
      cases hmr
    refine ⟨hmn, ?_⟩
    rintro rfl
    exact absurd (apart (line hm) hmn hmr) (by omega)
  refine ⟨hr.valid, hr.sound h.sound (by simp [h.sound.unready hn hu]), ?_, ?_⟩
  · intro m hm k hk heq hmr
    obtain ⟨hmn, hkn⟩ := others hm hmr heq
    rw [Queue.order, Queue.order, hr.kept m hmn, hr.kept k hkn] at heq
    rw [hr.kept m hmn] at hmr
    rw [hr.kept k hkn]
    exact h.whole m (line hm) k (line hk) heq hmr
  · intro m hm k hk heq hmr hlt
    obtain ⟨hmn, hkn⟩ := others hm hmr heq
    rw [Queue.order, Queue.order, hr.kept m hmn, hr.kept k hkn] at heq
    rw [hr.kept m hmn] at hmr ⊢
    rw [hr.kept k hkn]
    exact h.ascending m (line hm) k (line hk) heq hmr hlt

theorem grantReady : (q.grantReady now).Steady := by
  have received {m} (hm : m ∈ q.line) (hu : (q.entry m).ready = true) := h.sound.received hm hu
  have exact := h.valid.grantReady_exact now h.sound
  have order_eq (m) : (q.grantReady now).order m = q.order m := congrFun order_grantReady m
  refine ⟨h.valid.grantReady, exact.sound, ?_, ?_⟩
  · intro m hm n hn heq hmr
    exact (exact n hn).mpr (((exact m hm).mp hmr).of_le heq.ge)
  · intro m hm n hn heq hmr hlt
    have hnr := (exact n hn).mpr (((exact m hm).mp hmr).of_le heq.ge)
    rw [line_grantReady] at hm hn
    rw [order_eq, order_eq] at heq
    have hready {k} (hk : k ∈ q.line) : ((q.grantReady now).entry k).ready = true ↔
        (q.entry k).ready = true ∨ q.Decided k := ready_grantReady h.valid (fun _ => received) hk
    by_cases hum : (q.entry m).ready = true
    · have hun := h.whole m hm n hn heq hum
      rw [entry_grantReady_of_ready h.valid (fun _ => received) hum,
        entry_grantReady_of_ready h.valid (fun _ => received) hun]
      exact h.ascending m hm n hn heq hum hlt
    · have hun : (q.entry n).ready ≠ true := fun hun => hum (h.whole n hn m hm heq.symm hun)
      exact sub_lt_sub_grantReady h.valid (fun _ => received) hm hn (by simpa using hum)
        (by simpa using hun) (((hready hm).mp hmr).resolve_left hum)
        (((hready hn).mp hnr).resolve_left hun) heq hlt

theorem update {f : Entry → Entry} (hn : ∀ e, (f e).admission = e.admission)
    (hg : ∀ e, (f e).id = e.id) (ho : ∀ e, (f e).order = e.order)
    (hr : ∀ e, (f e).ready = e.ready) (hd : ∀ e, (f e).received = e.received)
    (hs : ∀ e, (f e).sub = e.sub) : (q.update n f).Steady := by
  refine ⟨h.valid.update hn hg ho, ?_, ?_, ?_⟩
  · intro m hm
    rw [line_update] at hm
    simp only [Decided, line_update, Queue.order, update_keeps Entry.ready hr,
      update_keeps Entry.received hd, update_keeps Entry.order ho]
    exact h.sound m hm
  · intro m hm n hn
    simp only [Queue.order, update_keeps Entry.ready hr, update_keeps Entry.order ho]
    exact h.whole m hm n hn
  · intro m hm n hn
    simp only [Queue.order, update_keeps Entry.ready hr, update_keeps Entry.order ho,
      update_keeps Entry.sub hs]
    exact h.ascending m hm n hn

end Steady

end Multiversion.Queue
