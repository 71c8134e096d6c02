import Mathlib
import Multiversion.Proofs.Queue.Calls

/-!
Soundness alone survives every change that a call makes; the grant at its end then makes readiness
exact again.
-/

namespace Multiversion.Queue

variable {q r : Queue} {v : Version} {e : Entry} {m n order : Nat} {now : Time}

def Sound (q : Queue) : Prop := ∀ n ∈ q.line, (q.entry n).ready = true → q.Decided n

def Exact (q : Queue) : Prop := ∀ n ∈ q.line, (q.entry n).ready = true ↔ q.Decided n

theorem Decided.of_le (h : q.Decided n) (hle : q.order m ≤ q.order n) : q.Decided m :=
  fun k hk hkm => h k hk (hkm.trans hle)

theorem Decided.received (h : q.Decided n) (hn : n ∈ q.line) : (q.entry n).received = true :=
  h n hn (Nat.le_refl _)

theorem Sound.received (h : q.Sound) (hn : n ∈ q.line) (hu : (q.entry n).ready = true) :
    (q.entry n).received = true := (h n hn hu).received hn

theorem exists_undecided (h : ∀ n ∈ q.line, q.Decided n → (q.entry n).ready = true)
    (hn : n ∈ q.line) (hu : (q.entry n).ready = false) :
    ∃ m ∈ q.line, q.order m ≤ q.order n ∧ (q.entry m).received = false := by
  by_contra hall
  push Not at hall
  have hd : q.Decided n := fun m hm hle => by simpa using hall m hm hle
  rw [h n hn hd] at hu
  cases hu

namespace Exact

variable (h : q.Exact)
include h

theorem sound : q.Sound := fun n hn => (h n hn).mp

theorem lt_of_undecided (hm : m ∈ q.line) (hn : n ∈ q.line) (hr : (q.entry m).ready = true)
    (hu : (q.entry n).received = false) : q.order m < q.order n := by
  by_contra hle
  have := (h m hm).mp hr n hn (by omega)
  simp [hu] at this

theorem lt_of_unready (hm : m ∈ q.line) (hn : n ∈ q.line) (hr : (q.entry m).ready = true)
    (hu : (q.entry n).ready = false) : q.order m < q.order n := by
  by_contra hle
  have hd := ((h m hm).mp hr).of_le (m := n) (by omega)
  rw [(h n hn).mpr hd] at hu
  cases hu

theorem exists_undecided (hn : n ∈ q.line) (hu : (q.entry n).ready = false) :
    ∃ m ∈ q.line, q.order m ≤ q.order n ∧ (q.entry m).received = false :=
  Queue.exists_undecided (fun n hn => (h n hn).mpr) hn hu

theorem ready_downward (hv : q.Valid) :
    q.line.Pairwise fun m n => (q.entry n).ready = true → (q.entry m).ready = true := by
  refine hv.sorted.imp_of_mem ?_
  intro m n hm hn hmn hr
  exact (h m hm).mpr (((h n hn).mp hr).of_le hmn.order_le)

theorem readyPrefix_eq (hv : q.Valid) :
    q.readyPrefix = q.line.filter fun n => (q.entry n).ready :=
  takeWhile_eq_filter (h.ready_downward hv)

theorem exists_rest (hv : q.Valid) : ∃ rest, q.line = q.readyPrefix ++ rest ∧
    (∀ m ∈ q.readyPrefix, (q.entry m).ready = true) ∧
    (∀ n ∈ rest, (q.entry n).ready = false) ∧
    ∀ m ∈ q.readyPrefix, ∀ n ∈ rest, q.order m < q.order n := by
  have hline : q.line = q.readyPrefix ++ q.line.filter fun n => !(q.entry n).ready := by
    rw [← dropWhile_eq_filter (h.ready_downward hv)]
    exact List.takeWhile_append_dropWhile.symm
  have hready (m) (hm : m ∈ q.readyPrefix) : m ∈ q.line ∧ (q.entry m).ready = true := by
    rw [h.readyPrefix_eq hv] at hm
    exact List.mem_filter.mp hm
  have hrest (n) (hn : n ∈ q.line.filter fun n => !(q.entry n).ready) :
      n ∈ q.line ∧ (q.entry n).ready = false := by
    simpa using hn
  refine ⟨_, hline, fun m hm => (hready m hm).2, fun n hn => (hrest n hn).2, ?_⟩
  intro m hm n hn
  exact h.lt_of_unready (hready m hm).1 (hrest n hn).1 (hready m hm).2 (hrest n hn).2

end Exact

theorem decided_update {f : Entry → Entry} (hd : ∀ e, (f e).received = e.received)
    (ho : ∀ e, (f e).order = e.order) : (q.update m f).Decided n ↔ q.Decided n := by
  simp only [Decided, line_update, Queue.order, update_keeps Entry.received hd,
    update_keeps Entry.order ho]

theorem Exact.update {f : Entry → Entry} (h : q.Exact) (hr : ∀ e, (f e).ready = e.ready)
    (hd : ∀ e, (f e).received = e.received) (ho : ∀ e, (f e).order = e.order) :
    (q.update m f).Exact := by
  intro n hn
  rw [line_update] at hn
  rw [update_keeps Entry.ready hr, decided_update hd ho]
  exact h n hn

theorem decided_grantReady : (q.grantReady now).Decided n ↔ q.Decided n := by
  simp only [Decided, line_grantReady, order_grantReady,
    grantReady_keeps Entry.received fun _ _ => Entry.received_markReady]

theorem Valid.grantReady_exact (h : q.Valid) (now : Time) (hs : q.Sound) :
    (q.grantReady now).Exact := by
  intro n hn
  rw [line_grantReady] at hn
  rw [ready_grantReady h (fun m hm => hs.received hm) hn, decided_grantReady]
  exact ⟨fun hu => hu.elim (hs n hn) id, .inr⟩

theorem Removed.sound (h : q.Removed n r) (hs : q.Sound) : r.Sound := by
  intro m hm hr k hk hle
  obtain ⟨hm, hmn⟩ := (h.line m).mp hm
  obtain ⟨hk, hkn⟩ := (h.line k).mp hk
  rw [Queue.order, Queue.order, h.kept k hkn, h.kept m hmn] at hle
  rw [h.kept m hmn] at hr
  rw [h.kept k hkn]
  exact hs m hm hr k hk hle

theorem Enqueued.kept_line (h : q.Enqueued e r) (hv : q.Valid) (hm : m ∈ q.line) :
    r.entry m = q.entry m := h.kept m (hv.known hm)

theorem Enqueued.line_cases (h : q.Enqueued e r) (hv : q.Valid) (hm : m ∈ r.line) :
    m ∉ q.line ∧ r.entry m = { e with admission := q.entries.size, tracked := q.tracking } ∨
      m ∈ q.line ∧ r.entry m = q.entry m := by
  rcases (h.line m).mp hm with rfl | hm
  · exact .inl ⟨fun hm => Nat.lt_irrefl _ (hv.known hm), h.fresh⟩
  · exact .inr ⟨hm, h.kept_line hv hm⟩

theorem Enqueued.sound (h : q.Enqueued e r) (hv : q.Valid) (hs : q.Sound) (hu : e.ready = false)
    (ho : ∀ m ∈ q.line, (q.entry m).ready = true → q.order m < e.order) : r.Sound := by
  intro m hm hr k hk hle
  rcases (h.line m).mp hm with rfl | hm
  · rw [h.fresh] at hr
    simp [hu] at hr
  · rw [h.kept_line hv hm] at hr
    rcases (h.line k).mp hk with rfl | hk
    · rw [Queue.order, Queue.order, h.fresh, h.kept_line hv hm] at hle
      exact absurd (ho m hm hr) (Nat.not_lt.mpr hle)
    · rw [Queue.order, Queue.order, h.kept_line hv hk, h.kept_line hv hm] at hle
      rw [h.kept_line hv hk]
      exact hs m hm hr k hk hle

theorem Enqueued.exact (h : q.Enqueued e r) (hv : q.Valid) (hx : q.Exact) (hu : e.ready = false)
    (hd : e.received = false) (ho : ∀ m ∈ q.line, q.order m < e.order) : r.Exact := by
  intro m hm
  refine ⟨h.sound hv hx.sound hu (fun m hm _ => ho m hm) m hm, fun hdm => ?_⟩
  rcases (h.line m).mp hm with rfl | hm'
  · have hrec := hdm.received hm
    rw [h.fresh] at hrec
    simp [hd] at hrec
  · rw [h.kept_line hv hm']
    refine (hx m hm').mpr fun k hk hle => ?_
    have hrec := hdm k ((h.line k).mpr (.inr hk))
    rw [Queue.order, Queue.order, h.kept_line hv hk, h.kept_line hv hm'] at hrec
    exact hrec hle

theorem Received.sound (h : q.Received n v order now r) (hs : q.Sound)
    (hu : (q.entry n).ready = true →
      ∀ m ∈ q.line, (q.entry m).received = false → order < q.order m) : r.Sound := by
  intro m hm hr k hk hle
  by_cases hkn : k = n
  · rw [hkn, h.settled]
    rfl
  rw [Queue.order, h.kept k hkn] at hle
  rw [h.kept k hkn]
  by_cases hmn : m = n
  · subst hmn
    rw [h.settled] at hr
    rw [Queue.order, h.settled] at hle
    by_contra hd
    exact absurd (hu hr k ((h.line k).mp hk) (by simpa using hd)) (Nat.not_lt.mpr hle)
  · rw [Queue.order, h.kept m hmn] at hle
    rw [h.kept m hmn] at hr
    exact hs m ((h.line m).mp hm) hr k ((h.line k).mp hk) hle

theorem Sound.unready (h : q.Sound) (hn : n ∈ q.line) (hu : (q.entry n).received = false) :
    (q.entry n).ready = false := by
  by_contra hr
  rw [h.received hn (by simpa using hr)] at hu
  cases hu

theorem Detached.sound (h : q.Detached r) (hs : q.Sound) : r.Sound := by
  have hsub : r.line ⊆ q.line := h.line ▸ (List.dropWhile_sublist _).subset
  intro m hm hr k hk hle
  rw [Queue.order, Queue.order, h.kept, h.kept] at hle
  rw [h.kept] at hr ⊢
  exact hs m (hsub hm) hr k (hsub hk) hle

section Calls

variable {g : TransactionId} {tx clock : Nat}

theorem Valid.prepare_exact (h : q.Valid) (tx : Nat) (g : TransactionId) (v : Version)
    (clock : Nat) (now : Time) (hx : q.Exact) (ho : ∀ m ∈ q.line, q.order m < order) :
    (q.prepare tx g v order clock now).1.Valid ∧ (q.prepare tx g v order clock now).1.Exact := by
  refine h.prepare_cases (fun r hr => ⟨hr.valid, hr.exact h hx rfl rfl ho⟩) fun n r s _ hr hs => ?_
  have hlt : ∀ m ∈ r.line, r.order m < order := by
    intro m hm
    obtain ⟨hm, hmn⟩ := (hr.line m).mp hm
    rw [Queue.order, hr.kept m hmn]
    exact ho m hm
  have hsound := hs.sound hr.valid (hr.sound hx.sound) rfl fun m hm _ => hlt m hm
  exact ⟨hs.valid.grantReady, hs.valid.grantReady_exact now hsound⟩

theorem Valid.commit_exact (h : q.Valid) (v : Version) (order : Nat) (now : Time)
    (hx : q.Exact) (hf : q.find? g = some n)
    (hu : (q.entry n).received = false) :
    (q.commit g v order now).1.Valid ∧ (q.commit g v order now).1.Exact := by
  obtain ⟨-, r, hr, e⟩ := h.commit_some v order now hf
  have hready := hx.sound.unready (h.find?_eq_some_iff.mp hf).1 hu
  have hg := hr.valid.grantReady_exact now (hr.sound hx.sound (by simp [hready]))
  rw [e]
  refine ⟨hr.valid.grantReady.update ?_ ?_ ?_, hg.update ?_ ?_ ?_⟩
  all_goals
    intro e
    unfold Entry.holdBack
    split <;> rfl

theorem Valid.rollback_exact (h : q.Valid) (hx : q.Exact) :
    (q.rollback g now).1.Valid ∧ (q.rollback g now).1.Exact :=
  h.rollback_cases ⟨h, hx⟩ fun _ _ _ hr =>
    ⟨hr.valid.grantReady, hr.valid.grantReady_exact now (hr.sound hx.sound)⟩

theorem Valid.detach_exact (h : q.Valid) (hx : q.Exact) :
    (q.detach now).1.Valid ∧ (q.detach now).1.Exact :=
  h.detach_cases fun _ hr =>
    ⟨hr.valid.grantReady, hr.valid.grantReady_exact now (hr.sound hx.sound)⟩

end Calls

end Multiversion.Queue
