import Mathlib
import Multiversion.Proofs.Queue.Drain
import Multiversion.Proofs.Queue.Leaves

/-!
Calls that leave alone what is ready. Prepares of transactions that are not queued, first commits
that do not lower their entry, and rollbacks before the commit touch no ready entry, and all that
they move stays behind the ready ones.
-/

namespace Multiversion.Queue

variable {q r s : Queue} {g : TransactionId} {v : Version} {e : Entry} {m n tx order clock : Nat}
  {now : Time}

section Tidy

structure Tidy (q : Queue) : Prop where
  queued : ∀ n ∈ q.line, (q.entry n).isAborted = false
  left : ∀ n, q.Accounted n
  published : ∀ n, (q.entry n).notifier.verdict = some .committed → (q.entry n).committed = true
  dropped : q.Each fun e => e.isAborted = true → e.received = false

theorem tidy_empty {tracking : Bool} : Tidy { tracking } := by
  refine ⟨fun n hn => absurd hn List.not_mem_nil, fun n hn => absurd hn (Nat.not_lt_zero n),
    fun n hn => ?_, fun n hn => absurd hn (Nat.not_lt_zero n)⟩
  rw [entry_of_le (Nat.zero_le n)] at hn
  cases hn

theorem isAborted_iff : e.isAborted = true ↔ e.notifier.verdict = some .aborted := by
  simp [Entry.isAborted, Notifier.isAborted]

theorem dropped_markReady {k : Nat} (he : e.isAborted = true → e.received = false) :
    (e.markReady k now).isAborted = true → (e.markReady k now).received = false := by
  rw [Entry.received_markReady, isAborted_iff, Entry.notifier_markReady, ← isAborted_iff]
  exact he

theorem Tidy.gone (h : q.Tidy) (hn : n < q.entries.size) (hl : n ∉ q.line) :
    (q.entry n).isAborted = true ∨ (q.entry n).committed = true := by
  rcases (h.left n hn).resolve_left hl with hv | hc
  · cases hd : (q.entry n).notifier.verdict with
    | none => exact absurd hd hv
    | some w =>
      cases w with
      | committed => exact .inr (h.published n hd)
      | aborted => exact .inl (isAborted_iff.mpr hd)
  · exact .inr hc

theorem Tidy.leaves (h : q.Tidy) (hl : ∀ n, Leaves n q r)
    (hd : r.Each fun e => e.isAborted = true → e.received = false) : r.Tidy := by
  refine ⟨fun n hn => ?_, fun n => (hl n).accounted (h.left n), fun n hn => ?_, hd⟩
  · obtain ⟨hv, hq⟩ := (hl n).line hn
    rw [← Bool.not_eq_true, isAborted_iff, hv, ← isAborted_iff, Bool.not_eq_true]
    rcases hq with hq | hq
    · exact h.queued n hq
    · rw [← Bool.not_eq_true, isAborted_iff, hq]
      exact fun h => nomatch h
  · rw [(hl n).committed]
    rcases (hl n).verdict with hv | ⟨-, hv⟩
    · exact h.published n (hv ▸ hn)
    · rw [hv] at hn
      cases hn

theorem Tidy.claim (h : q.Tidy) : (q.claim n).1.Tidy :=
  h.leaves (fun _ => .update (fun _ => rfl) fun _ => rfl) (h.dropped.update fun _ he => he)

theorem Tidy.markCommitted (h : q.Tidy) (hn : n < q.entries.size) :
    (q.markCommitted n now).Tidy := by
  have aborted (m) : ((q.markCommitted n now).entry m).isAborted = (q.entry m).isAborted :=
    update_keeps Entry.isAborted fun _ => Entry.isAborted_markCommitted
  refine ⟨fun m hm => (aborted m).trans (h.queued m hm), fun m hm => ?_, fun m hm => ?_, ?_⟩
  · by_cases hmn : m = n
    · exact .inr (.inr ((Queue.committed_markCommitted hn).trans (if_pos hmn)))
    · rw [Queue.markCommitted, entry_update_of_ne hmn]
      exact h.left m (size_update ▸ hm)
  · by_cases hmn : m = n
    · exact (Queue.committed_markCommitted hn).trans (if_pos hmn)
    · rw [Queue.markCommitted, entry_update_of_ne hmn] at hm ⊢
      exact h.published m hm
  · refine h.dropped.update fun e he ha => ?_
    rw [Entry.isAborted_markCommitted] at ha
    rw [Entry.markCommitted_keeps Entry.received fun _ _ _ => rfl]
    exact he ha

theorem Valid.detach_tidy (hv : q.Valid) (h : q.Tidy) : (q.detach now).1.Tidy := by
  refine h.leaves (fun _ => hv.detach_leaves) (hv.detach_each h.dropped fun _ _ he => ?_)
  exact dropped_markReady he

end Tidy

theorem order_of_face (h : (r.entry n).face = (q.entry n).face) : r.order n = q.order n := by
  simp only [Entry.face, Prod.mk.injEq] at h
  exact h.2.2.2.1

theorem ready_of_face (h : (r.entry n).face = (q.entry n).face) :
    (r.entry n).ready = (q.entry n).ready := by
  simp only [Entry.face, Prod.mk.injEq] at h
  exact h.2.2.2.2.1

structure Yields (q r : Queue) : Prop where
  size : q.entries.size ≤ r.entries.size
  claimed : ∀ n, (r.entry n).claimed = (q.entry n).claimed
  committed : ∀ n, (r.entry n).committed = (q.entry n).committed
  face : ∀ n, (q.entry n).ready = true → (r.entry n).face = (q.entry n).face
  line : ∀ n, (q.entry n).ready = true → (n ∈ r.line ↔ n ∈ q.line)
  behind : ∀ m ∈ q.line, (q.entry m).ready = true →
    ∀ n ∈ r.line, (q.entry n).ready = false → q.order m < r.order n

namespace Yields

theorem refl (hx : q.Exact) : q.Yields q :=
  ⟨Nat.le_refl _, fun _ => rfl, fun _ => rfl, fun _ _ => rfl, fun _ _ => Iff.rfl,
    fun _ hm hr _ hn hu => hx.lt_of_unready hm hn hr hu⟩

theorem grantReady (h : q.Yields r) (hv : r.Valid) (hs : r.Sound) :
    q.Yields (r.grantReady now) := by
  refine ⟨?_, fun n => ?_, fun n => ?_, fun n hn => ?_, fun n hn => ?_, fun m hm hr n hn hu => ?_⟩
  · rw [size_grantReady]
    exact h.size
  · exact (grantReady_keeps Entry.claimed fun _ _ => Entry.claimed_markReady).trans (h.claimed n)
  · exact (grantReady_keeps Entry.committed fun _ _ => Entry.committed_markReady).trans
      (h.committed n)
  · have hr : (r.entry n).ready = true := (ready_of_face (h.face n hn)).trans hn
    rw [entry_grantReady_of_ready hv (fun _ hm hu => hs.received hm hu) hr]
    exact h.face n hn
  · rw [line_grantReady]
    exact h.line n hn
  · rw [line_grantReady] at hn
    rw [order_grantReady]
    exact h.behind m hm hr n hn hu

theorem holdBack (h : q.Yields r) : q.Yields (r.update n Entry.holdBack) := by
  have keeps {α : Type} (φ : Entry → α) (hφ : ∀ e : Entry, φ { e with pending := true } = φ e) (m) :
      φ ((r.update n Entry.holdBack).entry m) = φ (r.entry m) :=
    update_keeps φ fun _ => Entry.holdBack_keeps φ hφ
  refine ⟨h.size.trans size_update.ge, fun m => ?_, fun m => ?_, fun m hm => ?_, h.line,
    fun m hm hr k hk hu => ?_⟩
  · rw [keeps Entry.claimed fun _ => rfl]
    exact h.claimed m
  · rw [keeps Entry.committed fun _ => rfl]
    exact h.committed m
  · rw [keeps Entry.face fun _ => rfl]
    exact h.face m hm
  · have ho : (r.update n Entry.holdBack).order k = r.order k := keeps Entry.order (fun _ => rfl) k
    rw [ho]
    exact h.behind m hm hr k hk hu

end Yields

section Changes

variable (hx : q.Exact)
include hx

theorem Enqueued.yields (hr : q.Enqueued e r) (hv : q.Valid) (hc : e.claimed = false)
    (hd : e.committed = false) (ho : ∀ m ∈ q.line, q.order m < e.order) : q.Yields r := by
  have others (n) (hn : n ≠ q.entries.size) : r.entry n = q.entry n := by
    rcases Nat.lt_or_gt_of_ne hn with hlt | hlt
    · exact hr.kept n hlt
    · rw [entry_of_le hlt.le, entry_of_le (hr.size ▸ hlt)]
  have fresh : q.entry q.entries.size = default := entry_of_le (Nat.le_refl _)
  refine ⟨hr.size ▸ Nat.le_succ _, fun n => ?_, fun n => ?_, fun n hn => ?_, fun n hn => ?_,
    fun m hm hmr n hn hu => ?_⟩
  · by_cases hn : n = q.entries.size
    · rw [hn, hr.fresh, fresh]
      exact hc
    · rw [others n hn]
  · by_cases hn : n = q.entries.size
    · rw [hn, hr.fresh, fresh]
      exact hd
    · rw [others n hn]
  · rw [hr.kept n (lt_of_ready hn)]
  · have hlt := lt_of_ready hn
    rw [hr.line]
    exact ⟨fun h => h.resolve_left hlt.ne, .inr⟩
  · rcases (hr.line n).mp hn with rfl | hn
    · have he : r.order q.entries.size = e.order := by rw [Queue.order, hr.fresh]
      rw [he]
      exact ho m hm
    · have he : r.order n = q.order n := congrArg Entry.order (hr.kept_line hv hn)
      rw [he]
      exact hx.lt_of_unready hm hn hmr hu

theorem Removed.yields (hr : q.Removed n r) (hn : (q.entry n).ready = false) : q.Yields r := by
  refine ⟨hr.size.ge, fun m => hr.keeps Entry.claimed fun _ => rfl,
    fun m => hr.keeps Entry.committed fun _ => rfl, fun m hm => ?_, fun m hm => ?_,
    fun m hm hmr k hk hu => ?_⟩
  all_goals
    have ne_of_ready {m} (hm : (q.entry m).ready = true) : m ≠ n := by
      rintro rfl
      rw [hn] at hm
      cases hm
  · rw [hr.kept m (ne_of_ready hm)]
  · rw [hr.line]
    exact ⟨And.left, fun h => ⟨h, ne_of_ready hm⟩⟩
  · obtain ⟨hk, hkn⟩ := (hr.line k).mp hk
    rw [Queue.order, Queue.order, hr.kept k hkn]
    exact hx.lt_of_unready hm hk hmr hu

theorem Received.yields (hr : q.Received n v order now r) (hn : n ∈ q.line)
    (hu : (q.entry n).ready = false) (ho : q.order n ≤ order) : q.Yields r := by
  refine ⟨hr.size.ge, fun m => hr.keeps Entry.claimed fun _ => rfl,
    fun m => hr.keeps Entry.committed fun _ => rfl, fun m hm => ?_, fun m _ => hr.line m,
    fun m hm hmr k hk hku => ?_⟩
  · rw [hr.kept]
    rintro rfl
    rw [hu] at hm
    cases hm
  · have hlt := hx.lt_of_unready hm ((hr.line k).mp hk) hmr hku
    by_cases hkn : k = n
    · rw [hkn] at hlt ⊢
      have he : r.order n = order := by rw [Queue.order, hr.settled, Entry.receive]
      rw [he]
      exact hlt.trans_le ho
    · rwa [Queue.order, Queue.order, hr.kept k hkn]

end Changes

section Calls

variable (hv : q.Valid) (hx : q.Exact)
include hv hx

theorem Valid.prepare_yields (hf : q.find? g = none) (ho : ∀ m ∈ q.line, q.order m < order) :
    q.Yields (q.prepare tx g v order clock now).1 :=
  (hv.prepare_none tx v order clock now hf).yields hx hv rfl rfl ho

theorem Valid.commit_yields (hu : ∀ n, q.find? g = some n →
    (q.entry n).received = false ∧ q.order n ≤ order) : q.Yields (q.commit g v order now).1 := by
  cases hf : q.find? g with
  | none =>
    rw [Valid.commit_none hf]
    exact .refl hx
  | some n =>
    obtain ⟨hr, ho⟩ := hu n hf
    obtain ⟨-, r, hrec, e⟩ := hv.commit_some v order now hf
    have hn := (hv.find?_eq_some_iff.mp hf).1
    have hready := hx.sound.unready hn hr
    rw [e]
    exact ((hrec.yields hx hn hready ho).grantReady hrec.valid
      (hrec.sound hx.sound (by simp [hready]))).holdBack

theorem Valid.rollback_yields (hu : ∀ n, q.find? g = some n → (q.entry n).received = false) :
    q.Yields (q.rollback g now).1 := by
  cases hf : q.find? g with
  | none =>
    rw [Valid.rollback_none hf]
    exact .refl hx
  | some n =>
    obtain ⟨-, r, hrem, e⟩ := hv.rollback_some now hf
    have hn := (hv.find?_eq_some_iff.mp hf).1
    rw [e]
    exact (hrem.yields hx (hx.sound.unready hn (hu n hf))).grantReady hrem.valid
      (hrem.sound hx.sound)

end Calls

section Tidy

variable (hv : q.Valid) (ht : q.Tidy)
include hv ht

theorem Valid.prepare_tidy (hf : q.find? g = none) :
    (q.prepare tx g v order clock now).1.Tidy :=
  ht.leaves (fun _ => hv.prepare_leaves)
    ((hv.prepare_none tx v order clock now hf).each ht.dropped fun h => nomatch h)

theorem Valid.commit_tidy : (q.commit g v order now).1.Tidy := by
  cases hf : q.find? g with
  | none =>
    rw [Valid.commit_none hf]
    exact ht
  | some n =>
    have hl (m) : Leaves m q (q.commit g v order now).1 := hv.commit_leaves
    obtain ⟨-, r, hrec, e⟩ := hv.commit_some v order now hf
    rw [e] at hl ⊢
    have hd : r.Each fun e => e.isAborted = true → e.received = false := by
      intro m hm
      by_cases hmn : m = n
      · have hq : (r.entry m).isAborted = false := by
          rw [hmn, hrec.settled]
          exact ht.queued n (hv.find?_eq_some_iff.mp hf).1
        rw [hq]
        exact fun h => nomatch h
      · rw [hrec.kept m hmn]
        exact ht.dropped m (hrec.size ▸ hm)
    refine ht.leaves hl ((hd.grantReady fun _ _ => dropped_markReady).update fun e he => ?_)
    rw [Entry.holdBack_keeps Entry.isAborted fun _ => rfl,
      Entry.holdBack_keeps Entry.received fun _ => rfl]
    exact he

theorem Valid.rollback_tidy (hu : ∀ n, q.find? g = some n → (q.entry n).received = false) :
    (q.rollback g now).1.Tidy := by
  cases hf : q.find? g with
  | none =>
    rw [Valid.rollback_none hf]
    exact ht
  | some n =>
    have hl (m) : Leaves m q (q.rollback g now).1 := hv.rollback_leaves
    obtain ⟨-, r, hrem, e⟩ := hv.rollback_some now hf
    rw [e] at hl ⊢
    have hd : r.Each fun e => e.isAborted = true → e.received = false := by
      intro m hm
      by_cases hmn : m = n
      · rw [hmn, hrem.left]
        exact fun _ => hu n hf
      · rw [hrem.kept m hmn]
        exact ht.dropped m (hrem.size ▸ hm)
    exact ht.leaves hl (hd.grantReady fun _ _ => dropped_markReady)

end Tidy

section Follows

/-- What is ready stays as it is, and nothing comes to stand before it. -/
structure Follows (q r : Queue) : Prop where
  claimed : ∀ n, (q.entry n).claimed = true → (r.entry n).claimed = true
  face : ∀ n, (q.entry n).ready = true → (r.entry n).face = (q.entry n).face
  ahead : ∀ n ∈ r.line, (q.entry n).ready = true → n ∈ q.line ∧
    ∀ m ∈ r.line, Before r.order m n → m ∈ q.line ∧ Before q.order m n

def Firm (q : Queue) (n : Nat) : Prop := (q.entry n).ready = true ∧ (q.entry n).isAborted = false

def Clear (q : Queue) (us : List Nat) (n : Nat) : Prop :=
  n ∈ q.line → ∀ m ∈ q.line, Before q.order m n → (q.entry m).claimed = true ∨ m ∈ us

theorem Follows.ready (h : q.Follows r) (hn : (q.entry n).ready = true) :
    (r.entry n).ready = true := (ready_of_face (h.face n hn)).trans hn

theorem Follows.firm (h : q.Follows r) (hn : q.Firm n) : r.Firm n := by
  refine ⟨h.ready hn.1, ?_⟩
  have hf := h.face n hn.1
  simp only [Entry.face, Prod.mk.injEq] at hf
  exact hf.2.2.2.2.2.2.trans hn.2

theorem Follows.clear {us : List Nat} (h : q.Follows r) (hn : (q.entry n).ready = true)
    (hc : q.Clear us n) : r.Clear us n := by
  intro hl m hm hb
  obtain ⟨hq, ha⟩ := h.ahead n hl hn
  obtain ⟨hm, hb⟩ := ha m hm hb
  exact (hc hq m hm hb).imp_left (h.claimed m)

theorem Follows.refl : q.Follows q :=
  ⟨fun _ h => h, fun _ _ => rfl, fun _ hn _ => ⟨hn, fun _ hm hb => ⟨hm, hb⟩⟩⟩

theorem Yields.follows (h : q.Yields r) : q.Follows r := by
  have order_eq (n) (hn : (q.entry n).ready = true) : r.order n = q.order n :=
    order_of_face (h.face n hn)
  refine ⟨fun n hn => (h.claimed n).trans hn, h.face, fun n hl hn => ?_⟩
  have hq : n ∈ q.line := (h.line n hn).mp hl
  refine ⟨hq, fun m hm hb => ?_⟩
  cases hmr : (q.entry m).ready with
  | true =>
    refine ⟨(h.line m hmr).mp hm, ?_⟩
    rwa [Before, order_eq m hmr, order_eq n hn] at hb
  | false =>
    have hlt := h.behind n hq hn m hm hmr
    have hle := hb.order_le
    rw [order_eq n hn] at hle
    omega

theorem follows_update {f : Entry → Entry} (hc : ∀ e, e.claimed = true → (f e).claimed = true)
    (hf : ∀ e, (f e).face = e.face) : q.Follows (q.update m f) := by
  have face (n) : ((q.update m f).entry n).face = (q.entry n).face := update_keeps Entry.face hf
  refine ⟨fun n hn => update_preserves (P := (·.claimed = true)) hc hn, fun n _ => face n,
    fun n hn _ => ⟨hn, fun k hk hb => ⟨hk, ?_⟩⟩⟩
  rwa [Before, order_of_face (face k), order_of_face (face n)] at hb

theorem claim_follows : q.Follows (q.claim n).1 := follows_update (fun _ _ => rfl) fun _ => rfl

theorem markCommitted_follows : q.Follows (q.markCommitted n now) := by
  refine follows_update (fun e he => ?_) fun _ => Entry.face_markCommitted
  rwa [Entry.markCommitted_keeps Entry.claimed fun _ _ _ => rfl]

theorem Valid.detach_follows (hv : q.Valid) (hx : q.Exact) : q.Follows (q.detach now).1 := by
  refine hv.detach_cases fun r hr => ?_
  have hsub : r.line ⊆ q.line := hr.line ▸ (List.dropWhile_sublist _).subset
  have order_eq (n) : (r.grantReady now).order n = q.order n := by
    rw [order_grantReady, Queue.order, hr.kept, Queue.order]
  refine ⟨fun n hn => ?_, fun n hn => ?_, fun n hl _ => ?_⟩
  · rw [grantReady_keeps Entry.claimed fun _ _ => Entry.claimed_markReady, hr.kept]
    exact hn
  · rw [← hr.kept n] at hn ⊢
    rw [entry_grantReady_of_ready hr.valid (fun _ hm hu => (hr.sound hx.sound).received hm hu) hn]
  · rw [line_grantReady] at hl ⊢
    refine ⟨hsub hl, fun m hm hb => ⟨hsub hm, ?_⟩⟩
    rwa [Before, order_eq, order_eq] at hb

theorem Valid.detach_blocked (hv : q.Valid) : ∀ n ∈ (q.detach now).1.line,
    ((q.detach now).1.entry n).committed = true → ∃ m ∈ (q.detach now).1.line,
      Before (q.detach now).1.order m n ∧ ((q.detach now).1.entry m).committed = false := by
  refine hv.detach_cases fun r hr n hn hc => ?_
  have committed_eq (n) : ((r.grantReady now).entry n).committed = (q.entry n).committed :=
    (grantReady_keeps Entry.committed fun _ _ => Entry.committed_markReady).trans
      (congrArg _ (hr.kept n))
  rw [committed_eq] at hc
  have hgrant : (r.grantReady now).Valid := hr.valid.grantReady
  have hsorted := hgrant.sorted
  rw [line_grantReady] at hn hsorted ⊢
  cases hl : r.line with
  | nil =>
    rw [hl] at hn
    cases hn
  | cons m rest =>
    have hm : (q.entry m).committed = false := by
      have hh := List.head?_dropWhile_not (fun n => (q.entry n).committed) q.line
      rw [← hr.line, hl] at hh
      simpa using hh
    have hne : m ≠ n := by
      rintro rfl
      rw [hc] at hm
      cases hm
    rw [hl] at hn hsorted
    refine ⟨m, List.mem_cons_self .., ?_, (committed_eq m).trans hm⟩
    exact (List.pairwise_cons.mp hsorted).1 n ((List.mem_cons.mp hn).resolve_left hne.symm)

end Follows

section Leave

variable (hv : q.Valid) (hn : n ∈ q.line)
include hv hn

theorem Valid.mem_prepare (hf : q.find? g = none) :
    n ∈ (q.prepare tx g v order clock now).1.line :=
  ((hv.prepare_none tx v order clock now hf).line n).mpr (.inr hn)

theorem Valid.mem_commit : n ∈ (q.commit g v order now).1.line := by
  cases hf : q.find? g with
  | none =>
    rw [Valid.commit_none hf]
    exact hn
  | some m =>
    obtain ⟨-, r, hrec, e⟩ := hv.commit_some v order now hf
    rw [e, line_update, line_grantReady, hrec.line]
    exact hn

theorem Valid.id_of_notMem_rollback (hr : n ∉ (q.rollback g now).1.line) :
    q.find? g = some n ∧ (q.entry n).id = g := by
  cases hf : q.find? g with
  | none =>
    rw [Valid.rollback_none hf] at hr
    exact absurd hn hr
  | some m =>
    obtain ⟨-, r, hrem, e⟩ := hv.rollback_some now hf
    rw [e, line_grantReady, hrem.line] at hr
    obtain rfl : n = m := by
      by_contra hnm
      exact hr ⟨hn, hnm⟩
    exact ⟨rfl, (hv.find?_eq_some_iff.mp hf).2⟩

theorem Valid.committed_of_notMem_detach (hd : n ∉ (q.detach now).1.line) :
    (q.entry n).committed = true := by
  revert hd
  refine hv.detach_cases fun r hr hd => ?_
  rw [line_grantReady, hr.line] at hd
  rw [← List.takeWhile_append_dropWhile (p := fun n => (q.entry n).committed) (l := q.line),
    List.mem_append] at hn
  exact List.mem_takeWhile_imp (p := fun n => (q.entry n).committed) (hn.resolve_right hd)

end Leave

end Multiversion.Queue
