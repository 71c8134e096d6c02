import Mathlib
import Multiversion.Proofs.Node.Act
import Multiversion.Proofs.Node.Drained

namespace Multiversion

namespace Queue

variable {p : Position} {q : Queue} {m n : Nat}

def CommitLe (q : Queue) (p : Position) (m n : Nat) : Prop :=
  p.seq (q.entry m).version < p.seq (q.entry n).version ∨
    p.seq (q.entry m).version = p.seq (q.entry n).version ∧ m ≤ n

instance : DecidableRel (q.CommitLe p) := fun _ _ => inferInstanceAs (Decidable (_ ∨ _))

instance : Std.Total (q.CommitLe p) := ⟨fun m n => by unfold CommitLe; omega⟩

instance : IsTrans Nat (q.CommitLe p) := ⟨fun m n k => by unfold CommitLe; omega⟩

/-- The entries that were committed and neither rolled back nor replaced. -/
def committedOrder (q : Queue) (p : Position) : List Nat :=
  ((List.range q.entries.size).filter fun n =>
    (q.entry n).received && !(q.entry n).isAborted).insertionSort (q.CommitLe p)

theorem mem_committedOrder : n ∈ q.committedOrder p ↔
    n < q.entries.size ∧ (q.entry n).received = true ∧ (q.entry n).isAborted = false := by
  rw [committedOrder, List.mem_insertionSort, List.mem_filter, List.mem_range]
  simp

theorem nodup_committedOrder : (q.committedOrder p).Nodup :=
  (List.perm_insertionSort ..).nodup_iff.mpr (List.nodup_range.filter _)

theorem eq_committedOrder {ns : List Nat} (hs : ns.Pairwise (q.CommitLe p)) (hd : ns.Nodup)
    (hm : ∀ n, n ∈ ns ↔ n ∈ q.committedOrder p) : ns = q.committedOrder p := by
  have antisymm (m n : Nat) (_ : m ∈ ns) (_ : n ∈ q.committedOrder p) (hmn : q.CommitLe p m n)
      (hnm : q.CommitLe p n m) : m = n := by
    unfold CommitLe at hmn hnm
    omega
  exact List.Perm.eq_of_pairwise antisymm hs (List.pairwise_insertionSort ..)
    ((List.perm_ext_iff_of_nodup hd nodup_committedOrder).mpr hm)

end Queue

namespace Node

variable {n : Node} {now : Time}

theorem applyReady_nil (hw : n.claimReady.2 = []) : (n.applyReady now).1 = n.claimReady.1 := by
  obtain ⟨⟨m, won⟩, hc⟩ : ∃ c, n.claimReady = c := ⟨_, rfl⟩
  rw [hc] at hw ⊢
  obtain rfl : won = [] := hw
  rw [applyReady, hc]

theorem queue_applyReady (hw : n.claimReady.2 ≠ []) : (n.applyReady now).1.queue =
    ((n.claimReady.1.queue.markAll n.claimReady.2 now).detach now).1 := by
  obtain ⟨⟨m, won⟩, hc⟩ : ∃ c, n.claimReady = c := ⟨_, rfl⟩
  have hq (txs : List Committed) (m : Node) : (txs.foldl applyOne m).queue = m.queue := by
    induction txs generalizing m with
    | nil => rfl
    | cons tx txs ih => exact ih (m.applyOne tx)
  rw [hc] at hw ⊢
  cases won with
  | nil => exact absurd rfl hw
  | cons e won =>
    rw [applyReady, hc]
    simp only [publish_eq]
    rw [queue, sequencer_detachBatch]
    change (((List.foldl applyOne m _).queue.markAll (e :: won) now).detach now).1 = _
    rw [hq]

end Node

namespace Session

variable {may : Node → Version → Prop} {s t : Session}

def returned (s : Session) : List Delivery := s.calls.flatten

theorem Run.drained (h : Run may s t) (hs : s.Drained) : t.Drained := by
  induction h with
  | refl => exact hs
  | tail _ hst ih => exact hst.drained ih

namespace Drained

variable {now : Time} (h : s.Drained)
include h

theorem entries_nodup : (s.returned.map (·.entry)).Nodup := by
  have ho := (List.pairwise_append.mp h.ordered).1
  refine List.pairwise_map.mpr (ho.imp_of_mem ?_)
  intro x y hx hy hxy he
  have hsx := (h.drains.stated x (List.mem_append_left _ hx)).order
  have hsy := (h.drains.stated y (List.mem_append_left _ hy)).order
  rw [he, hsy] at hsx
  rw [Delivery.Before, he] at hxy
  omega

theorem accounted (hd : s.drain = .idle) {n : Nat} (hn : n < s.node.queue.entries.size) :
    n ∈ s.node.queue.line ∧ n ∉ s.returned.map (·.entry) ∧
        (s.node.queue.entry n).isAborted = false ∨
      n ∉ s.node.queue.line ∧ (s.returned.map (·.entry)).count n = 1 ∧
        (s.node.queue.entry n).isAborted = false ∨
      n ∉ s.node.queue.line ∧ n ∉ s.returned.map (·.entry) ∧
        (s.node.queue.entry n).isAborted = true := by
  have hdr := h.drains
  rw [hd] at hdr
  have left {m} (hm : m ∈ s.returned.map (·.entry)) :
      m ∉ s.node.queue.line ∧ (s.node.queue.entry m).isAborted = false := by
    obtain ⟨x, hx, rfl⟩ := List.mem_map.mp hm
    exact ⟨hdr.left x hx, (hdr.stated x (List.mem_append_left _ hx)).kept⟩
  have queued {m} (hm : m ∈ s.node.queue.line) : (s.node.queue.entry m).isAborted = false := by
    rw [Entry.isAborted, Notifier.isAborted, hdr.undecided m hm (Queue.unclaimed hdr hm)]
    simp
  rcases hdr.accounted n hn with hl | hr | ha
  · exact .inl ⟨hl, fun hr => (left hr).1 hl, queued hl⟩
  · exact .inr (.inl ⟨(left hr).1, List.count_eq_one_of_mem h.entries_nodup hr, (left hr).2⟩)
  · refine .inr (.inr ⟨fun hl => ?_, fun hr => ?_, ha⟩)
    · rw [queued hl] at ha
      cases ha
    · rw [(left hr).2] at ha
      cases ha

theorem applyReady_unready (hd : s.drain = .idle) :
    ∀ n ∈ (s.node.applyReady now).1.queue.line,
      ((s.node.applyReady now).1.queue.entry n).ready = false := by
  obtain ⟨won, -, hwon, hx, hdr, hentries, -, -⟩ := h.claimed hd
  have hexact : s.node.queue.Exact := h.exact.exact
  have hready {n} (hn : n ∈ s.node.claimReady.1.queue.line)
      (hc : (s.node.claimReady.1.queue.entry n).claimed = false) :
      (s.node.claimReady.1.queue.entry n).ready = false := by
    have hn' : n ∈ s.node.queue.line := by
      rwa [queue_claimReady, Queue.line_claimAll] at hn
    have hw : n ∉ s.node.queue.readyPrefix := by
      rw [← hentries, ← hdr.claimed n hn, hc]
      exact Bool.false_ne_true
    rw [hexact.readyPrefix_eq h.exact.valid, List.mem_filter, not_and] at hw
    rw [queue_claimReady, Queue.claimAll_keeps Entry.ready fun _ => rfl]
    simpa using hw hn'
  by_cases hw : s.node.claimReady.2 = []
  · rw [Node.applyReady_nil hw]
    intro n hn
    refine hready hn ?_
    rw [← Bool.not_eq_true, hdr.claimed n hn, hentries, ← hwon, hw]
    exact List.not_mem_nil
  · rw [Node.queue_applyReady hw, hwon, ← hentries]
    refine hdr.markAll.detach_unready rfl (Sequencer.Run.markAll.exact hx).1.exact ?_
    rw [Queue.line_markAll]
    intro n hn hc
    have keep {α : Type} (φ : Entry → α) (hφ : ∀ (e : Entry) t v,
        φ { e with committed := true, committedAt := t, notifier := v } = φ e) :
        φ ((s.node.claimReady.1.queue.markAll (won.map (·.entry)) now).entry n) =
          φ (s.node.claimReady.1.queue.entry n) :=
      Queue.markAll_keeps φ fun _ => Entry.markCommitted_keeps φ hφ
    rw [keep Entry.claimed fun _ _ _ => rfl] at hc
    rw [keep Entry.ready fun _ _ _ => rfl]
    exact hready hn hc

theorem returned_eq (hd : s.drain = .idle) (hl : s.node.queue.line = []) :
    s.returned.map (·.entry) = s.node.queue.committedOrder s.node.position := by
  have hdr := h.drains
  rw [hd] at hdr
  have stated {x} (hx : x ∈ s.returned) := hdr.stated x (List.mem_append_left _ hx)
  refine Queue.eq_committedOrder ?_ h.entries_nodup ?_
  · refine List.pairwise_map.mpr ((List.pairwise_append.mp h.ordered).1.imp_of_mem ?_)
    intro x y hx hy hxy
    rw [Queue.CommitLe, (stated hx).version, (stated hy).version]
    exact hxy.imp_right fun ⟨he, hlt, _⟩ => ⟨he, hlt.le⟩
  · intro n
    rw [Queue.mem_committedOrder]
    constructor
    · intro hn
      obtain ⟨x, hx, rfl⟩ := List.mem_map.mp hn
      exact ⟨(stated hx).known, (stated hx).received, (stated hx).kept⟩
    · rintro ⟨hn, -, hk⟩
      rcases h.accounted hd hn with ⟨hm, -⟩ | ⟨-, hr, -⟩ | ⟨-, -, ha⟩
      · rw [hl] at hm
        exact absurd hm List.not_mem_nil
      · exact List.count_pos_iff.mp (by omega)
      · rw [hk] at ha
        cases ha

end Drained

def alone : Node := (Node.create default {}).install ⟨1, [default]⟩

def opened : Node :=
  let n := alone.begin.2.write 0 ⟨"a", some [1]⟩
  n.begin.2.write 1 ⟨"a", some [2]⟩

def queued : Node := ((opened.prepare 0 0).1.prepare 1 0).1

def halved : Node := (queued.commit ⟨default, 2⟩ ⟨1, 0, [5]⟩ 0).1

def grouped : Node := (halved.commit ⟨default, 1⟩ ⟨1, 0, [5]⟩ 0).1

theorem run_opened : Run may { node := alone } { node := opened } := by
  refine .head (.begin _) (.head (.write _ 0 ⟨"a", some [1]⟩) ?_)
  exact .head (.begin _) (.single (.write _ 1 ⟨"a", some [2]⟩))

theorem run_queued : Run may { node := alone } { node := queued } := by
  have h0 : opened.queue.find? (opened.transaction 0).id = none := by decide +kernel
  have h1 : (opened.prepare 0 0).1.queue.find?
      ((opened.prepare 0 0).1.transaction 1).id = none := by
    decide +kernel
  refine run_opened.trans (.head (.prepare _ 0 0 (by decide +kernel) ?_)
    (.single (.prepare _ 1 0 (by decide +kernel) ?_)))
  · intro n hn
    rw [h0] at hn
    cases hn
  · intro n hn
    rw [h1] at hn
    cases hn

theorem run_grouped : Run may { node := alone } { node := grouped } := by
  have h2 : queued.queue.find? ⟨default, 2⟩ = some 1 := by decide +kernel
  have h1 : halved.queue.find? ⟨default, 1⟩ = some 0 := by decide +kernel
  have first : Run may { node := queued } { node := halved } := by
    refine Run.commit (s := { node := queued }) (fun n hn => ?_) fun hn => ?_
    · rw [h2] at hn
      cases hn
      decide +kernel
    · rw [h2] at hn
      cases hn
  have second : Run may { node := halved } { node := grouped } := by
    refine Run.commit (s := { node := halved }) (fun n hn => ?_) fun hn => ?_
    · rw [h1] at hn
      cases hn
      decide +kernel
    · rw [h1] at hn
      cases hn
  exact (run_queued.trans first).trans second

end Session

end Multiversion
