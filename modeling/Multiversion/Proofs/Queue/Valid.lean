import Mathlib
import Multiversion.Proofs.Lists
import Multiversion.Proofs.Queue.Sorted
import Multiversion.Queue

namespace Multiversion

namespace Queue

variable {q r : Queue} {c : Cell} {cs ds us vs : List Cell} {g : TransactionId} {i m n : Nat}
  {f : Entry → Entry}

/-- The admissions of the queued entries, head first. -/
def line (q : Queue) : List Nat := q.arena.toList

def label (q : Queue) (c : Cell) : TransactionId × Nat := ((q.entry c.admission).id, c.slot)

structure Holds (q : Queue) (cs : List Cell) : Prop where
  line : q.arena.Line cs
  stock : q.arena.Stock cs
  sorted : Arena.Sorted q.order cs
  known : ∀ c ∈ cs, c.admission < q.entries.size
  numbered : ∀ n < q.entries.size, (q.entry n).admission = n
  indexed : q.index.Perm (cs.map q.label)
  unique : (cs.map fun c => (q.entry c.admission).id).Nodup

def Valid (q : Queue) : Prop := ∃ cs, q.Holds cs

theorem order_of_entries (h : q.entries = r.entries) : q.order = r.order :=
  funext fun n => by rw [order, order, entry, entry, h]

theorem entry_of_le (h : q.entries.size ≤ n) : q.entry n = default := by
  simp [entry, Array.getD_eq_getD_getElem?, Array.getElem?_eq_none h]

theorem entry_update (h : n < q.entries.size) :
    (q.update n f).entry m = if m = n then f (q.entry m) else q.entry m :=
  getD_modify fun hm => hm ▸ h

@[simp] theorem size_update : (q.update n f).entries.size = q.entries.size := by simp [update]

@[simp] theorem line_update : (q.update n f).line = q.line := rfl

theorem update_of_le (h : q.entries.size ≤ n) : q.update n f = q := by
  have e : q.entries.modify n f = q.entries := by
    apply Array.ext_getElem?
    intro i
    rw [Array.getElem?_modify]
    split
    next hi => rw [Array.getElem?_eq_none (hi ▸ h), Option.map_none]
    next => rfl
  rw [update, e]

theorem entry_update_of_ne (h : m ≠ n) : (q.update n f).entry m = q.entry m := by
  rcases Nat.lt_or_ge n q.entries.size with hn | hn
  · rw [entry_update hn, if_neg h]
  · rw [update_of_le hn]

theorem update_preserves {P : Entry → Prop} (hf : ∀ e, P e → P (f e)) (h : P (q.entry m)) :
    P ((q.update n f).entry m) := by
  rcases Nat.lt_or_ge n q.entries.size with hn | hn
  · rw [entry_update hn]
    split
    · exact hf _ h
    · exact h
  · rwa [update_of_le hn]

theorem update_keeps {α : Type} (φ : Entry → α) (hf : ∀ e, φ (f e) = φ e) :
    φ ((q.update n f).entry m) = φ (q.entry m) :=
  update_preserves (P := fun e => φ e = φ (q.entry m)) (fun e he => (hf e).trans he) rfl

def cut (q : Queue) (i : Nat) (P : TransactionId × Nat → Bool) : Queue :=
  { q.dropSlot i with index := q.index.filter P }

section Cut

variable {P : TransactionId × Nat → Bool}

theorem arena_cut : (q.cut i P).arena = (q.arena.unlink i).release i := by
  simp only [cut, dropSlot]

theorem entries_cut : (q.cut i P).entries = q.entries := by simp only [cut, dropSlot]

theorem index_cut : (q.cut i P).index = q.index.filter P := by simp only [cut]

theorem entry_cut : (q.cut i P).entry n = q.entry n := by rw [entry, entry, entries_cut]

end Cut

namespace Holds

section

variable (h : q.Holds cs)
include h

theorem line_eq : q.line = cs.map Cell.admission := h.line.toList

theorem mem_line : n ∈ q.line ↔ ∃ c ∈ cs, c.admission = n := by
  rw [h.line_eq, List.mem_map]

theorem index_nodup : (q.index.map Prod.fst).Nodup := by
  refine ((h.indexed.map Prod.fst).nodup_iff).mpr ?_
  rw [List.map_map]
  exact h.unique

theorem lookup :
    q.index.lookup g = some i ↔ ∃ c ∈ cs, (q.entry c.admission).id = g ∧ c.slot = i := by
  rw [lookup_eq_some_iff h.index_nodup, h.indexed.mem_iff, List.mem_map]
  simp [label]

theorem find?_eq_some_iff :
    q.find? g = some n ↔ ∃ c ∈ cs, (q.entry c.admission).id = g ∧ c.admission = n := by
  rw [find?, slot?, Option.bind_eq_some_iff]
  constructor
  · rintro ⟨i, hi, hn⟩
    obtain ⟨c, hc, hg, rfl⟩ := h.lookup.mp hi
    rw [h.line.filled c hc] at hn
    exact ⟨c, hc, hg, Option.some.inj hn⟩
  · rintro ⟨c, hc, hg, rfl⟩
    refine ⟨c.slot, h.lookup.mpr ⟨c, hc, hg, rfl⟩, ?_⟩
    rw [h.line.filled c hc]

theorem admission_nodup : (cs.map Cell.admission).Nodup := by
  refine List.pairwise_map.mpr (h.sorted.imp ?_)
  intro c d hcd
  unfold Before at hcd
  rintro e
  rw [e] at hcd
  omega

end

theorem congr (h : q.Holds cs) (ha : r.arena = q.arena) (hi : r.index = q.index)
    (hz : r.entries.size = q.entries.size)
    (hn : ∀ n, (r.entry n).admission = (q.entry n).admission)
    (hg : ∀ n, (r.entry n).id = (q.entry n).id) (ho : r.order = q.order) : r.Holds cs := by
  have hl : r.label = q.label := by
    funext c
    rw [label, label, hg]
  refine ⟨ha ▸ h.line, ha ▸ h.stock, ho ▸ h.sorted, fun c hc => hz ▸ h.known c hc, ?_, ?_, ?_⟩
  · intro n hlt
    rw [hn, h.numbered n (hz ▸ hlt)]
  · rw [hi, hl]
    exact h.indexed
  · simp only [hg]
    exact h.unique

theorem update (h : q.Holds cs) (hn : ∀ e, (f e).admission = e.admission)
    (hg : ∀ e, (f e).id = e.id) (ho : ∀ e, (f e).order = e.order) : (q.update n f).Holds cs :=
  h.congr rfl rfl size_update (fun _ => update_keeps Entry.admission hn)
    (fun _ => update_keeps Entry.id hg) (funext fun _ => update_keeps Entry.order ho)

section Cut

variable {P : TransactionId × Nat → Bool}

theorem cut (h : q.Holds (us ++ c :: vs)) (hc : P (q.label c) = false)
    (hP : ∀ d ∈ us ++ vs, P (q.label d) = true) : (q.cut c.slot P).Holds (us ++ vs) := by
  have hsub : (us ++ vs).Sublist (us ++ c :: vs) := by simp
  have hs : c.slot < q.arena.slots.size := h.line.inside _ (by simp [Arena.track])
  have hn : c ∉ us ++ vs := (List.nodup_cons.mp (List.nodup_middle.mp h.admission_nodup.of_map)).1
  have hl : (q.cut c.slot P).label = q.label := funext fun d => by rw [label, label, entry_cut]
  refine ⟨?_, ?_, ?_, ?_, ?_, ?_, ?_⟩
  · rw [arena_cut]
    exact h.line.unlink.release h.line.not_mem_track (by simpa using hs)
  · rw [arena_cut]
    refine h.stock.unlink.release (by simp) (by simpa using hs) ?_
    intro d
    simp only [List.mem_append, List.mem_cons] at hn ⊢
    grind
  · have ho : (q.cut c.slot P).order = q.order := funext fun n => by rw [order, order, entry_cut]
    rw [ho]
    exact h.sorted.sublist hsub
  · intro d hd
    rw [entries_cut]
    exact h.known d (hsub.subset hd)
  · intro n hlt
    rw [entry_cut]
    exact h.numbered n (entries_cut (q := q) ▸ hlt)
  · have keeps {ws : List Cell} (hw : ∀ d ∈ ws, d ∈ us ++ vs) :
        (ws.map q.label).filter P = ws.map q.label := by
      rw [List.filter_eq_self]
      intro x hx
      obtain ⟨d, hd, rfl⟩ := List.mem_map.mp hx
      exact hP d (hw d hd)
    rw [index_cut, hl]
    refine (h.indexed.filter P).trans (List.Perm.of_eq ?_)
    rw [List.map_append, List.map_cons, List.filter_append, List.filter_cons_of_neg (by simp [hc]),
      keeps fun d hd => List.mem_append_left vs hd, keeps fun d hd => List.mem_append_right us hd,
      List.map_append]
  · simp only [entry_cut]
    exact h.unique.sublist (hsub.map _)

end Cut

end Holds

theorem Holds.sorted_rest (h : q.Holds (us ++ c :: vs))
    (he : r.entries = (q.update c.admission f).entries) : Arena.Sorted r.order (us ++ vs) := by
  have order_eq (d) (hd : d ∈ us ++ vs) : r.order d.admission = q.order d.admission := by
    rw [order, entry, he, ← entry, entry_update (h.known c (by simp)),
      if_neg (ne_of_nodup_map h.admission_nodup hd), order]
  have hsub : (us ++ vs).Sublist (us ++ c :: vs) := by simp
  refine (h.sorted.sublist hsub).imp_of_mem ?_
  intro d e hd he hde
  rwa [Before, order_eq d hd, order_eq e he]

theorem Holds.move (h : q.Holds cs) (hc : c ∈ cs) (hn : ∀ e, (f e).admission = e.admission)
    (hg : ∀ e, (f e).id = e.id) (he : r.entries = (q.update c.admission f).entries)
    (ha : r.arena = (q.arena.reposition r.order c.slot).1) (hi : r.index = q.index) :
    ∃ ds, r.Holds ds ∧ ds.Perm cs := by
  obtain ⟨us, vs, rfl⟩ := List.append_of_mem hc
  have entry_eq (m) : r.entry m = (q.update c.admission f).entry m := by rw [entry, entry, he]
  have id_eq (m) : (r.entry m).id = (q.entry m).id := by rw [entry_eq, update_keeps _ hg]
  have size_eq : r.entries.size = q.entries.size := by rw [he, size_update]
  obtain ⟨ds, h1, h2, h3⟩ := h.line.reposition (h.sorted_rest he)
    fun d hd => ne_of_nodup_map h.admission_nodup hd
  rw [← ha] at h1
  have hl : r.label = q.label := funext fun d => by rw [label, label, id_eq]
  refine ⟨ds, ⟨h1, ?_, h3, ?_, ?_, ?_, ?_⟩, h2⟩
  · rw [ha]
    exact h.stock.reposition.of_mem fun d => h2.mem_iff
  · intro d hd
    rw [size_eq]
    exact h.known d (h2.mem_iff.mp hd)
  · intro m hm
    rw [entry_eq, update_keeps _ hn]
    exact h.numbered m (size_eq ▸ hm)
  · rw [hi, hl]
    exact h.indexed.trans (h2.map _).symm
  · simp only [id_eq]
    exact ((h2.map _).nodup_iff).mpr h.unique

section Enqueue

variable {e : Entry}

theorem entries_enqueue : (q.enqueue e).entries =
    q.entries.push { e with admission := q.entries.size, tracked := q.tracking } := by
  simp only [enqueue]

theorem index_enqueue :
    (q.enqueue e).index = (e.id, (q.arena.alloc q.entries.size).1) :: q.index := by
  simp only [enqueue]

theorem arena_enqueue : (q.enqueue e).arena = (q.arena.alloc q.entries.size).2.insertSorted
    (q.enqueue e).order (q.arena.alloc q.entries.size).1 := by
  have ho : (q.enqueue e).order = Queue.order { q with entries := q.entries.push _ } :=
    order_of_entries entries_enqueue
  rw [ho]
  simp only [enqueue]

@[simp] theorem size_enqueue : (q.enqueue e).entries.size = q.entries.size + 1 := by
  simp [entries_enqueue]

theorem entry_enqueue : (q.enqueue e).entry m =
    if m = q.entries.size then { e with admission := q.entries.size, tracked := q.tracking }
    else q.entry m := by
  simp only [entry, entries_enqueue, Array.getD_eq_getD_getElem?, Array.getElem?_push]
  split <;> simp

theorem entry_enqueue_of_lt (h : m < q.entries.size) : (q.enqueue e).entry m = q.entry m := by
  rw [entry_enqueue, if_neg (Nat.ne_of_lt h)]

theorem entry_enqueue_held (h : q.Holds cs) (hc : c ∈ cs) :
    (q.enqueue e).entry c.admission = q.entry c.admission :=
  entry_enqueue_of_lt (h.known c hc)

theorem id_enqueue : ((q.enqueue e).entry q.entries.size).id = e.id := by
  rw [entry_enqueue, if_pos rfl]

theorem Holds.sorted_enqueue (h : q.Holds cs) : Arena.Sorted (q.enqueue e).order cs := by
  refine h.sorted.imp_of_mem ?_
  intro c d hc hd hcd
  rwa [Before, order, order, entry_enqueue_held h hc, entry_enqueue_held h hd]

theorem Holds.indexed_enqueue (h : q.Holds cs) : (q.enqueue e).index.Perm
    ((⟨(q.arena.alloc q.entries.size).1, q.entries.size⟩ :: cs).map (q.enqueue e).label) := by
  have hids (c) (hc : c ∈ cs) : (q.enqueue e).label c = q.label c := by
    rw [label, label, entry_enqueue_held h hc]
  rw [index_enqueue, List.map_cons, List.map_congr_left hids, label, id_enqueue]
  exact h.indexed.cons _

theorem Holds.unique_enqueue {i : Nat} (h : q.Holds cs)
    (hg : ∀ c ∈ cs, (q.entry c.admission).id ≠ e.id) :
    ((⟨i, q.entries.size⟩ :: cs).map fun c => ((q.enqueue e).entry c.admission).id).Nodup := by
  rw [List.map_cons, id_enqueue, List.nodup_cons,
    List.map_congr_left fun c hc => by rw [entry_enqueue_held h hc]]
  refine ⟨fun hm => ?_, h.unique⟩
  obtain ⟨c, hc, he⟩ := List.mem_map.mp hm
  exact hg c hc he

theorem Holds.enqueue (h : q.Holds cs) (hg : ∀ c ∈ cs, (q.entry c.admission).id ≠ e.id) :
    ∃ i ds, (q.enqueue e).Holds ds ∧ ds.Perm (⟨i, q.entries.size⟩ :: cs) := by
  set n := q.entries.size with hn
  set i := (q.arena.alloc n).1 with hi
  have hstock := Arena.Stock.alloc h.stock (n := n)
  have hline := Arena.Line.alloc h.stock h.line (n := n)
  have hfree : i ∉ Arena.track cs := fun hm =>
    h.line.content_ne_vacant hm (Arena.content_alloc_vacant h.stock)
  obtain ⟨ds, h1, h2, h3⟩ := hline.insertSorted (c := ⟨i, n⟩) hfree (Arena.alloc_lt h.stock)
    ((hstock.used i n).mpr (by simp [hi])) h.sorted_enqueue fun d hd => Nat.ne_of_lt (h.known d hd)
  refine ⟨i, ds, ⟨?_, ?_, h3, ?_, ?_, ?_, ?_⟩, h2⟩
  · rw [arena_enqueue]
    exact h1
  · rw [arena_enqueue]
    exact hstock.insertSorted.of_mem fun c => h2.mem_iff
  · intro c hc
    rw [size_enqueue]
    rcases List.mem_cons.mp (h2.mem_iff.mp hc) with rfl | hc
    · exact Nat.lt_succ_self n
    · exact (h.known c hc).trans (Nat.lt_succ_self n)
  · intro m hm
    rw [size_enqueue] at hm
    rw [entry_enqueue]
    split
    next e => exact e.symm
    next ne => exact h.numbered m (by omega)
  · exact h.indexed_enqueue.trans (h2.map _).symm
  · exact ((h2.map _).nodup_iff).mpr (h.unique_enqueue hg)

end Enqueue

theorem valid_empty {tracking : Bool} : Valid { tracking } := by
  have hnext : Arena.next {} Arena.head = Arena.tail := by decide
  have hprev : Arena.prev {} Arena.tail = Arena.head := by decide
  have content_eq (i) : Arena.content {} i =
      if i = 0 then .head else if i = 1 then .tail else .vacant := by
    match i with
    | 0 => rfl
    | 1 => rfl
    | i + 2 => rfl
  refine ⟨[], ⟨?_, ?_, List.Pairwise.nil, by simp, by simp, List.Perm.refl _, by simp⟩⟩
  · refine ⟨?_, by decide, by simp [Arena.track, Arena.head, Arena.tail], content_eq 0,
      content_eq 1, by simp, rfl⟩
    simpa [Arena.track] using ⟨hnext, hprev⟩
  · refine ⟨?_, ?_, ?_, by simp, ?_⟩
    all_goals
      intro i
      simp only [content_eq]
      grind [Arena.head, Arena.tail]

end Queue

end Multiversion
