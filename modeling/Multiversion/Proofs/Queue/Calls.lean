import Mathlib
import Multiversion.Proofs.Queue.Grant

/-!
Each call makes one or two small changes and then grants readiness; the changes are told apart here,
so that a property of the queue is proved for each of them once.
-/

namespace Multiversion

namespace Entry

variable {e : Entry} {now : Time}

theorem markCommitted_keeps {α : Type} (φ : Entry → α) (hφ : ∀ e t n,
    φ { e with committed := true, committedAt := t, notifier := n } = φ e) :
    φ (e.markCommitted now) = φ e := by
  unfold markCommitted
  split
  · rfl
  · exact hφ e _ _

theorem holdBack_keeps {α : Type} (φ : Entry → α)
    (hφ : ∀ e : Entry, φ { e with pending := true } = φ e) : φ e.holdBack = φ e := by
  unfold holdBack
  split
  · rfl
  · exact hφ e

end Entry

namespace Queue

variable {q r s : Queue} {g : TransactionId} {v : Version} {e : Entry} {m n tx order clock : Nat}
  {now : Time}

structure Removed (q : Queue) (n : Nat) (r : Queue) : Prop where
  valid : r.Valid
  size : r.entries.size = q.entries.size
  line : ∀ m, m ∈ r.line ↔ m ∈ q.line ∧ m ≠ n
  left : r.entry n = (q.entry n).abort
  kept : ∀ m, m ≠ n → r.entry m = q.entry m

structure Enqueued (q : Queue) (e : Entry) (r : Queue) : Prop where
  valid : r.Valid
  size : r.entries.size = q.entries.size + 1
  line : ∀ m, m ∈ r.line ↔ m = q.entries.size ∨ m ∈ q.line
  fresh : r.entry q.entries.size = { e with admission := q.entries.size, tracked := q.tracking }
  kept : ∀ m < q.entries.size, r.entry m = q.entry m

structure Received (q : Queue) (n : Nat) (v : Version) (order : Nat) (now : Time) (r : Queue) :
    Prop where
  valid : r.Valid
  size : r.entries.size = q.entries.size
  line : ∀ m, m ∈ r.line ↔ m ∈ q.line
  settled : r.entry n = (q.entry n).receive v order now
  kept : ∀ m, m ≠ n → r.entry m = q.entry m

structure Detached (q r : Queue) : Prop where
  valid : r.Valid
  size : r.entries.size = q.entries.size
  line : r.line = q.line.dropWhile fun n => (q.entry n).committed
  kept : ∀ m, r.entry m = q.entry m

theorem Removed.keeps {α : Type} (hr : q.Removed n r) (φ : Entry → α)
    (hφ : ∀ e : Entry, φ e.abort = φ e) : φ (r.entry m) = φ (q.entry m) := by
  by_cases hm : m = n
  · rw [hm, hr.left, hφ]
  · rw [hr.kept m hm]

theorem Received.keeps {α : Type} (hr : q.Received n v order now r) (φ : Entry → α)
    (hφ : ∀ e : Entry, φ (e.receive v order now) = φ e) : φ (r.entry m) = φ (q.entry m) := by
  by_cases hm : m = n
  · rw [hm, hr.settled, hφ]
  · rw [hr.kept m hm]

section Unready

theorem lt_of_ready (h : (q.entry n).ready = true) : n < q.entries.size := by
  by_contra hn
  rw [entry_of_le (Nat.not_lt.mp hn)] at h
  cases h

theorem Removed.unready (hr : q.Removed n r) (hm : (q.entry m).ready = false) :
    (r.entry m).ready = false := (hr.keeps Entry.ready fun _ => rfl).trans hm

theorem Enqueued.unready (hr : q.Enqueued e r) (hu : e.ready = false)
    (hm : (q.entry m).ready = false) : (r.entry m).ready = false := by
  rcases Nat.lt_trichotomy m q.entries.size with hlt | rfl | hlt
  · rw [hr.kept m hlt, hm]
  · rw [hr.fresh]
    exact hu
  · rw [entry_of_le (hr.size ▸ hlt)]
    rfl

theorem Received.unready (hr : q.Received n v order now r) (hm : (q.entry m).ready = false) :
    (r.entry m).ready = false := by
  by_cases hmn : m = n
  · rw [hmn, hr.settled]
    exact hmn ▸ hm
  · rw [hr.kept m hmn, hm]

theorem Enqueued.of_ready (hr : q.Enqueued e r) (hu : e.ready = false)
    (hm : (r.entry m).ready = true) : (q.entry m).ready = true ∧ r.entry m = q.entry m := by
  have hq : (q.entry m).ready = true := by
    by_contra hq
    rw [hr.unready hu (by simpa using hq)] at hm
    cases hm
  exact ⟨hq, hr.kept m (lt_of_ready hq)⟩

theorem Received.of_ready (hr : q.Received n v order now r) (hu : (q.entry n).ready = false)
    (hm : (r.entry m).ready = true) :
    m ≠ n ∧ (q.entry m).ready = true ∧ r.entry m = q.entry m := by
  have hmn : m ≠ n := by
    rintro rfl
    rw [hr.unready hu] at hm
    cases hm
  have he := hr.kept m hmn
  exact ⟨hmn, he ▸ hm, he⟩

end Unready

def Each (q : Queue) (P : Entry → Prop) : Prop := ∀ n < q.entries.size, P (q.entry n)

section Each

variable {P : Entry → Prop}

theorem Each.update {f : Entry → Entry} (h : q.Each P) (hf : ∀ e, P e → P (f e)) :
    (q.update n f).Each P := fun m hm => update_preserves hf (h m (by simpa using hm))

theorem Each.grantReady (h : q.Each P) (hP : ∀ e s, P e → P (e.markReady s now)) :
    (q.grantReady now).Each P := fun m hm => grantReady_preserves hP (h m (by simpa using hm))

theorem Removed.each (hr : q.Removed n r) (h : q.Each P) (hP : ∀ e, P e → P e.abort) :
    r.Each P := by
  intro m hm
  rw [hr.size] at hm
  by_cases hmn : m = n
  · rw [hmn, hr.left]
    exact hP _ (hmn ▸ h m hm)
  · rw [hr.kept m hmn]
    exact h m hm

theorem Enqueued.each (hr : q.Enqueued e r) (h : q.Each P)
    (he : P { e with admission := q.entries.size, tracked := q.tracking }) : r.Each P := by
  intro m hm
  rw [hr.size] at hm
  rcases Nat.lt_succ_iff_lt_or_eq.mp hm with hm | rfl
  · rw [hr.kept m hm]
    exact h m hm
  · rw [hr.fresh]
    exact he

theorem Received.each (hr : q.Received n v order now r) (h : q.Each P)
    (hP : ∀ e, P e → P (e.receive v order now)) : r.Each P := by
  intro m hm
  rw [hr.size] at hm
  by_cases hmn : m = n
  · rw [hmn, hr.settled]
    exact hP _ (hmn ▸ h m hm)
  · rw [hr.kept m hmn]
    exact h m hm

theorem Detached.each (hr : q.Detached r) (h : q.Each P) : r.Each P := by
  intro m hm
  rw [hr.kept]
  exact h m (hr.size ▸ hm)

end Each

namespace Valid

theorem update {f : Entry → Entry} (h : q.Valid) (hn : ∀ e, (f e).admission = e.admission)
    (hg : ∀ e, (f e).id = e.id) (ho : ∀ e, (f e).order = e.order) : (q.update n f).Valid := by
  obtain ⟨cs, h⟩ := h
  exact ⟨cs, h.update hn hg ho⟩

theorem remove_none (hf : q.find? g = none) : q.remove g = (q, none) := by
  rw [remove, hf]
  cases q.slot? g <;> rfl

theorem remove_eq {i : Nat} (hi : q.slot? g = some i) (hf : q.find? g = some n) :
    q.remove g = ((q.cut i (·.1 ≠ g)).update n Entry.abort, some n) := by
  simp only [remove, hi, hf, cut, dropSlot]

theorem remove_some (h : q.Valid) (hf : q.find? g = some n) :
    ∃ r, q.remove g = (r, some n) ∧ q.Removed n r := by
  obtain ⟨cs, h⟩ := h
  obtain ⟨c, hc, hg, rfl⟩ := h.find?_eq_some_iff.mp hf
  have hi : q.slot? g = some c.slot := h.lookup.mpr ⟨c, hc, hg, rfl⟩
  obtain ⟨us, vs, rfl⟩ := List.append_of_mem hc
  have hr : (q.cut c.slot (·.1 ≠ g)).Holds (us ++ vs) := by
    refine h.cut (by simp [label, hg]) ?_
    intro d hd
    simpa [label, ← hg] using ne_of_nodup_map h.unique hd
  have hs : c.admission < (q.cut c.slot (·.1 ≠ g)).entries.size := by
    rw [entries_cut]
    exact h.known c hc
  refine ⟨_, remove_eq hi hf, ⟨_, hr.update (fun _ => rfl) (fun _ => rfl) fun _ => rfl⟩, ?_, ?_,
    ?_, ?_⟩
  · rw [size_update, entries_cut]
  · intro m
    rw [line_update, hr.mem_line, h.mem_line]
    constructor
    · rintro ⟨d, hd, rfl⟩
      refine ⟨⟨d, ?_, rfl⟩, ne_of_nodup_map h.admission_nodup hd⟩
      have hsub : (us ++ vs).Sublist (us ++ c :: vs) := by simp
      exact hsub.subset hd
    · rintro ⟨⟨d, hd, rfl⟩, hne⟩
      refine ⟨d, ?_, rfl⟩
      simp only [List.mem_append, List.mem_cons] at hd ⊢
      have hdc : d ≠ c := fun e => hne (e ▸ rfl)
      simpa [hdc] using hd
  · rw [entry_update hs, if_pos rfl, entry_cut]
  · intro m hm
    rw [entry_update hs, if_neg hm, entry_cut]

theorem enqueue (h : q.Valid) (hg : ∀ n ∈ q.line, (q.entry n).id ≠ e.id) :
    q.Enqueued e (q.enqueue e) := by
  obtain ⟨cs, h⟩ := h
  obtain ⟨i, ds, hds, hp⟩ := h.enqueue fun c hc => hg _ (h.mem_line.mpr ⟨c, hc, rfl⟩)
  refine ⟨⟨ds, hds⟩, size_enqueue, ?_, ?_, fun m hm => entry_enqueue_of_lt hm⟩
  · intro m
    rw [hds.mem_line, h.mem_line]
    constructor
    · rintro ⟨d, hd, rfl⟩
      rcases List.mem_cons.mp (hp.mem_iff.mp hd) with rfl | hd
      · exact .inl rfl
      · exact .inr ⟨d, hd, rfl⟩
    · rintro (rfl | ⟨d, hd, rfl⟩)
      · exact ⟨_, hp.mem_iff.mpr (List.mem_cons_self ..), rfl⟩
      · exact ⟨d, hp.mem_iff.mpr (List.mem_cons_of_mem _ hd), rfl⟩
  · rw [entry_enqueue, if_pos rfl]

end Valid

def place (q : Queue) (i n : Nat) (v : Version) (order : Nat) (now : Time) : Queue :=
  let q := q.update n (·.receive v order now)
  { q with arena := (q.arena.reposition q.order i).1 }

theorem slot?_of_find? (h : q.find? g = some n) : ∃ i, q.slot? g = some i := by
  obtain ⟨i, hi, -⟩ := Option.bind_eq_some_iff.mp h
  exact ⟨i, hi⟩

section Place

variable {i : Nat}

theorem entries_place :
    (q.place i n v order now).entries = (q.update n (·.receive v order now)).entries := by
  simp only [place]

theorem index_place : (q.place i n v order now).index = q.index := by
  simp only [place, Queue.update]

theorem arena_place : (q.place i n v order now).arena =
    (q.arena.reposition (q.place i n v order now).order i).1 := by
  rw [order_of_entries entries_place]
  simp only [place, Queue.update]

theorem commit_eq (v : Version) (order : Nat) (now : Time) (hi : q.slot? g = some i)
    (hf : q.find? g = some n) :
    (q.commit g v order now).1 =
        ((q.place i n v order now).grantReady now).update n Entry.holdBack ∧
      (q.commit g v order now).2.1 = some n := by
  rw [commit, hi, hf]
  exact ⟨by simp only [place], rfl⟩

end Place

namespace Valid

theorem commit_none (hf : q.find? g = none) : q.commit g v order now = (q, none, []) := by
  rw [commit, hf]
  cases q.slot? g <;> rfl

theorem place (h : q.Valid) {i : Nat} (v : Version) (order : Nat) (now : Time)
    (hi : q.slot? g = some i) (hf : q.find? g = some n) :
    q.Received n v order now (q.place i n v order now) := by
  obtain ⟨cs, h⟩ := h
  obtain ⟨c, hc, hg, rfl⟩ := h.find?_eq_some_iff.mp hf
  obtain rfl : c.slot = i := Option.some.inj ((h.lookup.mpr ⟨c, hc, hg, rfl⟩).symm.trans hi)
  obtain ⟨ds, hd, hp⟩ := h.move hc (f := (·.receive v order now)) (fun _ => rfl) (fun _ => rfl)
    entries_place arena_place index_place
  have entry_eq (m) : (q.place c.slot c.admission v order now).entry m =
      (q.update c.admission (·.receive v order now)).entry m := by
    rw [entry, entry, entries_place]
  refine ⟨⟨ds, hd⟩, ?_, ?_, ?_, ?_⟩
  · rw [entries_place, size_update]
  · intro m
    rw [hd.mem_line, h.mem_line]
    simp only [hp.mem_iff]
  · rw [entry_eq, entry_update (h.known c hc), if_pos rfl]
  · intro m hm
    rw [entry_eq, entry_update (h.known c hc), if_neg hm]

theorem commit_some (h : q.Valid) (v : Version) (order : Nat) (now : Time)
    (hf : q.find? g = some n) :
    (q.commit g v order now).2.1 = some n ∧ ∃ r, q.Received n v order now r ∧
      (q.commit g v order now).1 = (r.grantReady now).update n Entry.holdBack := by
  obtain ⟨i, hi⟩ := slot?_of_find? hf
  obtain ⟨h1, h2⟩ := commit_eq v order now hi hf
  exact ⟨h2, _, h.place v order now hi hf, h1⟩

theorem rollback_none (hf : q.find? g = none) : q.rollback g now = (q, none) := by
  rw [rollback, remove_none hf]

theorem rollback_some (h : q.Valid) (now : Time) (hf : q.find? g = some n) :
    (q.rollback g now).2 = some n ∧
      ∃ r, q.Removed n r ∧ (q.rollback g now).1 = r.grantReady now := by
  obtain ⟨r, e, hr⟩ := h.remove_some hf
  rw [rollback, e]
  exact ⟨rfl, r, hr, rfl⟩

theorem find?_eq_none_iff (h : q.Valid) : q.find? g = none ↔ ∀ n ∈ q.line, (q.entry n).id ≠ g := by
  constructor
  · intro hf n hn hg
    rw [h.find?_eq_some_iff.mpr ⟨hn, hg⟩] at hf
    cases hf
  · intro hn
    cases hf : q.find? g with
    | none => rfl
    | some n => exact absurd (h.find?_eq_some_iff.mp hf).2 (hn n (h.find?_eq_some_iff.mp hf).1)

end Valid

def tentative (tx : Nat) (g : TransactionId) (v : Version) (order clock : Nat) (now : Time) :
    Entry :=
  { tx, id := g, admission := 0, clock, version := v, order, createdAt := now }

namespace Valid

variable (h : q.Valid)
include h

theorem prepare_none (tx : Nat) (v : Version) (order clock : Nat) (now : Time)
    (hf : q.find? g = none) :
    q.Enqueued (tentative tx g v order clock now) (q.prepare tx g v order clock now).1 := by
  rw [prepare, remove_none hf]
  exact h.enqueue (e := tentative tx g v order clock now) (h.find?_eq_none_iff.mp hf)

theorem free_of_removed (hf : q.find? g = some n) (hr : q.Removed n r) :
    ∀ m ∈ r.line, (r.entry m).id ≠ g := by
  obtain ⟨hn, hg⟩ := h.find?_eq_some_iff.mp hf
  intro m hm hmg
  obtain ⟨hm, hmn⟩ := (hr.line m).mp hm
  rw [hr.kept m hmn] at hmg
  exact hmn (h.id_inj hm hn (hmg.trans hg.symm))

theorem prepare_some (tx : Nat) (v : Version) (order clock : Nat) (now : Time)
    (hf : q.find? g = some n) : ∃ r s, q.Removed n r ∧
    r.Enqueued (tentative tx g v order clock now) s ∧
    (q.prepare tx g v order clock now).1 = s.grantReady now := by
  obtain ⟨r, e, hr⟩ := h.remove_some hf
  refine ⟨r, _, hr,
    hr.valid.enqueue (e := tentative tx g v order clock now) (h.free_of_removed hf hr), ?_⟩
  simp only [prepare, e, tentative]

end Valid

section Detach

variable {cs : List Cell} {c : Cell}

theorem dropHead?_nil (h : q.Holds []) : q.dropHead? = none := by
  have hc : q.arena.content (q.arena.next Arena.head) = .tail := by
    rw [h.line.next_head]
    exact h.line.tailed
  simp only [dropHead?, hc]

def others (q : Queue) (c : Cell) (x : TransactionId × Nat) : Bool :=
  !(x.1 = (q.entry c.admission).id && x.2 = c.slot)

theorem others_self : q.others c (q.label c) = false := by
  simp [others, label]

theorem Holds.others_rest {d : Cell} (h : q.Holds (c :: cs)) (hd : d ∈ cs) :
    q.others c (q.label d) = true := by
  have h : q.Holds ([] ++ c :: cs) := h
  simp [others, label, ne_of_nodup_map h.unique hd]

theorem Holds.beheaded (h : q.Holds (c :: cs)) : (q.cut c.slot (q.others c)).Holds cs := by
  have hc : q.Holds ([] ++ c :: cs) := h
  exact hc.cut others_self fun _ hd => h.others_rest hd

theorem dropHead?_uncommitted (h : q.Holds (c :: cs))
    (hu : (q.entry c.admission).committed = false) : q.dropHead? = none := by
  have hi : q.arena.next Arena.head = c.slot := h.line.next_head
  have hc : q.arena.content c.slot = .entry c.admission := h.line.filled c (by simp)
  simp [dropHead?, hi, hc, hu]

theorem dropHead?_committed (h : q.Holds (c :: cs))
    (hu : (q.entry c.admission).committed = true) :
    q.dropHead? = some (q.cut c.slot (q.others c)) := by
  have hi : q.arena.next Arena.head = c.slot := h.line.next_head
  have hc : q.arena.content c.slot = .entry c.admission := h.line.filled c (by simp)
  simp only [dropHead?, hi, hc, hu, if_pos, dropSlot]
  rfl

theorem dropCommitted_spec {fuel : Nat} (h : q.Holds cs) (hf : cs.length ≤ fuel) :
    (q.dropCommitted fuel).1.Holds (cs.dropWhile fun c => (q.entry c.admission).committed) ∧
    (q.dropCommitted fuel).1.entries = q.entries ∧
    (q.dropCommitted fuel).2 = (cs.takeWhile fun c => (q.entry c.admission).committed).length := by
  induction cs generalizing q fuel with
  | nil =>
    cases fuel with
    | zero => exact ⟨h, rfl, rfl⟩
    | succ fuel =>
      rw [dropCommitted, dropHead?_nil h]
      exact ⟨h, rfl, rfl⟩
  | cons c cs ih =>
    obtain ⟨fuel, rfl⟩ := Nat.exists_eq_succ_of_ne_zero (by simp at hf; omega : fuel ≠ 0)
    cases hu : (q.entry c.admission).committed with
    | false =>
      rw [dropCommitted, dropHead?_uncommitted h hu, List.dropWhile_cons_of_neg (by simp [hu]),
        List.takeWhile_cons_of_neg (by simp [hu])]
      exact ⟨h, rfl, rfl⟩
    | true =>
      obtain ⟨h1, h2, h3⟩ := ih h.beheaded (by simpa using hf)
      simp only [entry_cut] at h1 h3
      rw [dropCommitted, dropHead?_committed h hu, List.dropWhile_cons_of_pos (by simp [hu]),
        List.takeWhile_cons_of_pos (by simp [hu])]
      exact ⟨h1, h2.trans entries_cut, by simp [h3]⟩

theorem Valid.detach (h : q.Valid) (now : Time) : ∃ r, q.Detached r ∧
    q.detach now = (r.grantReady now,
      (q.line.takeWhile fun n => (q.entry n).committed).length) := by
  obtain ⟨cs, h⟩ := h
  obtain ⟨h1, h2, h3⟩ := dropCommitted_spec h h.line.length_eq.ge
  refine ⟨_, ⟨⟨_, h1⟩, by rw [h2], ?_, fun m => by rw [entry, entry, h2]⟩, ?_⟩
  · rw [h1.line_eq, h.line_eq, List.dropWhile_map]
    rfl
  · rw [Queue.detach, h.line_eq, List.takeWhile_map, List.length_map]
    exact Prod.ext rfl h3

end Detach

section Cases

variable {motive : Queue → Prop} (h : q.Valid)
include h

@[elab_as_elim]
theorem Valid.prepare_cases
    (fresh : ∀ r, q.Enqueued (tentative tx g v order clock now) r → motive r)
    (again : ∀ n r s, q.find? g = some n → q.Removed n r →
      r.Enqueued (tentative tx g v order clock now) s → motive (s.grantReady now)) :
    motive (q.prepare tx g v order clock now).1 := by
  cases hf : q.find? g with
  | none => exact fresh _ (h.prepare_none tx v order clock now hf)
  | some n =>
    obtain ⟨r, s, hr, hs, e⟩ := h.prepare_some tx v order clock now hf
    rw [e]
    exact again n r s hf hr hs

@[elab_as_elim]
theorem Valid.commit_cases (unknown : motive q)
    (known : ∀ n r, q.find? g = some n → q.Received n v order now r →
      motive ((r.grantReady now).update n Entry.holdBack)) :
    motive (q.commit g v order now).1 := by
  cases hf : q.find? g with
  | none =>
    rw [commit_none hf]
    exact unknown
  | some n =>
    obtain ⟨-, r, hr, e⟩ := h.commit_some v order now hf
    rw [e]
    exact known n r hf hr

@[elab_as_elim]
theorem Valid.rollback_cases (unknown : motive q)
    (known : ∀ n r, q.find? g = some n → q.Removed n r → motive (r.grantReady now)) :
    motive (q.rollback g now).1 := by
  cases hf : q.find? g with
  | none =>
    rw [rollback_none hf]
    exact unknown
  | some n =>
    obtain ⟨-, r, hr, e⟩ := h.rollback_some now hf
    rw [e]
    exact known n r hf hr

@[elab_as_elim]
theorem Valid.detach_cases (detached : ∀ r, q.Detached r → motive (r.grantReady now)) :
    motive (q.detach now).1 := by
  obtain ⟨r, hr, e⟩ := h.detach now
  rw [e]
  exact detached r hr

end Cases

section Each

variable {P : Entry → Prop} (h : q.Valid) (hq : q.Each P)
include h hq

theorem Valid.prepare_each (ha : ∀ e, P e → P e.abort) (hg : ∀ e k, P e → P (e.markReady k now))
    (ht : ∀ k b, P { tentative tx g v order clock now with admission := k, tracked := b }) :
    (q.prepare tx g v order clock now).1.Each P :=
  h.prepare_cases (fun _ hr => hr.each hq (ht _ _)) fun _ _ _ _ hr hs =>
    (hs.each (hr.each hq ha) (ht _ _)).grantReady hg

theorem Valid.commit_each (hr : ∀ e, P e → P (e.receive v order now))
    (hg : ∀ e k, P e → P (e.markReady k now)) (hb : ∀ e, P e → P e.holdBack) :
    (q.commit g v order now).1.Each P :=
  h.commit_cases hq fun _ _ _ h1 => ((h1.each hq hr).grantReady hg).update hb

theorem Valid.rollback_each (ha : ∀ e, P e → P e.abort)
    (hg : ∀ e k, P e → P (e.markReady k now)) : (q.rollback g now).1.Each P :=
  h.rollback_cases hq fun _ _ _ hr => (hr.each hq ha).grantReady hg

theorem Valid.detach_each (hg : ∀ e k, P e → P (e.markReady k now)) :
    (q.detach now).1.Each P :=
  h.detach_cases fun _ hr => (hr.each hq).grantReady hg

end Each

end Queue

end Multiversion
