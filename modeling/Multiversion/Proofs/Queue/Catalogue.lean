import Mathlib
import Multiversion.Proofs.Queue.Evaluation
import Multiversion.Proofs.Queue.Slots

/-!
The calls carried out over the links. The catalogue keeps the entry of each queued transaction
beside its slot; a call that met a vacant slot, or took out a sentinel, would have no rule.
-/

namespace Multiversion.Queue

structure Catalogued where
  queue : Queue
  catalogue : List (TransactionId × Nat × Nat)

def admissionIn (q : Queue) (i : Nat) : Nat :=
  match q.arena.content i with
  | .entry n => n
  | _ => 0

def catalogue (q : Queue) : List (TransactionId × Nat × Nat) :=
  q.index.map fun x => (x.1, x.2, q.admissionIn x.2)

def catalogued (q : Queue) : Catalogued := ⟨q, q.catalogue⟩

def Catalogued.cut (s : Catalogued) (i : Nat) (P : TransactionId × Nat → Bool) : Catalogued :=
  ⟨s.queue.cut i P, s.catalogue.filter fun x => P (x.1, x.2.1)⟩

def Catalogued.update (s : Catalogued) (n : Nat) (f : Entry → Entry) : Catalogued :=
  ⟨s.queue.update n f, s.catalogue⟩

def relink (q : Queue) (a : Arena) : Queue := { q with arena := a }

inductive Removes (g : TransactionId) (s : Catalogued) : Catalogued → Prop
  | entry {i n : Nat} : s.catalogue.lookup g = some (i, n) → s.queue.arena.CanUnlink i →
      Removes g s ((s.cut i (·.1 ≠ g)).update n Entry.abort)

inductive Adds (e : Entry) (s : Catalogued) : Catalogued → Prop
  | entry {a : Arena} :
      (s.queue.arena.alloc s.queue.entries.size).2.Inserts (s.queue.enqueue e).order
        (s.queue.arena.alloc s.queue.entries.size).1 a →
      Adds e s ⟨(s.queue.enqueue e).relink a,
        (e.id, (s.queue.arena.alloc s.queue.entries.size).1, s.queue.entries.size) :: s.catalogue⟩

inductive Detaches : Catalogued → Catalogued → Prop
  | stop {s : Catalogued} {i : Nat} : s.queue.arena.next Arena.head = i →
      s.queue.arena.content i ≠ .vacant → ¬ s.queue.Meets (·.committed) i → Detaches s s
  | drop {s t : Catalogued} {i n : Nat} : s.queue.arena.next Arena.head = i →
      s.queue.arena.content i = .entry n → (s.queue.entry n).committed = true →
      s.queue.arena.CanUnlink i →
      Detaches (s.cut i fun x => !(x.1 = (s.queue.entry n).id && x.2 = i)) t → Detaches s t

inductive Performs (p : Position) : Catalogued → Call → Catalogued → Prop
  | install {s : Catalogued} {p' : Position} : Performs p s (.install p') s
  | prepare {s t : Catalogued} {tx : Nat} {g : TransactionId} {v : Version} {clock : Nat}
      {now : Time} :
      s.catalogue.lookup g = none → Adds (tentative tx g v (p.seq v) clock now) s t →
      Performs p s (.prepare tx g v clock now) t
  | replace {s t u : Catalogued} {r : Queue} {tx : Nat} {g : TransactionId} {v : Version}
      {clock : Nat} {now : Time} :
      Removes g s t → Adds (tentative tx g v (p.seq v) clock now) t u → Evaluates now u.queue r →
      Performs p s (.prepare tx g v clock now) ⟨r, u.catalogue⟩
  | commit {s : Catalogued} {r : Queue} {x : Arena × Bool} {i n : Nat} {g : TransactionId}
      {v : Version} {now : Time} :
      s.catalogue.lookup g = some (i, n) →
      s.queue.arena.Moves (s.queue.update n (·.receive v (p.seq v) now)).order i x →
      Evaluates now ((s.queue.update n (·.receive v (p.seq v) now)).relink x.1) r →
      Performs p s (.commit g v now) ⟨r.update n Entry.holdBack, s.catalogue⟩
  | commitUnknown {s : Catalogued} {g : TransactionId} {v : Version} {now : Time} :
      s.catalogue.lookup g = none → Performs p s (.commit g v now) s
  | rollback {s t : Catalogued} {r : Queue} {g : TransactionId} {now : Time} :
      Removes g s t → Evaluates now t.queue r → Performs p s (.rollback g now) ⟨r, t.catalogue⟩
  | rollbackUnknown {s : Catalogued} {g : TransactionId} {now : Time} :
      s.catalogue.lookup g = none → Performs p s (.rollback g now) s
  | claim {s : Catalogued} {n : Nat} :
      Performs p s (.claim n) (s.update n fun e => e.claim.2)
  | markCommitted {s : Catalogued} {n : Nat} {now : Time} :
      Performs p s (.markCommitted n now) (s.update n (·.markCommitted now))
  | detach {s t : Catalogued} {r : Queue} {now : Time} :
      Detaches s t → Evaluates now t.queue r → Performs p s (.detach now) ⟨r, t.catalogue⟩

inductive Runs : Position → Catalogued → List Call → Catalogued → Prop
  | nil {p : Position} {s : Catalogued} : Runs p s [] s
  | cons {p : Position} {s t u : Catalogued} {c : Call} {cs : List Call} :
      Performs p s c t → Runs (c.position p) t cs u → Runs p s (c :: cs) u

/-- The slots in `is` are linked, the others but the sentinels are free, and the catalogue holds
    what is linked and nothing else. -/
structure Catalogued.WellFormed (s : Catalogued) (is : List Nat) : Prop where
  linked : s.queue.arena.Linked is
  known : ∀ i ∈ is, ∀ n, s.queue.arena.content i = .entry n → n < s.queue.entries.size
  free_nodup : s.queue.arena.free.Nodup
  free_iff : ∀ i, i ∈ s.queue.arena.free ↔
    i < s.queue.arena.slots.size ∧ s.queue.arena.content i = .vacant
  shared : ∀ i < s.queue.arena.slots.size, i ≠ Arena.head → i ≠ Arena.tail →
    (i ∈ s.queue.arena.free ↔ i ∉ is)
  keyed : (s.catalogue.map Prod.fst).Nodup
  listed : ∀ g i n, (g, i, n) ∈ s.catalogue ↔
    i ∈ is ∧ s.queue.arena.content i = .entry n ∧ (s.queue.entry n).id = g
  size_eq : s.queue.size = is.length

variable {p : Position} {q r : Queue} {s : Catalogued} {e : Entry} {g : TransactionId} {v : Version}
  {c : Call} {i n fuel : Nat} {d : Cell} {ds us vs : List Cell} {P : TransactionId × Nat → Bool}
  {now : Time}

section Detaches

variable {t : Catalogued} (hi : s.queue.arena.next Arena.head = i)
include hi

theorem detaches_stop (hv : s.queue.arena.content i ≠ .vacant)
    (hm : ¬ s.queue.Meets (·.committed) i) : Detaches s t ↔ t = s := by
  constructor
  · intro h
    cases h with
    | stop => rfl
    | drop hi' hn hc =>
      obtain rfl := hi.symm.trans hi'
      exact absurd ⟨_, hn, hc⟩ hm
  · rintro rfl
    exact .stop hi hv hm

theorem detaches_drop (hn : s.queue.arena.content i = .entry n)
    (hc : (s.queue.entry n).committed = true) (hu : s.queue.arena.CanUnlink i) :
    Detaches s t ↔ Detaches (s.cut i fun x => !(x.1 = (s.queue.entry n).id && x.2 = i)) t := by
  constructor
  · intro h
    cases h with
    | stop hi' _ hm =>
      obtain rfl := hi.symm.trans hi'
      exact absurd ⟨_, hn, hc⟩ hm
    | drop hi' hn' _ _ ht =>
      obtain rfl := hi.symm.trans hi'
      obtain rfl := Content.entry.inj (hn.symm.trans hn')
      exact ht
  · exact .drop hi hn hc hu

end Detaches

theorem lookup_map_snd {α β γ : Type} [BEq α] (l : List (α × β)) (f : β → γ) (x : α) :
    (l.map fun y => (y.1, f y.2)).lookup x = (l.lookup x).map f := by
  induction l with
  | nil => rfl
  | cons y l ih =>
    rw [List.map_cons, List.lookup_cons, List.lookup_cons, ih]
    cases x == y.1 <;> rfl

theorem lookup_catalogue :
    q.catalogue.lookup g = (q.slot? g).map fun i => (i, q.admissionIn i) :=
  lookup_map_snd q.index (fun i => (i, q.admissionIn i)) g

theorem catalogue_congr (hi : r.index = q.index) (ha : r.arena = q.arena) :
    r.catalogue = q.catalogue := by
  simp only [catalogue, admissionIn, hi, ha]

theorem catalogued_update {f : Entry → Entry} :
    (q.update n f).catalogued = q.catalogued.update n f := rfl

theorem catalogued_grantReady :
    (q.grantReady now).catalogued = ⟨q.grantReady now, q.catalogue⟩ :=
  congrArg (Catalogued.mk _) (catalogue_congr index_grantAll arena_grantAll)

namespace Holds

theorem admissionIn (h : q.Holds ds) (hd : d ∈ ds) : q.admissionIn d.slot = d.admission := by
  rw [Queue.admissionIn, h.line.filled d hd]

theorem catalogue_congr (h : q.Holds ds) (hr : r.index = q.index)
    (ha : ∀ d ∈ ds, r.admissionIn d.slot = d.admission) : r.catalogue = q.catalogue := by
  rw [catalogue, catalogue, hr]
  refine List.map_congr_left fun x hx => ?_
  obtain ⟨d, hd, rfl⟩ := List.mem_map.mp (h.indexed.mem_iff.mp hx)
  simp only [label, ha d hd, h.admissionIn hd]

theorem catalogued_cut (h : q.Holds (us ++ d :: vs)) (hd : P (q.label d) = false)
    (hP : ∀ x ∈ us ++ vs, P (q.label x) = true) :
    (q.cut d.slot P).catalogued = q.catalogued.cut d.slot P := by
  have hr := h.cut hd hP
  have hsub : (us ++ vs).Sublist (us ++ d :: vs) := by simp
  have hfilter : q.catalogue.filter (fun x => P (x.1, x.2.1)) =
      (q.index.filter P).map fun x => (x.1, x.2, q.admissionIn x.2) := List.filter_map
  rw [catalogued, catalogued, Catalogued.cut, hfilter, catalogue, index_cut]
  refine congrArg (Catalogued.mk _) (List.map_congr_left fun x hx => ?_)
  rw [← index_cut (i := d.slot)] at hx
  obtain ⟨y, hy, rfl⟩ := List.mem_map.mp (hr.indexed.mem_iff.mp hx)
  simp only [label, hr.admissionIn hy, h.admissionIn (hsub.subset hy)]

theorem mem_catalogue (h : q.Holds ds) : (g, i, n) ∈ q.catalogue ↔
    i ∈ ds.map Cell.slot ∧ q.arena.content i = .entry n ∧ (q.entry n).id = g := by
  rw [catalogue, List.mem_map]
  constructor
  · rintro ⟨x, hx, e⟩
    obtain ⟨d, hd, rfl⟩ := List.mem_map.mp (h.indexed.mem_iff.mp hx)
    simp only [label, h.admissionIn hd, Prod.mk.injEq] at e
    obtain ⟨rfl, rfl, rfl⟩ := e
    exact ⟨List.mem_map_of_mem hd, h.line.filled d hd, rfl⟩
  · rintro ⟨-, hi, rfl⟩
    have hd := (h.stock.used i n).mp hi
    exact ⟨q.label ⟨i, n⟩, h.indexed.mem_iff.mpr (List.mem_map_of_mem hd),
      by simp only [label, h.admissionIn hd]⟩

theorem wellFormed (h : q.Holds ds) : q.catalogued.WellFormed (ds.map Cell.slot) where
  linked := h.line.linked
  known i hi n hn := h.known _ ((h.stock.used i n).mp hn)
  free_nodup := h.stock.free_nodup
  free_iff := h.stock.free_iff
  shared i hi hh ht := Arena.mem_free_iff h.line h.stock hi hh ht
  keyed := by
    rw [catalogued, catalogue, List.map_map]
    exact h.index_nodup
  listed g i n := h.mem_catalogue
  size_eq := by
    rw [catalogued, size, h.indexed.length_eq, List.length_map, List.length_map]

section Removes

variable (h : q.Holds ds)
include h

theorem lookup_none_iff : q.catalogue.lookup g = none ↔ q.find? g = none := by
  rw [lookup_catalogue, Option.map_eq_none_iff, Option.eq_none_iff_forall_ne_some,
    Option.eq_none_iff_forall_ne_some]
  constructor
  · intro hi n hn
    obtain ⟨d, hd, hg, -⟩ := h.find?_eq_some_iff.mp hn
    exact hi d.slot (h.lookup.mpr ⟨d, hd, hg, rfl⟩)
  · intro hn i hi
    obtain ⟨d, hd, hg, -⟩ := h.lookup.mp hi
    exact hn d.admission (h.find?_eq_some_iff.mpr ⟨d, hd, hg, rfl⟩)

theorem lookup_ne_none (hf : q.find? g = some n) : q.catalogue.lookup g ≠ none := by
  intro hl
  rw [h.lookup_none_iff.mp hl] at hf
  cases hf

theorem lookup_some (hf : q.find? g = some n) : ∃ d us vs, ds = us ++ d :: vs ∧
    d.admission = n ∧ (q.entry n).id = g ∧ q.slot? g = some d.slot ∧
    q.catalogue.lookup g = some (d.slot, n) := by
  obtain ⟨d, hd, hg, rfl⟩ := h.find?_eq_some_iff.mp hf
  have hi : q.slot? g = some d.slot := h.lookup.mpr ⟨d, hd, hg, rfl⟩
  obtain ⟨us, vs, rfl⟩ := List.append_of_mem hd
  refine ⟨d, us, vs, rfl, rfl, hg, hi, ?_⟩
  rw [lookup_catalogue, hi, Option.map_some, h.admissionIn hd]

theorem removes_iff (hf : q.find? g = some n) :
    Removes g q.catalogued s ↔ s = (q.remove g).1.catalogued := by
  obtain ⟨d, us, vs, rfl, rfl, hg, hi, hl⟩ := h.lookup_some hf
  have hcut := h.catalogued_cut (P := (·.1 ≠ g)) (by simp [label, hg]) fun x hx => by
    simpa [label, ← hg] using ne_of_nodup_map h.unique hx
  have hremove : (q.remove g).1.catalogued =
      (q.catalogued.cut d.slot (·.1 ≠ g)).update d.admission Entry.abort := by
    rw [Valid.remove_eq hi hf, catalogued_update, hcut]
  rw [hremove]
  constructor
  · rintro ⟨hl', -⟩
    obtain ⟨rfl, rfl⟩ := Prod.mk.inj (Option.some.inj (hl.symm.trans hl'))
    rfl
  · rintro rfl
    exact .entry hl h.line.canUnlink

theorem not_removes (hf : q.find? g = none) : ¬ Removes g q.catalogued s := by
  rintro ⟨hl, -⟩
  exact absurd (hl.symm.trans (h.lookup_none_iff.mpr hf)) (by simp)

end Removes

section Adds

variable (h : q.Holds ds)
include h

theorem adds_iff :
    Adds e q.catalogued s ↔ s = (q.enqueue e).catalogued := by
  set n := q.entries.size with hn
  set i := (q.arena.alloc n).1 with hi
  have hold {d} (hd : d ∈ ds) : (q.enqueue e).entry d.admission = q.entry d.admission :=
    entry_enqueue_of_lt (h.known d hd)
  have hstock := Arena.Stock.alloc h.stock (n := n)
  have hline := Arena.Line.alloc h.stock h.line (n := n)
  have hnew : (q.arena.alloc n).2.content i = .entry n := (hstock.used i n).mpr (by simp [hi])
  have hs : Arena.Sorted (q.enqueue e).order ds := by
    refine h.sorted.imp_of_mem ?_
    intro c d hc hd hcd
    rwa [Before, order, order, hold hc, hold hd]
  have hinsert (a) := hline.inserts_iff (b := a) (c := ⟨i, n⟩) hnew hs
    fun d hd => Nat.ne_of_lt (h.known d hd)
  have hcontent (j) : (q.enqueue e).arena.content j = (q.arena.alloc n).2.content j := by
    rw [arena_enqueue]
    exact Arena.content_insertSorted
  have hcat : (q.enqueue e).catalogue = (e.id, i, n) :: q.catalogue := by
    rw [catalogue, index_enqueue, List.map_cons, Queue.admissionIn, hcontent, hnew]
    refine congrArg (List.cons _) (List.map_congr_left fun x hx => ?_)
    obtain ⟨d, hd, rfl⟩ := List.mem_map.mp (h.indexed.mem_iff.mp hx)
    have hd' : (q.enqueue e).admissionIn d.slot = d.admission := by
      rw [Queue.admissionIn, hcontent, hline.filled d hd]
    simp only [label, h.admissionIn hd, hd']
  have hadd : (q.enqueue e).catalogued =
      ⟨(q.enqueue e).relink ((q.arena.alloc n).2.insertSorted (q.enqueue e).order i),
        (e.id, i, n) :: q.catalogue⟩ := by
    rw [catalogued, hcat, ← arena_enqueue]
    rfl
  rw [hadd]
  constructor
  · rintro ⟨ha⟩
    rw [(hinsert _).mp ha]
    rfl
  · rintro rfl
    exact .entry ((hinsert _).mpr rfl)

end Adds

theorem moves_iff (h : q.Holds ds) {x : Arena × Bool} {order : Nat} (hf : q.find? g = some n)
    (hi : q.slot? g = some i) :
    q.arena.Moves (q.update n (·.receive v order now)).order i x ↔
      x = q.arena.reposition (q.update n (·.receive v order now)).order i := by
  obtain ⟨d, us, vs, rfl, rfl, -, hi', -⟩ := h.lookup_some hf
  obtain rfl := Option.some.inj (hi'.symm.trans hi)
  exact h.line.moves_iff (h.sorted_rest rfl) fun d hd => ne_of_nodup_map h.admission_nodup hd

theorem catalogue_place (h : q.Holds ds) {order : Nat} :
    (q.place i n v order now).catalogue = q.catalogue := by
  refine h.catalogue_congr index_place fun d hd => ?_
  rw [Queue.admissionIn, arena_place, Arena.content_reposition, h.line.filled d hd]

theorem detaches_iff (h : q.Holds ds) (hf : ds.length ≤ fuel) :
    Detaches q.catalogued s ↔ s = (q.dropCommitted fuel).1.catalogued := by
  induction ds generalizing q fuel with
  | nil =>
    have hi : q.catalogued.queue.arena.next Arena.head = Arena.tail := h.line.next_head
    have ht : q.catalogued.queue.arena.content Arena.tail = .tail := h.line.tailed
    have hd : q.dropCommitted fuel = (q, 0) := by
      cases fuel with
      | zero => rfl
      | succ fuel => rw [dropCommitted, dropHead?_nil h]
    rw [hd]
    refine detaches_stop hi (by simp [ht]) ?_
    rintro ⟨n, hn, -⟩
    exact absurd (ht.symm.trans hn) (by simp)
  | cons d ds ih =>
    obtain ⟨fuel, rfl⟩ := Nat.exists_eq_succ_of_ne_zero (by simp at hf; omega : fuel ≠ 0)
    have hi : q.catalogued.queue.arena.next Arena.head = d.slot := h.line.next_head
    have hc : q.catalogued.queue.arena.content d.slot = .entry d.admission :=
      h.line.filled d (by simp)
    cases hu : (q.entry d.admission).committed with
    | false =>
      rw [dropCommitted, dropHead?_uncommitted h hu]
      refine detaches_stop hi (by simp [hc]) ?_
      rintro ⟨n, hn, hm⟩
      obtain rfl := Content.entry.inj (hc.symm.trans hn)
      exact absurd (hu.symm.trans hm) (by simp)
    | true =>
      have hl : q.Holds ([] ++ d :: ds) := h
      have hcut : (q.cut d.slot (q.others d)).catalogued =
          q.catalogued.cut d.slot (q.others d) :=
        hl.catalogued_cut others_self fun _ hx => h.others_rest hx
      have hnext := ih h.beheaded (Nat.le_of_succ_le_succ hf)
      rw [hcut] at hnext
      rw [dropCommitted, dropHead?_committed h hu]
      exact (detaches_drop hi hc hu hl.line.canUnlink).trans hnext

end Holds

namespace Valid

variable {tx clock : Nat} (h : q.Valid)
include h

theorem evaluates_iff : Evaluates now q r ↔ r = q.grantReady now := by
  obtain ⟨ds, h⟩ := h
  exact h.evaluates_iff

theorem performs_prepare : Performs p q.catalogued (.prepare tx g v clock now) s ↔
    s = (q.call p (.prepare tx g v clock now)).1.catalogued := by
  obtain ⟨ds, hd⟩ := id h
  cases hf : q.find? g with
  | none =>
    have hcall : (q.call p (.prepare tx g v clock now)).1 =
        q.enqueue (tentative tx g v (p.seq v) clock now) := by
      simp only [Queue.call, Queue.prepare, remove_none hf, tentative]
    rw [hcall]
    constructor
    · intro hs
      cases hs with
      | prepare _ ha => exact hd.adds_iff.mp ha
      | replace ht => exact absurd ht (hd.not_removes hf)
    · intro hs
      exact .prepare (hd.lookup_none_iff.mpr hf) (hd.adds_iff.mpr hs)
  | some n =>
    obtain ⟨r, hr, hrem⟩ := h.remove_some hf
    have hcall : (q.call p (.prepare tx g v clock now)).1 =
        (r.enqueue (tentative tx g v (p.seq v) clock now)).grantReady now := by
      simp only [Queue.call, Queue.prepare, hr, tentative]
    have hremoves (t) := hd.removes_iff (s := t) hf
    rw [hr] at hremoves
    obtain ⟨us, hu⟩ := hrem.valid
    have he := (hrem.valid.enqueue (e := tentative tx g v (p.seq v) clock now)
      (h.free_of_removed hf hrem)).valid
    rw [hcall, catalogued_grantReady]
    constructor
    · intro hs
      cases hs with
      | prepare hl => exact absurd hl (hd.lookup_ne_none hf)
      | replace ht ha hg =>
        obtain rfl := (hremoves _).mp ht
        obtain rfl := hu.adds_iff.mp ha
        rw [he.evaluates_iff.mp hg]
        rfl
    · rintro rfl
      exact .replace ((hremoves _).mpr rfl) (hu.adds_iff.mpr rfl) (he.evaluates_iff.mpr rfl)

theorem performs_commit : Performs p q.catalogued (.commit g v now) s ↔
    s = (q.call p (.commit g v now)).1.catalogued := by
  obtain ⟨ds, hd⟩ := id h
  cases hf : q.find? g with
  | none =>
    have hcall : (q.call p (.commit g v now)).1 = q := by
      simp only [Queue.call, commit_none hf]
    rw [hcall]
    constructor
    · intro hs
      cases hs with
      | commit hl => exact absurd (hl.symm.trans (hd.lookup_none_iff.mpr hf)) (by simp)
      | commitUnknown => rfl
    · rintro rfl
      exact .commitUnknown (hd.lookup_none_iff.mpr hf)
  | some n =>
    obtain ⟨d, -, -, -, -, -, hi, hl⟩ := hd.lookup_some hf
    have hcall : (q.call p (.commit g v now)).1 =
        ((q.place d.slot n v (p.seq v) now).grantReady now).update n Entry.holdBack :=
      (commit_eq v (p.seq v) now hi hf).1
    have hp := (h.place v (p.seq v) now hi hf).valid
    have hmoves (x) : q.arena.Moves (q.update n (·.receive v (p.seq v) now)).order d.slot x ↔ _ :=
      hd.moves_iff hf hi
    rw [hcall, catalogued_update, catalogued_grantReady, hd.catalogue_place]
    constructor
    · intro hs
      cases hs with
      | commit hl' hm hg =>
        obtain ⟨rfl, rfl⟩ := Prod.mk.inj (Option.some.inj (hl.symm.trans hl'))
        rw [(hmoves _).mp hm] at hg
        rw [hp.evaluates_iff.mp hg]
        rfl
      | commitUnknown hl' => exact absurd hl' (hd.lookup_ne_none hf)
    · rintro rfl
      exact .commit hl ((hmoves _).mpr rfl) (hp.evaluates_iff.mpr rfl)

theorem performs_rollback : Performs p q.catalogued (.rollback g now) s ↔
    s = (q.call p (.rollback g now)).1.catalogued := by
  obtain ⟨ds, hd⟩ := id h
  cases hf : q.find? g with
  | none =>
    have hcall : (q.call p (.rollback g now)).1 = q := by
      simp only [Queue.call, rollback_none hf]
    rw [hcall]
    constructor
    · intro hs
      cases hs with
      | rollback ht => exact absurd ht (hd.not_removes hf)
      | rollbackUnknown => rfl
    · rintro rfl
      exact .rollbackUnknown (hd.lookup_none_iff.mpr hf)
  | some n =>
    obtain ⟨r, hr, hrem⟩ := h.remove_some hf
    have hcall : (q.call p (.rollback g now)).1 = r.grantReady now := by
      simp only [Queue.call, Queue.rollback, hr]
    have hremoves (t) := hd.removes_iff (s := t) hf
    rw [hr] at hremoves
    rw [hcall, catalogued_grantReady]
    constructor
    · intro hs
      cases hs with
      | rollback ht hg =>
        obtain rfl := (hremoves _).mp ht
        rw [hrem.valid.evaluates_iff.mp hg]
        rfl
      | rollbackUnknown hl => exact absurd hl (hd.lookup_ne_none hf)
    · rintro rfl
      exact .rollback ((hremoves _).mpr rfl) (hrem.valid.evaluates_iff.mpr rfl)

theorem performs_detach : Performs p q.catalogued (.detach now) s ↔
    s = (q.call p (.detach now)).1.catalogued := by
  obtain ⟨ds, hd⟩ := id h
  have hdet (t) := hd.detaches_iff (s := t) hd.line.length_eq.ge
  have hr : (q.dropCommitted q.arena.length).1.Valid :=
    ⟨_, (dropCommitted_spec hd hd.line.length_eq.ge).1⟩
  have hcall : (q.call p (.detach now)).1 =
      (q.dropCommitted q.arena.length).1.grantReady now := by
    simp only [Queue.call, Queue.detach]
  rw [hcall, catalogued_grantReady]
  constructor
  · intro hs
    cases hs with
    | detach ht hg =>
      obtain rfl := (hdet _).mp ht
      rw [hr.evaluates_iff.mp hg]
      rfl
  · rintro rfl
    exact .detach ((hdet _).mpr rfl) (hr.evaluates_iff.mpr rfl)

theorem performs_iff : Performs p q.catalogued c s ↔ s = (q.call p c).1.catalogued := by
  cases c with
  | prepare tx g v clock now => exact h.performs_prepare
  | commit g v now => exact h.performs_commit
  | rollback g now => exact h.performs_rollback
  | detach now => exact h.performs_detach
  | install p' => exact ⟨fun hs => by cases hs; rfl, fun hs => hs ▸ .install⟩
  | claim n => exact ⟨fun hs => by cases hs; rfl, fun hs => hs ▸ .claim⟩
  | markCommitted n now => exact ⟨fun hs => by cases hs; rfl, fun hs => hs ▸ .markCommitted⟩

theorem runs_iff {cs : List Call} :
    Runs p q.catalogued cs s ↔ s = (Call.run Queue.call p q cs).1.catalogued := by
  induction cs generalizing p q with
  | nil =>
    constructor
    · intro hs
      cases hs
      rfl
    · rintro rfl
      exact .nil
  | cons c cs ih =>
    refine Iff.trans ?_ (ih (p := c.position p) h.call)
    constructor
    · intro hs
      cases hs with
      | cons hc hs =>
        rw [h.performs_iff.mp hc] at hs
        exact hs
    · intro hs
      exact .cons (h.performs_iff.mpr rfl) hs

theorem walk_iff {ns : List Nat} (P : Entry → Bool) :
    (∃ j, q.Walk P (q.arena.next Arena.head) ns j) ↔
      ns = q.line.takeWhile fun n => P (q.entry n) := by
  obtain ⟨ds, h⟩ := h
  have hall : q.Holds ([] ++ ds) := h
  have hw := hall.walk P
  rw [h.line.next_head, h.line_eq, List.takeWhile_map]
  constructor
  · rintro ⟨j, hj⟩
    exact (hj.unique hw).1
  · rintro rfl
    exact ⟨_, hw⟩

end Valid

theorem arena_well_formed (p : Position) (tracking : Bool) (cs : List Call) :
    let q := (Call.run call p { tracking } cs).1
    (∀ s, Runs p ⟨{ tracking }, []⟩ cs s ↔ s = q.catalogued) ∧
    (∃ is, q.catalogued.WellFormed is) ∧
    (∀ ns, (∃ j, q.Walk (fun _ => true) (q.arena.next Arena.head) ns j) ↔ ns = q.arena.toList) ∧
    (∀ ns, (∃ j, q.Walk (·.ready) (q.arena.next Arena.head) ns j) ↔ ns = q.readyPrefix) ∧
    q.arena.slots.size = 2 + peak p { tracking } cs := by
  intro q
  have hv : Valid { tracking } := valid_empty
  have hq : q.Valid := hv.run
  obtain ⟨ds, hd⟩ := id hq
  refine ⟨fun s => hv.runs_iff, ⟨_, hd.wellFormed⟩, fun ns => ?_, fun ns => hq.walk_iff _, ?_⟩
  · rw [hq.walk_iff, List.takeWhile_eq_self_iff.mpr fun _ _ => rfl]
    rfl
  · have hs : q.arena.slots.size = max 2 (2 + peak p { tracking } cs) := hv.slots_run
    omega

example :
    let q := (Call.run call (.of 0 1 1) {}
      [.prepare 0 ⟨default, 1⟩ ⟨1, 0, [5]⟩ 0 0, .prepare 1 ⟨default, 2⟩ ⟨1, 0, [6]⟩ 0 0,
        .rollback ⟨default, 1⟩ 0, .prepare 2 ⟨default, 3⟩ ⟨1, 0, [7]⟩ 0 0]).1
    q.arena.slots.size = 4 ∧ q.index = [(⟨default, 3⟩, 2), (⟨default, 2⟩, 3)] := by
  decide +kernel

end Multiversion.Queue
