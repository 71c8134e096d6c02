import Mathlib
import Multiversion.Proofs.Queue.Run

/-!
The queue without slots, links and index: the entries ever admitted, and the list of those that are
queued. The list is strictly sorted by order value and admission; each call of the queue comes down
to an insertion, a deletion or a sort of it.
-/

namespace Multiversion

def NotAfter (order : Nat → Nat) (m n : Nat) : Prop :=
  order m < order n ∨ order m = order n ∧ m ≤ n

namespace NotAfter

variable {order : Nat → Nat} {m n : Nat}

instance : DecidableRel (NotAfter order) := fun _ _ => inferInstanceAs (Decidable (_ ∨ _))

instance : Std.Total (NotAfter order) := ⟨fun m n => by unfold NotAfter; omega⟩

instance : IsTrans Nat (NotAfter order) := ⟨fun m n k => by unfold NotAfter; omega⟩

theorem before (h : NotAfter order m n) (hne : m ≠ n) : Before order m n := by
  unfold NotAfter at h
  unfold Before
  omega

end NotAfter

namespace Before

variable {order : Nat → Nat} {m n : Nat} {ls : List Nat}

theorem notAfter (h : Before order m n) : NotAfter order m n := by
  unfold Before at h
  unfold NotAfter
  omega

instance : Std.Irrefl (Before order) := ⟨fun n => by unfold Before; omega⟩

instance : Std.Antisymm (Before order) := ⟨fun m n => by unfold Before; omega⟩

theorem pairwise_of_notAfter (h : ls.Pairwise (NotAfter order)) (hd : ls.Nodup) :
    ls.Pairwise (Before order) :=
  (List.pairwise_and_iff.mpr ⟨h, hd⟩).imp fun hmn => hmn.1.before hmn.2

end Before

structure Roster where
  entries : Array Entry := #[]
  line : List Nat := []
  tracking : Bool := false
  deriving DecidableEq, Repr

namespace Roster

def entry (r : Roster) (n : Nat) : Entry := r.entries.getD n default

def order (r : Roster) (n : Nat) : Nat := (r.entry n).order

def queued (r : Roster) : List Entry := r.line.map r.entry

def find? (r : Roster) (g : TransactionId) : Option Nat := r.line.find? fun n => (r.entry n).id = g

def readyPrefix (r : Roster) : List Nat := r.line.takeWhile fun n => (r.entry n).ready

def update (r : Roster) (n : Nat) (f : Entry → Entry) : Roster :=
  { r with entries := r.entries.modify n f }

def grantAll (r : Roster) (now : Time) (gs : List Readiness.Grant) : Roster :=
  gs.foldl (fun r g => r.update g.admission (·.markReady g.sub now)) r

def grantReady (r : Roster) (now : Time) : Roster := r.grantAll now (Readiness.grants r.queued)

def remove (r : Roster) (g : TransactionId) : Roster × Option Nat :=
  match r.find? g with
  | some n => ({ r with line := r.line.erase n }.update n Entry.abort, some n)
  | none => (r, none)

def enqueue (r : Roster) (e : Entry) : Roster :=
  let n := r.entries.size
  let r := { r with entries := r.entries.push { e with admission := n, tracked := r.tracking } }
  { r with line := r.line.orderedInsert (NotAfter r.order) n }

def prepare (r : Roster) (tx : Nat) (g : TransactionId) (v : Version) (order clock : Nat)
    (now : Time) : Roster × List Notice :=
  let fresh := Queue.tentative tx g v order clock now
  match r.remove g with
  | (r, none) => (r.enqueue fresh, [])
  | (r, some n) => ((r.enqueue fresh).grantReady now, Queue.duplicate (r.entry n))

/-- The log hears of the sort only if it changes the list. -/
def commit (r : Roster) (g : TransactionId) (v : Version) (order : Nat) (now : Time) :
    Roster × Option Nat × List Notice :=
  match r.find? g with
  | some n =>
    let r := r.update n (·.receive v order now)
    let sorted := r.line.insertionSort (NotAfter r.order)
    let notices :=
      if sorted = r.line then []
      else
        [.logged (Event.entryRepositioned.trace [("gtx", g.text), ("seq", toString order)])]
    (({ r with line := sorted }.grantReady now).update n Entry.holdBack, some n, notices)
  | none => (r, none, [])

def rollback (r : Roster) (g : TransactionId) (now : Time) : Roster × Option Nat :=
  match r.remove g with
  | (r, some n) => (r.grantReady now, some n)
  | (r, none) => (r, none)

def claim (r : Roster) (n : Nat) : Roster × Bool :=
  (r.update n fun e => e.claim.2, (r.entry n).claim.1)

def markCommitted (r : Roster) (n : Nat) (now : Time) : Roster :=
  r.update n (·.markCommitted now)

def detach (r : Roster) (now : Time) : Roster × Nat :=
  let line := r.line.dropWhile fun n => (r.entry n).committed
  ({ r with line }.grantReady now, (r.line.takeWhile fun n => (r.entry n).committed).length)

def call (p : Position) (r : Roster) : Queue.Call → Roster × Queue.Answer
  | .install _ => (r, .done)
  | .prepare tx g v clock now =>
    let (r, notices) := r.prepare tx g v (p.seq v) clock now
    (r, .prepared notices)
  | .commit g v now =>
    let (r, n, notices) := r.commit g v (p.seq v) now
    (r, .settled n notices)
  | .rollback g now =>
    let (r, n) := r.rollback g now
    (r, .removed n)
  | .claim n =>
    let (r, free) := r.claim n
    (r, .claimed free)
  | .markCommitted n now => (r.markCommitted n now, .done)
  | .detach now =>
    let (r, k) := r.detach now
    (r, .detached k)

end Roster

namespace Arena.Line

variable {a : Arena} {order : Nat → Nat} {c : Cell} {l r : List Cell} {i : Nat}

theorem reposition_stays (h : (a.reposition order i).2 = false) : (a.reposition order i).1 = a := by
  simp only [Arena.reposition] at h ⊢
  split at h
  next => cases h
  next hlt =>
    split at h
    next => cases h
    next hgt => rw [if_neg hlt, if_neg hgt]

theorem reposition_moved (h : a.Line (l ++ c :: r)) (ho : Sorted order (l ++ r))
    (hn : ∀ d ∈ l ++ r, d.admission ≠ c.admission) :
    (a.reposition order c.slot).2 = true ↔ ¬ Sorted order (l ++ c :: r) := by
  constructor
  · intro hm hs
    obtain ⟨-, hc, hl⟩ := List.pairwise_append.mp hs
    have hr := (List.pairwise_cons.mp hc).1
    simp only [Arena.reposition, h.next_cell, h.prev_cell] at hm
    split at hm
    next hlt =>
      cases r with
      | nil =>
        rw [h.key_firstSlot_nil] at hlt
        exact not_highest_lt hlt
      | cons d r => exact ((h.key_lt_key (by simp) (by simp)).mp hlt).asymm (hr d (by simp))
    next =>
      split at hm
      next hgt =>
        rcases List.eq_nil_or_concat l with rfl | ⟨l, d, rfl⟩
        · rw [h.key_lastSlot_nil] at hgt
          exact not_lt_lowest hgt
        · have hd : lastSlot (l.concat d) = d.slot := by simp [lastSlot]
          rw [hd] at hgt
          exact ((h.key_lt_key (by simp) (by simp)).mp hgt).asymm (hl d (by simp) c (by simp))
      next => cases hm
  · intro hs
    by_contra hm
    obtain ⟨ds, hd, -, hds⟩ := h.reposition ho hn
    rw [reposition_stays (by simpa using hm)] at hd
    have he : ds.map Cell.admission = (l ++ c :: r).map Cell.admission :=
      hd.toList.symm.trans h.toList
    have hpair := List.pairwise_map.mpr hds
    rw [he] at hpair
    exact hs (List.pairwise_map.mp hpair)

end Arena.Line

namespace Queue

variable {q r : Queue} {g : TransactionId} {v : Version} {e : Entry} {i m n tx order clock : Nat}
  {ns : List Nat} {gs : List Readiness.Grant} {now : Time} {p : Position} {c : Call}

def roster (q : Queue) : Roster := ⟨q.entries, q.line, q.tracking⟩

theorem roster_eq {s : Roster} (he : q.entries = s.entries) (hl : q.line = s.line)
    (ht : q.tracking = s.tracking) : q.roster = s := by
  cases s
  simp_all [roster]

@[simp] theorem entry_roster : q.roster.entry n = q.entry n := rfl

@[simp] theorem line_roster : q.roster.line = q.line := rfl

theorem Valid.line_notAfter (h : q.Valid) (ho : ∀ n ∈ q.line, r.order n = q.order n) :
    q.line.Pairwise (NotAfter r.order) := by
  refine h.sorted.imp_of_mem ?_
  intro m n hm hn hmn
  unfold NotAfter
  rw [ho m hm, ho n hn]
  exact hmn.notAfter

theorem Valid.line_eq_of_mem (h : q.Valid) (hs : ns.Pairwise (NotAfter q.order)) (hd : ns.Nodup)
    (hm : ∀ n, n ∈ q.line ↔ n ∈ ns) : q.line = ns :=
  List.Pairwise.eq_of_mem_iff h.sorted (Before.pairwise_of_notAfter hs hd) hm

theorem roster_update {f : Entry → Entry} : (q.update n f).roster = q.roster.update n f := rfl

theorem roster_grantAll : (q.grantAll now gs).roster = q.roster.grantAll now gs := by
  induction gs generalizing q with
  | nil => rfl
  | cons g gs ih => exact ih

theorem roster_grantReady : (q.grantReady now).roster = q.roster.grantReady now := roster_grantAll

theorem Valid.find?_roster (h : q.Valid) : q.roster.find? g = q.find? g := by
  cases hf : q.find? g with
  | none =>
    exact List.find?_eq_none.mpr fun n hn hg =>
      h.find?_eq_none_iff.mp hf n hn (of_decide_eq_true hg)
  | some n =>
    obtain ⟨hn, hg⟩ := h.find?_eq_some_iff.mp hf
    cases hr : q.roster.find? g with
    | none => exact absurd (decide_eq_true hg) (List.find?_eq_none.mp hr n hn)
    | some m =>
      have hm : m ∈ q.line := List.mem_of_find?_eq_some hr
      have hmg := List.find?_some hr
      rw [entry_roster, decide_eq_true_iff] at hmg
      rw [h.id_inj hm hn (hmg.trans hg.symm)]

theorem tracking_cut {P : TransactionId × Nat → Bool} : (q.cut i P).tracking = q.tracking := by
  simp only [cut, dropSlot]

theorem tracking_update {f : Entry → Entry} : (q.update n f).tracking = q.tracking := rfl

theorem Valid.roster_remove (h : q.Valid) :
    q.roster.remove g = ((q.remove g).1.roster, (q.remove g).2) := by
  rw [Roster.remove, h.find?_roster]
  cases hf : q.find? g with
  | none => rw [remove_none hf]
  | some n =>
    obtain ⟨i, hi⟩ := slot?_of_find? hf
    obtain ⟨r, hr, hrem⟩ := h.remove_some hf
    rw [remove_eq hi hf] at hr ⊢
    obtain rfl := (Prod.mk.inj hr).1
    refine Prod.ext (roster_eq ?_ ?_ ?_).symm rfl
    · rw [Queue.update, entries_cut]
      rfl
    · change _ = q.line.erase n
      refine hrem.valid.line_eq_of_mem ?_ (h.nodup.erase n) fun m => ?_
      · refine (h.line_notAfter fun m hm => ?_).sublist List.erase_sublist
        rw [Queue.order, update_keeps Entry.order (f := Entry.abort) fun _ => rfl, entry_cut,
          Queue.order]
      · rw [hrem.line, h.nodup.mem_erase_iff, and_comm]
    · rw [tracking_update, tracking_cut]
      rfl

theorem Valid.roster_enqueue (h : q.Valid) (hg : ∀ n ∈ q.line, (q.entry n).id ≠ e.id) :
    (q.enqueue e).roster = q.roster.enqueue e := by
  have he := h.enqueue hg
  have hnew : q.entries.size ∉ q.line := fun hm => Nat.lt_irrefl _ (h.known hm)
  have hentries : (q.enqueue e).entries = (q.roster.enqueue e).entries := entries_enqueue
  have hperm := List.perm_orderedInsert (NotAfter (q.enqueue e).order) q.entries.size q.line
  have hline : (q.roster.enqueue e).line =
      q.line.orderedInsert (NotAfter (q.enqueue e).order) q.entries.size := by
    have ho : (q.enqueue e).order = Roster.order
        { q.roster with entries := (q.roster.enqueue e).entries } := by
      funext n
      rw [Queue.order, Queue.entry, hentries]
      rfl
    rw [ho]
    rfl
  refine roster_eq hentries ?_ ?_
  · rw [hline]
    refine he.valid.line_eq_of_mem (List.Pairwise.orderedInsert _ _ ?_) ?_ fun m => ?_
    · refine h.line_notAfter fun m hm => ?_
      rw [Queue.order, he.kept m (h.known hm), Queue.order]
    · exact hperm.nodup_iff.mpr (List.nodup_cons.mpr ⟨hnew, h.nodup⟩)
    · rw [he.line, hperm.mem_iff, List.mem_cons]
  · rfl

theorem Valid.roster_prepare (h : q.Valid) : q.roster.prepare tx g v order clock now =
    ((q.prepare tx g v order clock now).1.roster, (q.prepare tx g v order clock now).2) := by
  rw [Roster.prepare, h.roster_remove]
  cases hf : q.find? g with
  | none =>
    rw [Queue.prepare, remove_none hf]
    exact Prod.ext (h.roster_enqueue (h.find?_eq_none_iff.mp hf)).symm rfl
  | some n =>
    obtain ⟨r, hr, hrem⟩ := h.remove_some hf
    have he := hrem.valid.roster_enqueue (e := tentative tx g v order clock now)
      (h.free_of_removed hf hrem)
    have hg := (congrArg (·.grantReady now) he.symm).trans roster_grantReady.symm
    simp only [Queue.prepare, hr]
    exact congrArg (·, _) hg

section Tail

variable (h : q.Valid)
include h

theorem Enqueued.line_append (hr : q.Enqueued e r) (ho : ∀ m ∈ q.line, q.order m < e.order) :
    r.line = q.line ++ [q.entries.size] := by
  have old {m} (hm : m ∈ q.line) : r.order m = q.order m := by
    rw [Queue.order, hr.kept m (h.known hm), Queue.order]
  have new : r.order q.entries.size = e.order := by rw [Queue.order, hr.fresh]
  refine hr.valid.line_eq_of_mem ?_ ?_ fun m => ?_
  · refine List.pairwise_append.mpr
      ⟨h.line_notAfter fun m hm => old hm, List.pairwise_singleton .., fun m hm k hk => ?_⟩
    obtain rfl := List.mem_singleton.mp hk
    left
    rw [old hm, new]
    exact ho m hm
  · refine List.nodup_append.mpr ⟨h.nodup, List.nodup_singleton _, fun m hm k hk => ?_⟩
    rw [List.mem_singleton.mp hk]
    exact (h.known hm).ne
  · rw [hr.line, List.mem_append, List.mem_singleton, or_comm]

theorem Removed.line_filter (hr : q.Removed n r) (hf : q.find? g = some n) :
    r.line = q.line.filter fun m => (q.entry m).id ≠ g := by
  obtain ⟨hn, hg⟩ := h.find?_eq_some_iff.mp hf
  refine hr.valid.line_eq_of_mem ?_ (h.nodup.filter _) fun m => ?_
  · exact (h.line_notAfter fun m _ => hr.keeps Entry.order fun _ => rfl).filter _
  · rw [hr.line, List.mem_filter, decide_eq_true_iff]
    refine and_congr_right fun hm => not_congr ⟨fun e => e ▸ hg, fun e => ?_⟩
    exact h.id_inj hm hn (e.trans hg.symm)

theorem Valid.prepare_tail (ho : ∀ m ∈ q.line, q.order m < order) :
    (q.prepare tx g v order clock now).1.line =
      (q.line.filter fun m => (q.entry m).id ≠ g) ++ [q.entries.size] := by
  cases hf : q.find? g with
  | none =>
    have hg := h.find?_eq_none_iff.mp hf
    rw [(h.prepare_none tx v order clock now hf).line_append h ho,
      List.filter_eq_self.mpr fun m hm => decide_eq_true (hg m hm)]
  | some n =>
    obtain ⟨r, s, hr, hs, e⟩ := h.prepare_some tx v order clock now hf
    rw [e, line_grantReady, hs.line_append hr.valid, hr.line_filter h hf, hr.size]
    intro m hm
    obtain ⟨hm, hmn⟩ := (hr.line m).mp hm
    rw [Queue.order, hr.kept m hmn]
    exact ho m hm

theorem Valid.prepare_fresh :
    ((q.prepare tx g v order clock now).1.entry q.entries.size).version = v ∧
      (q.prepare tx g v order clock now).1.order q.entries.size = order := by
  cases hf : q.find? g with
  | none =>
    rw [Queue.order, (h.prepare_none tx v order clock now hf).fresh]
    exact ⟨rfl, rfl⟩
  | some n =>
    obtain ⟨r, s, hr, hs, e⟩ := h.prepare_some tx v order clock now hf
    rw [e, order_grantReady, grantReady_keeps Entry.version fun _ _ => Entry.version_markReady,
      Queue.order, ← hr.size, hs.fresh]
    exact ⟨rfl, rfl⟩

end Tail

theorem Valid.roster_rollback (h : q.Valid) :
    q.roster.rollback g now = ((q.rollback g now).1.roster, (q.rollback g now).2) := by
  rw [Roster.rollback, h.roster_remove]
  cases hf : q.find? g with
  | none => rw [Queue.rollback, remove_none hf]
  | some n =>
    obtain ⟨r, hr, -⟩ := h.remove_some hf
    rw [Queue.rollback, hr]
    exact Prod.ext roster_grantReady.symm rfl

theorem Valid.reposition_moved (h : q.Valid) (v : Version) (order : Nat) (now : Time)
    (hi : q.slot? g = some i) (hf : q.find? g = some n) :
    (q.arena.reposition (q.place i n v order now).order i).2 = true ↔
      ¬ q.line.Pairwise (NotAfter (q.place i n v order now).order) := by
  have hd := h.nodup
  obtain ⟨cs, h⟩ := h
  obtain ⟨c, hc, hg, rfl⟩ := h.find?_eq_some_iff.mp hf
  obtain rfl : c.slot = i := Option.some.inj ((h.lookup.mpr ⟨c, hc, hg, rfl⟩).symm.trans hi)
  obtain ⟨us, vs, rfl⟩ := List.append_of_mem hc
  rw [h.line.reposition_moved (h.sorted_rest entries_place)
    fun d hd => ne_of_nodup_map h.admission_nodup hd]
  have hs : Arena.Sorted (q.place c.slot c.admission v order now).order (us ++ c :: vs) ↔
      q.line.Pairwise (Before (q.place c.slot c.admission v order now).order) := by
    rw [h.line_eq, List.pairwise_map]
    rfl
  rw [hs, not_iff_not]
  constructor
  · exact List.Pairwise.imp Before.notAfter
  · intro ho
    exact Before.pairwise_of_notAfter ho hd

theorem commit_notices (hi : q.slot? g = some i) (hf : q.find? g = some n) :
    (q.commit g v order now).2.2 =
      if (q.arena.reposition (q.place i n v order now).order i).2 then
        [.logged (Event.entryRepositioned.trace [("gtx", g.text), ("seq", toString order)])]
      else [] := by
  rw [commit, hi, hf, order_of_entries entries_place]
  rfl

theorem Valid.roster_place (h : q.Valid) (hr : q.Received n v order now (q.place i n v order now)) :
    (q.place i n v order now).roster = { q.roster.update n (·.receive v order now) with
      line := q.line.insertionSort (NotAfter (q.place i n v order now).order) } := by
  have hp := List.perm_insertionSort (NotAfter (q.place i n v order now).order) q.line
  refine roster_eq entries_place ?_ rfl
  refine hr.valid.line_eq_of_mem (List.pairwise_insertionSort _ _) (hp.nodup_iff.mpr h.nodup) ?_
  intro m
  rw [hr.line, hp.mem_iff]

theorem Valid.roster_commit (h : q.Valid) : q.roster.commit g v order now =
    ((q.commit g v order now).1.roster, (q.commit g v order now).2) := by
  rw [Roster.commit, h.find?_roster]
  cases hf : q.find? g with
  | none => rw [commit_none hf]
  | some n =>
    obtain ⟨i, hi⟩ := slot?_of_find? hf
    obtain ⟨h1, h2⟩ := commit_eq v order now hi hf
    have hp := h.roster_place (h.place v order now hi hf)
    have hm := h.reposition_moved v order now hi hf
    have ho : (q.place i n v order now).order =
        (q.roster.update n (·.receive v order now)).order := order_of_entries entries_place
    rw [ho] at hp hm
    have hc := congrArg roster h1
    rw [roster_update, roster_grantReady, hp] at hc
    refine Prod.ext hc.symm (Prod.ext h2.symm ?_)
    rw [commit_notices hi hf, ho]
    by_cases hs : q.line.Pairwise (NotAfter (q.roster.update n (·.receive v order now)).order)
    · rw [if_neg (mt hm.mp (not_not_intro hs))]
      exact if_pos hs.insertionSort_eq
    · rw [if_pos (hm.mpr hs)]
      have hne : q.line.insertionSort
          (NotAfter (q.roster.update n (·.receive v order now)).order) ≠ q.line :=
        fun e => hs (e ▸ List.pairwise_insertionSort _ q.line)
      exact if_neg hne

theorem tracking_dropHead? (h : q.dropHead? = some r) : r.tracking = q.tracking := by
  simp only [dropHead?] at h
  split at h
  · split at h
    · rw [← Option.some.inj h]
      simp only [dropSlot]
    · cases h
  · cases h

theorem tracking_dropCommitted {fuel : Nat} :
    (q.dropCommitted fuel).1.tracking = q.tracking := by
  induction fuel generalizing q with
  | zero => rfl
  | succ fuel ih =>
    unfold dropCommitted
    cases hd : q.dropHead? with
    | none => rfl
    | some r => exact ih.trans (tracking_dropHead? hd)

theorem tracking_grantAll : (q.grantAll now gs).tracking = q.tracking := by
  induction gs generalizing q with
  | nil => rfl
  | cons g gs ih => exact ih

theorem tracking_detach : (q.detach now).1.tracking = q.tracking :=
  tracking_grantAll.trans tracking_dropCommitted

theorem entries_eq (hz : q.entries.size = r.entries.size) (he : ∀ m, q.entry m = r.entry m) :
    q.entries = r.entries := by
  refine Array.ext hz fun m hm hm' => ?_
  simpa [entry, Array.getD_eq_getD_getElem?, hm, hm'] using he m

theorem Valid.roster_detach (h : q.Valid) :
    q.roster.detach now = ((q.detach now).1.roster, (q.detach now).2) := by
  obtain ⟨r, hr, e⟩ := h.detach now
  have ht : r.tracking = q.tracking := by
    rw [← tracking_detach (q := q), e]
    exact tracking_grantAll.symm
  have hs : r.roster = { q.roster with
      line := q.line.dropWhile fun n => (q.entry n).committed } :=
    roster_eq (entries_eq hr.size hr.kept) hr.line ht
  rw [e]
  exact Prod.ext ((congrArg (·.grantReady now) hs.symm).trans roster_grantReady.symm) rfl

theorem Valid.roster_call (h : q.Valid) :
    q.roster.call p c = ((q.call p c).1.roster, (q.call p c).2) := by
  cases c with
  | install p => rfl
  | prepare tx g v clock now => simp only [Roster.call, Queue.call, h.roster_prepare]
  | commit g v now => simp only [Roster.call, Queue.call, h.roster_commit]
  | rollback g now => simp only [Roster.call, Queue.call, h.roster_rollback]
  | claim n => rfl
  | markCommitted n now => rfl
  | detach now => simp only [Roster.call, Queue.call, h.roster_detach]

end Queue

end Multiversion
