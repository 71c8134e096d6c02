import Mathlib
import Multiversion.Proofs.Queue.Refinement

namespace Multiversion

theorem iterate_eq_of_isChain {α : Type} {f : α → α} {x : α} {xs : List α}
    (h : (x :: xs).IsChain fun x y => f x = y) : List.iterate f x (xs.length + 1) = x :: xs := by
  refine List.ext_getElem (List.length_iterate f x _) fun i _ hi => ?_
  rw [List.getElem_iterate]
  exact h.iterate_eq_of_apply_eq i hi

namespace Arena

variable {a : Arena} {order : Nat → Nat} {i j k n : Nat} {cs : List Cell}

/-- The links from one sentinel to the other, both ways, lead through the slots in `is`. -/
structure Linked (a : Arena) (is : List Nat) : Prop where
  forward : List.iterate a.next head (is.length + 2) = head :: is ++ [tail]
  backward : List.iterate a.prev tail (is.length + 2) = (head :: is ++ [tail]).reverse
  distinct : is.Nodup
  headed : a.content head = .head
  tailed : a.content tail = .tail
  filled : ∀ i ∈ is, ∃ n, a.content i = .entry n
  length_eq : a.length = is.length

theorem Line.linked (h : a.Line cs) : a.Linked (cs.map Cell.slot) where
  forward := by
    have hj := iterate_eq_of_isChain (h.joined.imp fun _ _ hij => hij.1)
    simpa [track] using hj
  backward := by
    have hr : (track cs).reverse = tail :: (head :: cs.map Cell.slot).reverse := by simp [track]
    have hj : (tail :: (head :: cs.map Cell.slot).reverse).IsChain fun i j => a.prev i = j := by
      rw [← hr, List.isChain_reverse]
      exact h.joined.imp fun _ _ hij => hij.2
    simpa using iterate_eq_of_isChain hj
  distinct := by
    have hd := h.nodup
    simp only [track, List.cons_append, List.nodup_cons, List.nodup_append] at hd
    exact hd.2.1
  headed := h.headed
  tailed := h.tailed
  filled i hi := by
    obtain ⟨c, hc, rfl⟩ := List.mem_map.mp hi
    exact ⟨_, h.filled c hc⟩
  length_eq := by rw [h.length_eq, List.length_map]

section Shares

variable (h : a.Line cs) (hs : a.Stock cs)
include h hs

theorem mem_free_iff (hi : i < a.slots.size) (hh : i ≠ head) (ht : i ≠ tail) :
    i ∈ a.free ↔ i ∉ cs.map Cell.slot := by
  rw [hs.free_iff]
  constructor
  · rintro ⟨-, hv⟩ hm
    obtain ⟨c, hc, rfl⟩ := List.mem_map.mp hm
    rw [h.filled c hc] at hv
    cases hv
  · intro hm
    refine ⟨hi, ?_⟩
    cases hc : a.content i with
    | head => exact absurd ((hs.head_iff i).mp hc) hh
    | tail => exact absurd ((hs.tail_iff i).mp hc) ht
    | entry n => exact absurd (List.mem_map_of_mem (f := Cell.slot) ((hs.used i n).mp hc)) hm
    | vacant => rfl

theorem track_free_perm : (track cs ++ a.free).Perm (List.range a.slots.size) := by
  have hd : (track cs ++ a.free).Nodup := by
    refine List.nodup_append.mpr ⟨h.nodup, hs.free_nodup, fun i hi j hj e => ?_⟩
    exact h.content_ne_vacant hi ((hs.free_iff i).mp (e ▸ hj)).2
  refine (List.perm_ext_iff_of_nodup hd List.nodup_range).mpr fun i => ?_
  rw [List.mem_append, List.mem_range]
  refine ⟨fun hi => hi.elim (h.inside i) fun hf => ((hs.free_iff i).mp hf).1, fun hi => ?_⟩
  by_cases hm : i ∈ track cs
  · exact .inl hm
  · simp only [track, List.cons_append, List.mem_cons, List.mem_append, List.not_mem_nil, or_false,
      not_or] at hm
    exact .inr ((mem_free_iff h hs hi hm.1 hm.2.2).mpr hm.2.1)

theorem size_eq : a.slots.size = 2 + cs.length + a.free.length := by
  have hl := (track_free_perm h hs).length_eq
  simp only [track, List.length_append, List.length_cons, List.length_map, List.length_nil,
    List.length_range] at hl
  omega

end Shares

@[simp] theorem size_release : (a.release i).slots.size = a.slots.size := by simp [release]

theorem size_insertSorted : (a.insertSorted order i).slots.size = a.slots.size := size_linkBefore

theorem size_reposition : (a.reposition order i).1.slots.size = a.slots.size := by
  simp only [reposition]
  split
  · simp [linkOn]
  · split <;> simp [linkBack]

theorem content_insertSorted : (a.insertSorted order i).content k = a.content k :=
  content_linkBefore

theorem content_reposition : (a.reposition order i).1.content k = a.content k := by
  simp only [reposition]
  split
  · simp [linkOn]
  · split <;> simp [linkBack]

theorem size_alloc :
    (a.alloc n).2.slots.size = if a.free = [] then a.slots.size + 1 else a.slots.size := by
  unfold alloc
  cases a.free <;> simp

end Arena

namespace Queue

variable {p : Position} {q : Queue} {e : Entry} {g : TransactionId} {v : Version} {c : Call}
  {cs : List Call} {gs : List Readiness.Grant} {i n fuel order : Nat} {now : Time}

/-- The largest number of entries queued at one time. -/
def peak (p : Position) (q : Queue) : List Call → Nat
  | [] => q.size
  | c :: cs => max q.size (peak (c.position p) (q.call p c).1 cs)

theorem size_le_peak : q.size ≤ q.peak p cs := by
  cases cs with
  | nil => exact Nat.le_refl _
  | cons c cs => exact Nat.le_max_left ..

theorem arena_update {f : Entry → Entry} : (q.update n f).arena = q.arena := rfl

theorem arena_grantAll : (q.grantAll now gs).arena = q.arena := by
  induction gs generalizing q with
  | nil => rfl
  | cons g gs ih => exact ih

theorem index_grantAll : (q.grantAll now gs).index = q.index := by
  induction gs generalizing q with
  | nil => rfl
  | cons g gs ih => exact ih

theorem arena_grantReady : (q.grantReady now).arena = q.arena := arena_grantAll

theorem size_queue_grantReady : (q.grantReady now).size = q.size :=
  congrArg List.length index_grantAll

section Slots

theorem slots_cut {P : TransactionId × Nat → Bool} :
    (q.cut i P).arena.slots.size = q.arena.slots.size := by
  simp [arena_cut]

theorem slots_remove : (q.remove g).1.arena.slots.size = q.arena.slots.size := by
  cases hf : q.find? g with
  | none => rw [Valid.remove_none hf]
  | some n =>
    obtain ⟨i, hi⟩ := slot?_of_find? hf
    rw [Valid.remove_eq hi hf, arena_update, slots_cut]

theorem slots_rollback : (q.rollback g now).1.arena.slots.size = q.arena.slots.size := by
  have hr := slots_remove (q := q) (g := g)
  rw [rollback]
  cases hq : q.remove g with
  | mk r n =>
    rw [hq] at hr
    cases n with
    | none => exact hr
    | some n => rw [arena_grantReady, hr]

theorem slots_commit : (q.commit g v order now).1.arena.slots.size = q.arena.slots.size := by
  cases hf : q.find? g with
  | none => rw [Valid.commit_none hf]
  | some n =>
    obtain ⟨i, hi⟩ := slot?_of_find? hf
    rw [(commit_eq v order now hi hf).1, arena_update, arena_grantReady, arena_place,
      Arena.size_reposition]

theorem slots_dropHead? {r : Queue} (h : q.dropHead? = some r) :
    r.arena.slots.size = q.arena.slots.size := by
  simp only [dropHead?] at h
  split at h
  · split at h
    · rw [← Option.some.inj h]
      simp [dropSlot]
    · cases h
  · cases h

theorem slots_dropCommitted :
    (q.dropCommitted fuel).1.arena.slots.size = q.arena.slots.size := by
  induction fuel generalizing q with
  | zero => rfl
  | succ fuel ih =>
    unfold dropCommitted
    cases hd : q.dropHead? with
    | none => rfl
    | some r => exact ih.trans (slots_dropHead? hd)

theorem slots_detach : (q.detach now).1.arena.slots.size = q.arena.slots.size := by
  rw [detach]
  exact (congrArg (·.slots.size) arena_grantReady).trans slots_dropCommitted

end Slots

@[elab_as_elim]
theorem prepare_cases_eq {tx clock : Nat} {motive : Queue → Prop}
    (fresh : motive ((q.remove g).1.enqueue (tentative tx g v order clock now)))
    (again : motive (((q.remove g).1.enqueue (tentative tx g v order clock now)).grantReady now)) :
    motive (q.prepare tx g v order clock now).1 := by
  cases hq : q.remove g with
  | mk r n =>
    rw [hq] at fresh again
    cases n with
    | none => simpa only [prepare, hq, tentative] using fresh
    | some n => simpa only [prepare, hq, tentative] using again

namespace Valid

theorem slots_eq (h : q.Valid) : q.arena.slots.size = 2 + q.size + q.arena.free.length := by
  rw [h.size_eq]
  obtain ⟨cs, h⟩ := h
  rw [h.line_eq, List.length_map]
  exact Arena.size_eq h.line h.stock

theorem slots_enqueue (h : q.Valid) (hr : (q.enqueue e).Valid) :
    (q.enqueue e).arena.slots.size = max q.arena.slots.size (2 + (q.enqueue e).size) := by
  have hsize : (q.enqueue e).size = q.size + 1 := by rw [size, size, index_enqueue]; rfl
  have hslots : (q.enqueue e).arena.slots.size =
      if q.arena.free = [] then q.arena.slots.size + 1 else q.arena.slots.size := by
    rw [arena_enqueue, Arena.size_insertSorted, Arena.size_alloc]
  have heq := h.slots_eq
  have hle := hr.slots_eq
  split at hslots
  next hf =>
    rw [hf, List.length_nil] at heq
    omega
  next => omega

theorem slots_prepare {tx clock : Nat} (h : q.Valid) :
    (q.prepare tx g v order clock now).1.arena.slots.size =
      max q.arena.slots.size (2 + (q.prepare tx g v order clock now).1.size) := by
  obtain ⟨hr, hg⟩ := h.remove (g := g)
  have he := hr.slots_enqueue (hr.enqueue (e := tentative tx g v order clock now) hg).valid
  rw [slots_remove] at he
  refine prepare_cases_eq he ?_
  rw [arena_grantReady, size_queue_grantReady, he]

theorem slots_kept {r : Queue} (hr : r.Valid) (hs : r.arena.slots.size = q.arena.slots.size) :
    r.arena.slots.size = max q.arena.slots.size (2 + r.size) := by
  have := hr.slots_eq
  omega

theorem slots_call (h : q.Valid) : (Queue.call p q c).1.arena.slots.size =
    max q.arena.slots.size (2 + (Queue.call p q c).1.size) := by
  have hr := h.call (p := p) (c := c)
  cases c with
  | prepare tx g v clock now => exact h.slots_prepare
  | commit g v now => exact slots_kept hr slots_commit
  | rollback g now => exact slots_kept hr slots_rollback
  | detach now => exact slots_kept hr slots_detach
  | _ => exact slots_kept hr rfl

theorem slots_run (h : q.Valid) : (Call.run Queue.call p q cs).1.arena.slots.size =
    max q.arena.slots.size (2 + q.peak p cs) := by
  induction cs generalizing p q with
  | nil =>
    have heq := h.slots_eq
    simp only [Call.run, peak]
    omega
  | cons c cs ih =>
    have heq := h.slots_eq
    have hc := h.slots_call (p := p) (c := c)
    have hp : (Queue.call p q c).1.size ≤ (Queue.call p q c).1.peak (c.position p) cs :=
      size_le_peak
    refine (ih h.call).trans ?_
    rw [peak]
    omega

end Valid

end Queue

end Multiversion
