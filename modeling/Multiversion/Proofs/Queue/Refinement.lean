import Mathlib
import Multiversion.Proofs.Queue.Roster

namespace Multiversion

theorem rel_of_mem_zip_tail {α : Type} {R : α → α → Prop} {l : List α} (h : l.IsChain R) :
    ∀ x ∈ l.zip l.tail, R x.1 x.2 := by
  induction l with
  | nil => simp
  | cons a l ih =>
    cases l with
    | nil => simp
    | cons b l =>
      obtain ⟨hab, hl⟩ := List.isChain_cons_cons.mp h
      intro x hx
      rcases List.mem_cons.mp hx with rfl | hx
      · exact hab
      · exact ih hl x hx

namespace Arena

variable {a : Arena} {order : Nat → Nat} {k : Key} {fuel i : Nat} {c : Cell} {cs l r : List Cell}

def occupied (a : Arena) (i : Nat) : Bool := a.content i ≠ .vacant

def readBack (a : Arena) (order : Nat → Nat) (k : Key) : Nat → Nat → List Nat
  | 0, _ => []
  | fuel + 1, i => i :: if k < a.key order i then a.readBack order k fuel (a.prev i) else []

def readOn (a : Arena) (order : Nat → Nat) (k : Key) : Nat → Nat → List Nat
  | 0, _ => []
  | fuel + 1, i => i :: if a.key order i < k then a.readOn order k fuel (a.next i) else []

def readInsert (a : Arena) (order : Nat → Nat) (i : Nat) : List Nat :=
  i :: a.readBack order (a.key order i) a.span (a.prev tail)

def readMove (a : Arena) (order : Nat → Nat) (i : Nat) : List Nat :=
  let k := a.key order i
  let b := a.unlink i
  i :: a.next i ::
    if a.key order (a.next i) < k then b.readOn order k b.span (a.next i)
    else a.prev i :: if k < a.key order (a.prev i) then b.readBack order k b.span (a.prev i) else []

theorem lastSlot_mem : lastSlot l ∈ track (l ++ r) := by
  obtain ⟨A, hA⟩ := exists_lastSlot l
  rw [track_append, hA]
  simp

theorem firstSlot_mem : firstSlot r ∈ track (l ++ r) := by
  obtain ⟨B, hB⟩ := exists_firstSlot r
  rw [track_append, hB]
  simp

namespace Line

section

variable (h : a.Line cs)
include h

theorem occupied_of_mem (hi : i ∈ track cs) : a.occupied i = true :=
  decide_eq_true (h.content_ne_vacant hi)

theorem mem_cases (hi : i ∈ track cs) :
    i = head ∨ i = tail ∨ ∃ l c r, cs = l ++ c :: r ∧ i = c.slot := by
  simp only [track, List.cons_append, List.mem_cons, List.mem_append, List.mem_map,
    List.not_mem_nil, or_false] at hi
  rcases hi with rfl | ⟨c, hc, rfl⟩ | rfl
  · exact .inl rfl
  · obtain ⟨l, r, rfl⟩ := List.append_of_mem hc
    exact .inr (.inr ⟨l, c, r, rfl, rfl⟩)
  · exact .inr (.inl rfl)

theorem prev_mem (hi : i ∈ track cs) (hne : i ≠ head) : a.prev i ∈ track cs := by
  rcases h.mem_cases hi with rfl | rfl | ⟨l, c, r, rfl, rfl⟩
  · exact absurd rfl hne
  · rw [h.prev_tail]
    simpa using lastSlot_mem (l := cs) (r := [])
  · rw [h.prev_cell]
    exact lastSlot_mem

theorem next_mem (hi : i ∈ track cs) (hne : i ≠ tail) : a.next i ∈ track cs := by
  rcases h.mem_cases hi with rfl | rfl | ⟨l, c, r, rfl, rfl⟩
  · rw [h.next_head]
    exact firstSlot_mem (l := [])
  · exact absurd rfl hne
  · rw [h.next_cell]
    simpa using firstSlot_mem (l := l ++ [c]) (r := r)

theorem mem_readBack (hi : i ∈ track cs) : ∀ j ∈ a.readBack order k fuel i, j ∈ track cs := by
  induction fuel generalizing i with
  | zero => simp [readBack]
  | succ fuel ih =>
    intro j hj
    rcases List.mem_cons.mp hj with rfl | hj
    · exact hi
    split at hj
    next hlt =>
      refine ih (h.prev_mem hi ?_) j hj
      rintro rfl
      rw [key, h.headed] at hlt
      exact not_lt_lowest hlt
    next => simp at hj

theorem mem_readOn (hi : i ∈ track cs) : ∀ j ∈ a.readOn order k fuel i, j ∈ track cs := by
  induction fuel generalizing i with
  | zero => simp [readOn]
  | succ fuel ih =>
    intro j hj
    rcases List.mem_cons.mp hj with rfl | hj
    · exact hi
    split at hj
    next hlt =>
      refine ih (h.next_mem hi ?_) j hj
      rintro rfl
      rw [key, h.tailed] at hlt
      exact not_highest_lt hlt
    next => simp at hj

theorem occupied_readInsert (hi : a.occupied i = true) :
    ∀ j ∈ a.readInsert order i, a.occupied j = true := by
  intro j hj
  rcases List.mem_cons.mp hj with rfl | hj
  · exact hi
  · have ht : tail ∈ track cs := by simp [track]
    exact h.occupied_of_mem (h.mem_readBack (h.prev_mem ht (by decide)) j hj)

end

theorem occupied_readMove (h : a.Line (l ++ c :: r)) :
    ∀ j ∈ a.readMove order c.slot, a.occupied j = true := by
  have hc : c.slot ∈ track (l ++ c :: r) := by simp [track]
  have rest {j} (hj : j ∈ track (l ++ r)) : a.occupied j = true := by
    have ho := h.unlink.occupied_of_mem hj
    rwa [occupied, content_unlink] at ho
  intro j hj
  rw [readMove, h.next_cell, h.prev_cell, List.mem_cons, List.mem_cons] at hj
  rcases hj with rfl | rfl | hj
  · exact h.occupied_of_mem hc
  · exact rest firstSlot_mem
  split at hj
  next => exact rest (h.unlink.mem_readOn firstSlot_mem j hj)
  next =>
    rcases List.mem_cons.mp hj with rfl | hj
    · exact rest lastSlot_mem
    split at hj
    next => exact rest (h.unlink.mem_readBack lastSlot_mem j hj)
    next => simp at hj

end Line

end Arena

namespace Queue

variable {p : Position} {q : Queue} {r : Roster} {c : Call} {g : TransactionId} {i n : Nat}
  {order : Nat → Nat}

/-- What the calls assert of the line while they change it. -/
def assertions (p : Position) (q : Queue) : Call → List Bool
  | .prepare tx g v clock now =>
    let q := (q.remove g).1
    let a := q.arena.alloc q.entries.size
    let r := q.enqueue (tentative tx g v (p.seq v) clock now)
    [(a.2.readInsert r.order a.1).all a.2.occupied, r.isSorted]
  | .commit g v now =>
    match q.slot? g, q.find? g with
    | some i, some n =>
      let r := q.place i n v (p.seq v) now
      [(q.arena.readMove r.order i).all q.arena.occupied, r.isSorted]
    | _, _ => []
  | _ => []

structure Refines (q : Queue) (r : Roster) : Prop where
  sorted : r.line.Pairwise (Before r.order)
  entries : q.entries = r.entries
  toList : q.toList = r.queued
  size : q.size = r.line.length
  isEmpty : q.isEmpty = r.line.isEmpty
  find? : ∀ g, q.find? g = r.find? g
  readyPrefix : q.readyPrefix = r.readyPrefix
  isSorted : q.isSorted = true
  keys : (q.index.map Prod.fst).Nodup
  indexed : ∀ g i, (g, i) ∈ q.index ↔
    ∃ n ∈ r.line, (r.entry n).id = g ∧ q.arena.content i = .entry n

namespace Valid

variable (h : q.Valid)
include h

theorem isSorted : q.isSorted = true := by
  have hc : (q.arena.toList.map fun n => Key.entry (q.order n) n).IsChain fun a b => ¬ b < a := by
    refine (List.pairwise_map.mpr (h.sorted.imp fun hmn => ?_)).isChain
    rw [Arena.entry_lt_entry]
    exact hmn.asymm
  refine List.all_eq_true.mpr fun x hx => ?_
  simpa using rel_of_mem_zip_tail hc x hx

theorem size_eq : q.size = q.line.length := by
  obtain ⟨cs, h⟩ := h
  rw [size, h.indexed.length_eq, h.line_eq, List.length_map, List.length_map]

theorem refines : q.Refines q.roster where
  sorted := h.sorted
  entries := rfl
  toList := rfl
  size := h.size_eq
  isEmpty := by
    rw [line_roster, isEmpty, Bool.eq_iff_iff, List.isEmpty_iff_length_eq_zero,
      List.isEmpty_iff_length_eq_zero, ← h.size_eq, size]
  find? g := h.find?_roster.symm
  readyPrefix := rfl
  isSorted := h.isSorted
  keys := by
    obtain ⟨cs, h⟩ := h
    exact h.index_nodup
  indexed g i := by
    obtain ⟨cs, h⟩ := h
    rw [h.indexed.mem_iff, List.mem_map]
    constructor
    · rintro ⟨c, hc, e⟩
      obtain ⟨rfl, rfl⟩ := Prod.mk.inj e
      exact ⟨c.admission, h.mem_line.mpr ⟨c, hc, rfl⟩, rfl, h.line.filled c hc⟩
    · rintro ⟨n, -, rfl, hi⟩
      exact ⟨⟨i, n⟩, (h.stock.used i n).mp hi, rfl⟩

theorem remove : (q.remove g).1.Valid ∧
    ∀ m ∈ (q.remove g).1.line, ((q.remove g).1.entry m).id ≠ g := by
  cases hf : q.find? g with
  | none =>
    rw [remove_none hf]
    exact ⟨h, h.find?_eq_none_iff.mp hf⟩
  | some n =>
    obtain ⟨r, e, hr⟩ := h.remove_some hf
    rw [e]
    exact ⟨hr.valid, h.free_of_removed hf hr⟩

theorem occupied_enqueue : ∀ j ∈ (q.arena.alloc n).2.readInsert order (q.arena.alloc n).1,
    (q.arena.alloc n).2.occupied j = true := by
  obtain ⟨cs, h⟩ := h
  refine (Arena.Line.alloc h.stock h.line).occupied_readInsert ?_
  have hc := ((Arena.Stock.alloc h.stock (n := n)).used _ n).mpr (List.mem_cons_self ..)
  rw [Arena.occupied, hc]
  rfl

theorem occupied_place (hi : q.slot? g = some i) :
    ∀ j ∈ q.arena.readMove order i, q.arena.occupied j = true := by
  obtain ⟨cs, h⟩ := h
  obtain ⟨c, hc, -, rfl⟩ := h.lookup.mp hi
  obtain ⟨us, vs, rfl⟩ := List.append_of_mem hc
  exact h.line.occupied_readMove

theorem assertions : ∀ b ∈ q.assertions p c, b = true := by
  intro b hb
  cases c with
  | prepare tx g v clock now =>
    obtain ⟨hv, hg⟩ := h.remove (g := g)
    simp only [Queue.assertions, List.mem_pair] at hb
    rcases hb with hb | hb
    · rw [hb, List.all_eq_true]
      exact hv.occupied_enqueue
    · rw [hb]
      exact (hv.enqueue (e := tentative tx g v (p.seq v) clock now) hg).valid.isSorted
  | commit g v now =>
    cases hf : q.find? g with
    | none => cases hi : q.slot? g <;> simp [Queue.assertions, hi, hf] at hb
    | some n =>
      obtain ⟨i, hi⟩ := slot?_of_find? hf
      rw [Queue.assertions, hi, hf] at hb
      rcases List.mem_pair.mp hb with rfl | rfl
      · exact List.all_eq_true.mpr (h.occupied_place hi)
      · exact (h.place v (p.seq v) now hi hf).valid.isSorted
  | _ => simp [Queue.assertions] at hb

end Valid

theorem refines_sorted_list (p : Position) (tracking : Bool) (cs : List Call) :
    let x := Call.run call p { tracking } cs
    let y := Call.run Roster.call p { tracking } cs
    x.2 = y.2 ∧ x.1.Refines y.1 ∧ ∀ p c, ∀ b ∈ x.1.assertions p c, b = true := by
  intro x y
  have hv : Valid { tracking } := valid_empty
  have hy : y = (x.1.roster, x.2) :=
    Call.run_refines (φ := roster) (fun _ _ _ h => Valid.call h)
      (fun _ _ _ h => Valid.roster_call h) hv
  have hx : x.1.Valid := hv.run
  rw [hy]
  exact ⟨rfl, hx.refines, fun _ _ => hx.assertions⟩

end Queue

end Multiversion
