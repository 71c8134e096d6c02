import Mathlib
import Multiversion.Proofs.Queue.Links

namespace Multiversion

structure Cell where
  slot : Nat
  admission : Nat
  deriving DecidableEq

namespace Arena

def track (cs : List Cell) : List Nat := head :: cs.map Cell.slot ++ [tail]

structure Line (a : Arena) (cs : List Cell) : Prop where
  joined : (track cs).IsChain a.Joined
  nodup : (track cs).Nodup
  inside : ∀ i ∈ track cs, i < a.slots.size
  headed : a.content head = .head
  tailed : a.content tail = .tail
  filled : ∀ c ∈ cs, a.content c.slot = .entry c.admission
  length_eq : a.length = cs.length

structure Stock (a : Arena) (cs : List Cell) : Prop where
  head_iff : ∀ i, a.content i = .head ↔ i = head
  tail_iff : ∀ i, a.content i = .tail ↔ i = tail
  used : ∀ i n, a.content i = .entry n ↔ ⟨i, n⟩ ∈ cs
  free_nodup : a.free.Nodup
  free_iff : ∀ i, i ∈ a.free ↔ i < a.slots.size ∧ a.content i = .vacant

variable {a b : Arena} {i j n : Nat} {c : Cell} {cs ds l m r : List Cell}

theorem track_append (l r : List Cell) :
    track (l ++ r) = head :: l.map Cell.slot ++ (r.map Cell.slot ++ [tail]) := by
  simp [track]

def lastSlot (l : List Cell) : Nat := (l.map Cell.slot).getLastD head

def firstSlot (r : List Cell) : Nat := (r.map Cell.slot).headD tail

theorem exists_lastSlot (l : List Cell) : ∃ A, head :: l.map Cell.slot = A ++ [lastSlot l] := by
  rcases List.eq_nil_or_concat l with rfl | ⟨l, c, rfl⟩
  · exact ⟨[], rfl⟩
  · exact ⟨head :: l.map Cell.slot, by simp [lastSlot]⟩

theorem exists_firstSlot (r : List Cell) : ∃ B, r.map Cell.slot ++ [tail] = firstSlot r :: B := by
  cases r with
  | nil => exact ⟨[], rfl⟩
  | cons c r => exact ⟨r.map Cell.slot ++ [tail], rfl⟩

namespace Line

theorem unlink (h : a.Line (l ++ c :: r)) : (a.unlink c.slot).Line (l ++ r) := by
  obtain ⟨A, hA⟩ := exists_lastSlot l
  obtain ⟨B, hB⟩ := exists_firstSlot r
  generalize lastSlot l = p at hA
  generalize firstSlot r = n at hB
  have ht : track (l ++ c :: r) = A ++ p :: c.slot :: n :: B := by
    simp [track_append, hA, hB]
  have ht' : track (l ++ r) = A ++ p :: n :: B := by simp [track_append, hA, hB]
  have hsub : (A ++ p :: n :: B).Sublist (A ++ p :: c.slot :: n :: B) := by simp
  have hj := h.joined
  have hd := h.nodup
  have hs := h.inside
  rw [ht] at hj hd hs
  obtain ⟨-, hpi, hr⟩ := List.isChain_append_cons_cons.mp hj
  have hin := (List.isChain_cons_cons.mp hr).1
  have hi : c.slot < a.slots.size := hs _ (by simp)
  have hp : a.prev c.slot < a.slots.size := hpi.2 ▸ hs p (by simp)
  have hn : a.next c.slot < a.slots.size := hin.1 ▸ hs n (by simp)
  refine ⟨?_, ?_, ?_, ?_, ?_, ?_, ?_⟩
  · rw [ht']
    exact unlink_joined hi hp hn hj hd
  · rw [ht']
    exact hd.sublist hsub
  · intro i hi'
    rw [size_unlink]
    rw [ht'] at hi'
    exact hs i (hsub.subset hi')
  · rw [content_unlink, h.headed]
  · rw [content_unlink, h.tailed]
  · intro d hd'
    have hsub' : (l ++ r).Sublist (l ++ c :: r) := by simp
    rw [content_unlink, h.filled d (hsub'.subset hd')]
  · have hl := h.length_eq
    change a.length - 1 = _
    simp at hl ⊢
    omega

theorem linkBefore (h : a.Line (l ++ r)) (hc : c.slot ∉ track (l ++ r))
    (hs : c.slot < a.slots.size) (hf : a.content c.slot = .entry c.admission) :
    (a.linkBefore c.slot (firstSlot r)).Line (l ++ c :: r) := by
  obtain ⟨A, hA⟩ := exists_lastSlot l
  obtain ⟨B, hB⟩ := exists_firstSlot r
  generalize lastSlot l = p at hA
  generalize firstSlot r = n at hB ⊢
  have ht : track (l ++ r) = A ++ p :: n :: B := by simp [track_append, hA, hB]
  have ht' : track (l ++ c :: r) = A ++ p :: c.slot :: n :: B := by
    simp [track_append, hA, hB]
  have hj := h.joined
  have hd := h.nodup
  have hi := h.inside
  rw [ht] at hj hd hi hc
  obtain ⟨-, hpn, -⟩ := List.isChain_append_cons_cons.mp hj
  have hsn : n < a.slots.size := hi n (by simp)
  have hsp : a.prev n < a.slots.size := hpn.2 ▸ hi p (by simp)
  refine ⟨?_, ?_, ?_, ?_, ?_, ?_, ?_⟩
  · rw [ht']
    exact linkBefore_joined hs hsn hsp hj hd hc
  · rw [ht', List.append_cons, List.nodup_middle, List.nodup_cons]
    rw [List.append_cons] at hc hd
    exact ⟨hc, hd⟩
  · intro i hi'
    rw [size_linkBefore]
    rw [ht'] at hi'
    simp only [List.mem_append, List.mem_cons] at hi'
    rcases hi' with h1 | rfl | rfl | h1
    · exact hi i (by simp [h1])
    · exact hi i (by simp)
    · exact hs
    · exact hi i (by simp [h1])
  · rw [content_linkBefore, h.headed]
  · rw [content_linkBefore, h.tailed]
  · intro d hd'
    rw [content_linkBefore]
    simp only [List.mem_append, List.mem_cons] at hd'
    rcases hd' with h1 | rfl | h1
    · exact h.filled d (by simp [h1])
    · exact hf
    · exact h.filled d (by simp [h1])
  · have hl := h.length_eq
    change a.length + 1 = _
    simp at hl ⊢
    omega

theorem joined_at (h : a.Line (l ++ r)) : a.Joined (lastSlot l) (firstSlot r) := by
  obtain ⟨A, hA⟩ := exists_lastSlot l
  obtain ⟨B, hB⟩ := exists_firstSlot r
  have hj := h.joined
  rw [track_append, hA, hB, List.append_assoc, List.singleton_append,
    List.isChain_append_cons_cons] at hj
  exact hj.2.1

theorem next_cell (h : a.Line (l ++ c :: r)) : a.next c.slot = firstSlot r := by
  have h' : a.Line (l ++ [c] ++ r) := by simpa using h
  simpa [lastSlot] using h'.joined_at.1

theorem prev_cell (h : a.Line (l ++ c :: r)) : a.prev c.slot = lastSlot l := h.joined_at.2

theorem next_head (h : a.Line cs) : a.next head = firstSlot cs := (h.joined_at (l := [])).1

theorem prev_tail (h : a.Line cs) : a.prev tail = lastSlot cs := by
  have h' : a.Line (cs ++ []) := by simpa using h
  exact h'.joined_at.2

theorem of_slot (h : a.Line cs) (hs : ∀ i ∈ track cs, b.slot i = a.slot i)
    (hz : a.slots.size ≤ b.slots.size) (hl : b.length = a.length) : b.Line cs := by
  have hh := hs head (by simp [track])
  have ht := hs tail (by simp [track])
  refine ⟨?_, h.nodup, fun i hi => (h.inside i hi).trans_le hz, ?_, ?_, ?_, hl.trans h.length_eq⟩
  · apply h.joined.imp_of_mem_imp
    rintro u v hu hv ⟨huv, hvu⟩
    exact ⟨by rw [next, hs u hu]; exact huv, by rw [prev, hs v hv]; exact hvu⟩
  · rw [content, hh]
    exact h.headed
  · rw [content, ht]
    exact h.tailed
  · intro c hc
    rw [content, hs c.slot (by simp [track]; grind)]
    exact h.filled c hc

theorem content_ne_vacant (h : a.Line cs) (hi : i ∈ track cs) : a.content i ≠ .vacant := by
  simp only [track, List.cons_append, List.mem_cons, List.mem_append, List.mem_map,
    List.not_mem_nil, or_false] at hi
  rcases hi with rfl | ⟨c, hc, rfl⟩ | rfl
  · simp [h.headed]
  · simp [h.filled c hc]
  · simp [h.tailed]

theorem length_lt (h : a.Line cs) : cs.length + 1 < a.slots.size := by
  have hsub : track cs ⊆ List.range a.slots.size := fun i hi => List.mem_range.mpr (h.inside i hi)
  have hle := (h.nodup.subperm hsub).length_le
  simpa [track] using hle

theorem not_mem_track (h : a.Line (l ++ c :: r)) : c.slot ∉ track (l ++ r) := by
  have e : track (l ++ c :: r) =
      head :: l.map Cell.slot ++ c.slot :: (r.map Cell.slot ++ [tail]) := by
    simp [track]
  have hd := h.nodup
  rw [e, List.nodup_middle, List.nodup_cons] at hd
  rw [track_append]
  exact hd.1

end Line

namespace Stock

theorem of_mem (h : a.Stock cs) (hm : ∀ c, c ∈ ds ↔ c ∈ cs) : a.Stock ds :=
  ⟨h.head_iff, h.tail_iff, fun i n => by rw [h.used, hm], h.free_nodup, h.free_iff⟩

theorem of_content (h : a.Stock cs) (hc : ∀ i, b.content i = a.content i) (hf : b.free = a.free)
    (hz : b.slots.size = a.slots.size) : b.Stock cs where
  head_iff i := by rw [hc, h.head_iff]
  tail_iff i := by rw [hc, h.tail_iff]
  used i n := by rw [hc, h.used]
  free_nodup := hf ▸ h.free_nodup
  free_iff i := by rw [hf, hz, hc, h.free_iff]

end Stock

theorem size_le_alloc : a.slots.size ≤ (a.alloc n).2.slots.size := by
  unfold alloc
  split <;> simp

theorem Stock.unlink (h : a.Stock cs) : (a.unlink i).Stock cs :=
  h.of_content (fun _ => content_unlink) rfl size_unlink

theorem Stock.linkBefore (h : a.Stock cs) : (a.linkBefore i j).Stock cs :=
  h.of_content (fun _ => content_linkBefore) rfl size_linkBefore

theorem Stock.insertSorted {order : Nat → Nat} (h : a.Stock cs) :
    (a.insertSorted order i).Stock cs := h.linkBefore

theorem Stock.reposition {order : Nat → Nat} (h : a.Stock cs) :
    (a.reposition order i).1.Stock cs := by
  unfold Arena.reposition
  simp only
  split
  · exact h.unlink.linkBefore
  · split
    · exact h.unlink.linkBefore
    · exact h

section Alloc

variable (h : a.Stock cs)
include h

theorem slot_alloc : (a.alloc n).2.slot i =
    if i = (a.alloc n).1 then ⟨.entry n, head, head⟩ else a.slot i := by
  unfold alloc
  split
  next j free hf =>
    have hj : j < a.slots.size := ((h.free_iff j).mp (by simp [hf])).1
    simp only [slot, Array.getD_eq_getD_getElem?, Array.getElem?_setIfInBounds]
    by_cases hi : i = j
    · simp [hi, hj]
    · simp [hi, Ne.symm hi]
  next hf =>
    simp only [slot, Array.getD_eq_getD_getElem?, Array.getElem?_push]
    split <;> simp

theorem content_alloc_vacant : a.content (a.alloc n).1 = .vacant := by
  unfold alloc
  split
  next j free hf => exact ((h.free_iff j).mp (by simp [hf])).2
  next hf => simp [content, slot, default]

theorem lt_size_alloc : i < (a.alloc n).2.slots.size ↔ i < a.slots.size ∨ i = (a.alloc n).1 := by
  unfold Arena.alloc
  split
  next j free hf =>
    have hj : j < a.slots.size := ((h.free_iff j).mp (by simp [hf])).1
    rw [Array.size_setIfInBounds]
    exact ⟨.inl, fun hi => hi.elim id fun hi => hi ▸ hj⟩
  next hf =>
    rw [Array.size_push]
    exact Nat.lt_succ_iff_lt_or_eq

theorem alloc_lt : (a.alloc n).1 < (a.alloc n).2.slots.size := (lt_size_alloc h).mpr (.inr rfl)

theorem Line.alloc (hl : a.Line ds) : (a.alloc n).2.Line ds := by
  refine hl.of_slot ?_ size_le_alloc (by unfold Arena.alloc; split <;> rfl)
  intro i hi
  rw [slot_alloc h, if_neg]
  rintro rfl
  exact hl.content_ne_vacant hi (content_alloc_vacant h)

theorem content_alloc : (a.alloc n).2.content i =
    if i = (a.alloc n).1 then .entry n else a.content i := by
  rw [content, slot_alloc h]
  split <;> rfl

theorem content_alloc_iff {k : Content} (hv : k ≠ .vacant) (hk : k ≠ .entry n) :
    (a.alloc n).2.content i = k ↔ a.content i = k := by
  rw [content_alloc h]
  split
  next hi =>
    rw [hi, content_alloc_vacant h]
    exact iff_of_false hk.symm hv.symm
  next => exact Iff.rfl

theorem mem_free_alloc : i ∈ (a.alloc n).2.free ↔ i ∈ a.free ∧ i ≠ (a.alloc n).1 := by
  have hd := h.free_nodup
  unfold Arena.alloc
  split
  next j free hf =>
    rw [hf] at hd ⊢
    have hj := (List.nodup_cons.mp hd).1
    rw [List.mem_cons]
    exact ⟨fun hi => ⟨.inr hi, ne_of_mem_of_not_mem hi hj⟩, fun hi => hi.1.resolve_left hi.2⟩
  next hf => simp [hf]

theorem Stock.alloc : (a.alloc n).2.Stock (⟨(a.alloc n).1, n⟩ :: cs) where
  head_iff i := by rw [content_alloc_iff h (by simp) (by simp), h.head_iff]
  tail_iff i := by rw [content_alloc_iff h (by simp) (by simp), h.tail_iff]
  used i k := by
    rw [content_alloc h]
    split
    next e =>
      subst e
      have hk : ⟨(a.alloc n).1, k⟩ ∉ cs := by
        rw [← h.used, content_alloc_vacant h]
        simp
      simp [hk, eq_comm]
    next e => simp [← h.used, e]
  free_nodup := by
    have hd := h.free_nodup
    unfold Arena.alloc
    split
    next j free hf =>
      rw [hf] at hd
      exact (List.nodup_cons.mp hd).2
    next hf => simp [hf]
  free_iff i := by
    rw [mem_free_alloc h, lt_size_alloc h, content_alloc h, h.free_iff]
    split
    next e => simp [e]
    next e => simp [e]

end Alloc

section Release

theorem slot_release (h : i < a.slots.size) : (a.release i).slot j =
    if j = i then { a.slot j with content := .vacant } else a.slot j := by
  rw [slot, release, slot_modify _ h]

theorem Line.release (h : a.Line cs) (hi : i ∉ track cs) (hs : i < a.slots.size) :
    (a.release i).Line cs := by
  refine h.of_slot ?_ (by simp [Arena.release]) rfl
  intro j hj
  rw [slot_release hs, if_neg (ne_of_mem_of_not_mem hj hi)]

theorem Stock.release (h : a.Stock cs) (hc : c ∈ cs) (hs : c.slot < a.slots.size)
    (hm : ∀ d, d ∈ ds ↔ d ∈ cs ∧ d ≠ c) : (a.release c.slot).Stock ds := by
  have hf := (h.used c.slot c.admission).mpr hc
  have content_eq (i) : (a.release c.slot).content i =
      if i = c.slot then .vacant else a.content i := by
    rw [content, slot_release hs]
    split <;> rfl
  refine ⟨?_, ?_, ?_, ?_, ?_⟩
  · intro i
    rw [content_eq]
    split
    next e => simp [e, ← h.head_iff, hf]
    next => exact h.head_iff i
  · intro i
    rw [content_eq]
    split
    next e => simp [e, ← h.tail_iff, hf]
    next => exact h.tail_iff i
  · intro i n
    rw [content_eq, hm, ← h.used]
    split
    next e =>
      simp only [reduceCtorEq, false_iff, not_and, not_not]
      intro e'
      rw [e, hf] at e'
      cases e'
      cases c
      simp_all
    next e =>
      refine ⟨fun e' => ⟨e', ?_⟩, fun e' => e'.1⟩
      rintro rfl
      exact e rfl
  · refine List.nodup_cons.mpr ⟨?_, h.free_nodup⟩
    rw [h.free_iff, hf]
    simp
  · intro i
    rw [content_eq]
    simp only [Arena.release, List.mem_cons, Array.size_modify, h.free_iff]
    by_cases e : i = c.slot
    · simp [e, hs]
    · simp [e]

end Release

end Arena

end Multiversion
