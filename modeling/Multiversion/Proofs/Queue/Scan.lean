import Mathlib
import Multiversion.Proofs.Queue.Refinement

/-!
The loops over the links, taken as loops: none has a bound, and none has a rule for a vacant slot.
On a line each of them comes to an end, and there is one end only.
-/

namespace Multiversion.Arena

/-- From slot to slot by `step` while `go` holds: the loop passes the slots in the list, and then
    stops. -/
inductive Scan (a : Arena) (go : Nat → Prop) (step : Nat → Nat) : Nat → List Nat → Nat → Prop
  | stop {i : Nat} : a.content i ≠ .vacant → ¬ go i → Scan a go step i [] i
  | on {i j : Nat} {is : List Nat} : a.content i ≠ .vacant → go i → Scan a go step (step i) is j →
      Scan a go step i (i :: is) j

def CanUnlink (a : Arena) (i : Nat) : Prop :=
  (∃ n, a.content i = .entry n) ∧ a.content (a.prev i) ≠ .vacant ∧ a.content (a.next i) ≠ .vacant

def CanLink (a : Arena) (i j : Nat) : Prop :=
  (∃ n, a.content i = .entry n) ∧ a.content j ≠ .vacant ∧ a.content (a.prev j) ≠ .vacant

inductive Inserts (a : Arena) (order : Nat → Nat) (i : Nat) : Arena → Prop
  | place {is : List Nat} {j : Nat} :
      a.Scan (fun k => a.key order i < a.key order k) a.prev (a.prev tail) is j →
      a.CanLink i (is.getLastD tail) →
      Inserts a order i (a.linkBefore i (is.getLastD tail))

inductive Moves (a : Arena) (order : Nat → Nat) (i : Nat) : Arena × Bool → Prop
  | on {is : List Nat} {j : Nat} :
      a.content (a.next i) ≠ .vacant → a.key order (a.next i) < a.key order i → a.CanUnlink i →
      (a.unlink i).Scan (fun k => (a.unlink i).key order k < a.key order i) (a.unlink i).next
        (a.next i) is j →
      (a.unlink i).CanLink i j →
      Moves a order i ((a.unlink i).linkBefore i j, true)
  | back {is : List Nat} {j : Nat} :
      a.content (a.next i) ≠ .vacant → ¬ a.key order (a.next i) < a.key order i →
      a.content (a.prev i) ≠ .vacant → a.key order i < a.key order (a.prev i) → a.CanUnlink i →
      (a.unlink i).Scan (fun k => a.key order i < (a.unlink i).key order k) (a.unlink i).prev
        (a.prev i) is j →
      (a.unlink i).CanLink i ((a.unlink i).next j) →
      Moves a order i ((a.unlink i).linkBefore i ((a.unlink i).next j), true)
  | stay :
      (∃ n, a.content i = .entry n) →
      a.content (a.next i) ≠ .vacant → ¬ a.key order (a.next i) < a.key order i →
      a.content (a.prev i) ≠ .vacant → ¬ a.key order i < a.key order (a.prev i) →
      Moves a order i (a, false)

variable {a b : Arena} {order : Nat → Nat} {k : Key} {go : Nat → Prop} {step : Nat → Nat}
  {fuel i j t : Nat} {is js : List Nat} {c : Cell} {cs l m r : List Cell} {x : Arena × Bool}

theorem Scan.unique (h : a.Scan go step i is j) (h' : a.Scan go step i js t) :
    is = js ∧ j = t := by
  induction h generalizing js with
  | stop _ hn =>
    cases h' with
    | stop => exact ⟨rfl, rfl⟩
    | on _ hg => exact absurd hg hn
  | on _ hg _ ih =>
    cases h' with
    | stop _ hn => exact absurd hg hn
    | on _ _ h' =>
      obtain ⟨rfl, rfl⟩ := ih h'
      exact ⟨rfl, rfl⟩

theorem Scan.seekBack_eq (h : a.Scan (fun x => k < a.key order x) a.prev i is j)
    (hf : is.length < fuel) : a.seekBack order k fuel i = j := by
  induction h generalizing fuel with
  | stop _ hn =>
    obtain ⟨fuel, rfl⟩ := Nat.exists_eq_succ_of_ne_zero (by omega : fuel ≠ 0)
    rw [seekBack, if_neg hn]
  | on _ hg _ ih =>
    obtain ⟨fuel, rfl⟩ := Nat.exists_eq_succ_of_ne_zero (by omega : fuel ≠ 0)
    rw [seekBack, if_pos hg]
    exact ih (by simpa using hf)

theorem Scan.seekOn_eq (h : a.Scan (fun x => a.key order x < k) a.next i is j)
    (hf : is.length < fuel) : a.seekOn order k fuel i = j := by
  induction h generalizing fuel with
  | stop _ hn =>
    obtain ⟨fuel, rfl⟩ := Nat.exists_eq_succ_of_ne_zero (by omega : fuel ≠ 0)
    rw [seekOn, if_neg hn]
  | on _ hg _ ih =>
    obtain ⟨fuel, rfl⟩ := Nat.exists_eq_succ_of_ne_zero (by omega : fuel ≠ 0)
    rw [seekOn, if_pos hg]
    exact ih (by simpa using hf)

theorem key_unlink : (a.unlink i).key order j = a.key order j := by
  rw [key, key, content_unlink]

theorem getLastD_slots_reverse (r : List Cell) :
    (r.map Cell.slot).reverse.getLastD tail = firstSlot r := by
  cases r <;> simp [firstSlot]

namespace Line

theorem scanOn (h : a.Line (l ++ m ++ r)) (hm : ∀ d ∈ m, go d.slot) (hr : ¬ go (firstSlot r)) :
    a.Scan go a.next (firstSlot (m ++ r)) (m.map Cell.slot) (firstSlot r) := by
  induction m generalizing l with
  | nil => exact .stop (h.content_ne_vacant firstSlot_mem) hr
  | cons d m ih =>
    have h' : a.Line (l ++ [d] ++ m ++ r) := by simpa using h
    have hd : a.Line (l ++ d :: (m ++ r)) := by simpa using h
    have hv : a.content d.slot ≠ .vacant := hd.content_ne_vacant (by simp [track])
    have hfirst : firstSlot (d :: m ++ r) = d.slot := rfl
    rw [hfirst]
    refine .on hv (hm d (by simp)) ?_
    rw [hd.next_cell]
    exact ih h' fun e he => hm e (by simp [he])

theorem scanBack (h : a.Line (l ++ m ++ r)) (hm : ∀ d ∈ m, go d.slot) (hl : ¬ go (lastSlot l)) :
    a.Scan go a.prev (lastSlot (l ++ m)) (m.map Cell.slot).reverse (lastSlot l) := by
  induction m using List.reverseRecOn generalizing r with
  | nil =>
    rw [List.append_nil] at h ⊢
    exact .stop (h.content_ne_vacant lastSlot_mem) hl
  | append_singleton m d ih =>
    have h' : a.Line (l ++ m ++ d :: r) := by simpa using h
    have hv : a.content d.slot ≠ .vacant := h'.content_ne_vacant (by simp [track])
    have hd : lastSlot (l ++ (m ++ [d])) = d.slot := by simp [lastSlot]
    rw [hd, List.map_append, List.reverse_append]
    refine .on hv (hm d (by simp)) ?_
    rw [h'.prev_cell]
    exact ih h' fun e he => hm e (by simp [he])

theorem canUnlink (h : a.Line (l ++ c :: r)) : a.CanUnlink c.slot := by
  have hu := h.unlink
  refine ⟨⟨_, h.filled c (by simp)⟩, ?_, ?_⟩
  · rw [h.prev_cell, ← content_unlink (i := c.slot)]
    exact hu.content_ne_vacant lastSlot_mem
  · rw [h.next_cell, ← content_unlink (i := c.slot)]
    exact hu.content_ne_vacant firstSlot_mem

theorem canLink (h : a.Line (l ++ r)) (hf : a.content c.slot = .entry c.admission) :
    a.CanLink c.slot (firstSlot r) := by
  refine ⟨⟨_, hf⟩, h.content_ne_vacant firstSlot_mem, ?_⟩
  rw [h.joined_at.2]
  exact h.content_ne_vacant lastSlot_mem

section Scans

variable (hf : a.content c.slot = .entry c.admission)
include hf

theorem scan_before (h : a.Line (l ++ m ++ r))
    (hm : ∀ d ∈ m, Before order d.admission c.admission)
    (hr : ∀ d ∈ r, Before order c.admission d.admission) :
    a.Scan (fun x => a.key order x < a.key order c.slot) a.next (firstSlot (m ++ r))
      (m.map Cell.slot) (firstSlot r) := by
  have hk : a.key order c.slot = .entry (order c.admission) c.admission := by rw [key, hf]
  refine h.scanOn (fun d hd => ?_) (h.not_firstSlot_lt fun d hd => ?_)
  · rw [hk, h.key_cell (by simp [hd]), entry_lt_entry]
    exact hm d hd
  · rw [hk, h.key_cell (by simp [hd]), entry_lt_entry]
    exact (hr d hd).asymm

theorem scan_behind (h : a.Line (l ++ m ++ r))
    (hl : ∀ d ∈ l, Before order d.admission c.admission)
    (hm : ∀ d ∈ m, Before order c.admission d.admission) :
    a.Scan (fun x => a.key order c.slot < a.key order x) a.prev (lastSlot (l ++ m))
      (m.map Cell.slot).reverse (lastSlot l) := by
  have hk : a.key order c.slot = .entry (order c.admission) c.admission := by rw [key, hf]
  have h' : a.Line (l ++ (m ++ r)) := by simpa using h
  refine h.scanBack (fun d hd => ?_) (h'.not_lt_lastSlot fun d hd => ?_)
  · rw [hk, h.key_cell (by simp [hd]), entry_lt_entry]
    exact hm d hd
  · rw [hk, h.key_cell (by simp [hd]), entry_lt_entry]
    exact (hl d hd).asymm

end Scans

theorem inserts_iff (h : a.Line cs) (hf : a.content c.slot = .entry c.admission)
    (ho : Sorted order cs) (hn : ∀ d ∈ cs, d.admission ≠ c.admission) :
    a.Inserts order c.slot b ↔ b = a.insertSorted order c.slot := by
  obtain ⟨l, r, rfl, hl, hr⟩ := exists_split ho hn
  have h' : a.Line (l ++ r ++ []) := by simpa using h
  have hscan := h'.scan_behind hf hl hr
  have hlink := h.canLink hf
  have hplace : a.insertSorted order c.slot = a.linkBefore c.slot (firstSlot r) := by
    rw [Arena.insertSorted, Arena.linkBack, h.prev_tail,
      hscan.seekBack_eq (by simpa using h'.length_lt_span), h.joined_at.1]
  rw [← h.prev_tail] at hscan
  rw [hplace]
  constructor
  · rintro ⟨hs, -⟩
    obtain ⟨rfl, -⟩ := hscan.unique hs
    rw [getLastD_slots_reverse]
  · rintro rfl
    rw [← getLastD_slots_reverse] at hlink ⊢
    exact .place hscan hlink

section Moves

variable (h : a.Line (l ++ c :: r)) (ho : Sorted order (l ++ r))
  (hn : ∀ d ∈ l ++ r, d.admission ≠ c.admission)
include h ho hn

theorem exists_scanOn : ∃ is j,
    (a.unlink c.slot).Scan (fun x => (a.unlink c.slot).key order x < a.key order c.slot)
      (a.unlink c.slot).next (a.next c.slot) is j ∧
    (a.unlink c.slot).CanLink c.slot j ∧
    (a.unlink c.slot).linkOn order c.slot (a.next c.slot) =
      (a.unlink c.slot).linkBefore c.slot j := by
  obtain ⟨-, h2, -⟩ := List.pairwise_append.mp ho
  have hf := h.filled c (by simp)
  rw [← content_unlink (i := c.slot)] at hf
  obtain ⟨m, s, rfl, hm, hs⟩ := exists_split (c := c) h2
    fun d hd => hn d (List.mem_append_right l hd)
  have hu : (a.unlink c.slot).Line (l ++ m ++ s) := by simpa using h.unlink
  have hscan := hu.scan_before hf hm hs
  refine ⟨m.map Cell.slot, firstSlot s, ?_, hu.canLink hf, ?_⟩
  · rw [h.next_cell, ← key_unlink (i := c.slot)]
    exact hscan
  · rw [Arena.linkOn, h.next_cell, hscan.seekOn_eq (by simpa using hu.length_lt_span)]

theorem exists_scanBack : ∃ is j,
    (a.unlink c.slot).Scan (fun x => a.key order c.slot < (a.unlink c.slot).key order x)
      (a.unlink c.slot).prev (a.prev c.slot) is j ∧
    (a.unlink c.slot).CanLink c.slot ((a.unlink c.slot).next j) ∧
    (a.unlink c.slot).linkBack order c.slot (a.prev c.slot) =
      (a.unlink c.slot).linkBefore c.slot ((a.unlink c.slot).next j) := by
  obtain ⟨h1, -, -⟩ := List.pairwise_append.mp ho
  have hf := h.filled c (by simp)
  rw [← content_unlink (i := c.slot)] at hf
  obtain ⟨s, m, rfl, hs, hm⟩ := exists_split (c := c) h1
    fun d hd => hn d (List.mem_append_left r hd)
  have hu := h.unlink
  have hu' : (a.unlink c.slot).Line (s ++ (m ++ r)) := by simpa using hu
  have hscan := hu.scan_behind hf hs hm
  refine ⟨(m.map Cell.slot).reverse, lastSlot s, ?_, ?_, ?_⟩
  · rw [h.prev_cell, ← key_unlink (i := c.slot)]
    exact hscan
  · rw [hu'.joined_at.1]
    exact hu'.canLink hf
  · rw [Arena.linkBack, h.prev_cell, hscan.seekBack_eq (by simpa using hu.length_lt_span)]

theorem moves_iff : a.Moves order c.slot x ↔ x = a.reposition order c.slot := by
  obtain ⟨is, i, hon, hcan, hlinkOn⟩ := h.exists_scanOn ho hn
  obtain ⟨js, j, hback, hcan', hlinkBack⟩ := h.exists_scanBack ho hn
  obtain ⟨hentry, hprev, hnext⟩ := h.canUnlink
  simp only [Arena.reposition, hlinkOn, hlinkBack]
  constructor
  · rintro (⟨-, hlt, -, hs, -⟩ | ⟨-, hlt, -, hgt, -, hs, -⟩ | ⟨-, -, hlt, -, hgt⟩)
    · obtain ⟨-, rfl⟩ := hon.unique hs
      rw [if_pos hlt]
    · obtain ⟨-, rfl⟩ := hback.unique hs
      rw [if_neg hlt, if_pos hgt]
    · rw [if_neg hlt, if_neg hgt]
  · rintro rfl
    split
    next hlt => exact .on hnext hlt ⟨hentry, hprev, hnext⟩ hon hcan
    next hlt =>
      split
      next hgt => exact .back hnext hlt hprev hgt ⟨hentry, hprev, hnext⟩ hback hcan'
      next hgt => exact .stay hentry hnext hlt hprev hgt

end Moves

end Line

end Multiversion.Arena
