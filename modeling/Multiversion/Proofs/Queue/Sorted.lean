import Mathlib
import Multiversion.Proofs.Queue.Line

namespace Multiversion

def Before (order : Nat → Nat) (m n : Nat) : Prop :=
  order m < order n ∨ order m = order n ∧ m < n

namespace Before

variable {order : Nat → Nat} {k m n : Nat}

theorem trans (h : Before order k m) (h' : Before order m n) : Before order k n := by
  unfold Before at *
  omega

theorem asymm (h : Before order m n) : ¬ Before order n m := by
  unfold Before at *
  omega

theorem or_before (order : Nat → Nat) (h : m ≠ n) : Before order m n ∨ Before order n m := by
  unfold Before
  omega

theorem order_le (h : Before order m n) : order m ≤ order n := by
  unfold Before at h
  omega

end Before

namespace Arena

def Sorted (order : Nat → Nat) (cs : List Cell) : Prop :=
  cs.Pairwise fun c d => Before order c.admission d.admission

variable {a : Arena} {order : Nat → Nat} {k : Key} {c : Cell} {cs l m r : List Cell}

theorem entry_lt_entry {x y i j : Nat} :
    Key.entry x i < Key.entry y j ↔ x < y ∨ x = y ∧ i < j := by
  change Key.lt _ _ = true ↔ _
  simp [Key.lt]

theorem not_lt_lowest : ¬ k < Key.lowest := by
  change ¬ Key.lt k _ = true
  cases k <;> simp [Key.lt]

theorem not_highest_lt : ¬ Key.highest < k := by
  change ¬ Key.lt _ k = true
  cases k <;> simp [Key.lt]

theorem exists_split (hs : Sorted order cs) (hn : ∀ d ∈ cs, d.admission ≠ c.admission) :
    ∃ l r, cs = l ++ r ∧ (∀ d ∈ l, Before order d.admission c.admission) ∧
      ∀ d ∈ r, Before order c.admission d.admission := by
  induction cs with
  | nil => exact ⟨[], [], rfl, by simp, by simp⟩
  | cons e cs ih =>
    obtain ⟨he, hs⟩ := List.pairwise_cons.mp hs
    rcases Before.or_before order (hn e (by simp)) with hb | hb
    · obtain ⟨l, r, rfl, hl, hr⟩ := ih hs fun d hd => hn d (by simp [hd])
      exact ⟨e :: l, r, rfl, by simpa using ⟨hb, hl⟩, hr⟩
    · exact ⟨[], e :: cs, rfl, by simp, by simpa using ⟨hb, fun d hd => hb.trans (he d hd)⟩⟩

theorem Sorted.insert (hs : Sorted order (l ++ r))
    (hl : ∀ d ∈ l, Before order d.admission c.admission)
    (hr : ∀ d ∈ r, Before order c.admission d.admission) : Sorted order (l ++ c :: r) := by
  obtain ⟨h1, h2, h3⟩ := List.pairwise_append.mp hs
  refine List.pairwise_append.mpr ⟨h1, List.pairwise_cons.mpr ⟨hr, h2⟩, ?_⟩
  intro d hd e he
  rcases List.mem_cons.mp he with rfl | he
  · exact hl d hd
  · exact h3 d hd e he

namespace Line

theorem key_cell (h : a.Line cs) (hc : c ∈ cs) :
    a.key order c.slot = .entry (order c.admission) c.admission := by
  rw [key, h.filled c hc]

theorem key_lastSlot_nil (h : a.Line cs) : a.key order (lastSlot []) = .lowest := by
  rw [key, lastSlot, List.map_nil, List.getLastD_nil, h.headed]

theorem key_firstSlot_nil (h : a.Line cs) : a.key order (firstSlot []) = .highest := by
  rw [key, firstSlot, List.map_nil, List.headD_nil, h.tailed]

theorem key_lt_key {d : Cell} (h : a.Line cs) (hc : c ∈ cs) (hd : d ∈ cs) :
    a.key order c.slot < a.key order d.slot ↔ Before order c.admission d.admission := by
  rw [h.key_cell hc, h.key_cell hd, entry_lt_entry, Before]

theorem not_lt_lastSlot (h : a.Line (l ++ r)) (hl : ∀ d ∈ l, ¬ k < a.key order d.slot) :
    ¬ k < a.key order (lastSlot l) := by
  rcases List.eq_nil_or_concat l with rfl | ⟨l, c, rfl⟩
  · rw [h.key_lastSlot_nil]
    exact not_lt_lowest
  · simpa [lastSlot] using hl c (by simp)

theorem not_firstSlot_lt (h : a.Line (l ++ r)) (hr : ∀ d ∈ r, ¬ a.key order d.slot < k) :
    ¬ a.key order (firstSlot r) < k := by
  cases r with
  | nil =>
    rw [h.key_firstSlot_nil]
    exact not_highest_lt
  | cons c r => exact hr c (by simp)

theorem seekBack {fuel : Nat} (h : a.Line (l ++ m ++ r)) (hm : ∀ d ∈ m, k < a.key order d.slot)
    (hl : ∀ d ∈ l, ¬ k < a.key order d.slot) (hf : m.length < fuel) :
    a.seekBack order k fuel (lastSlot (l ++ m)) = lastSlot l := by
  induction m using List.reverseRecOn generalizing r fuel with
  | nil =>
    obtain ⟨fuel, rfl⟩ := Nat.exists_eq_succ_of_ne_zero (by omega : fuel ≠ 0)
    rw [List.append_nil] at h ⊢
    rw [Arena.seekBack, if_neg (h.not_lt_lastSlot hl)]
  | append_singleton m d ih =>
    obtain ⟨fuel, rfl⟩ := Nat.exists_eq_succ_of_ne_zero (by omega : fuel ≠ 0)
    have h' : a.Line (l ++ m ++ d :: r) := by simpa using h
    have hj : a.prev d.slot = lastSlot (l ++ m) := h'.prev_cell
    have hd : lastSlot (l ++ (m ++ [d])) = d.slot := by simp [lastSlot]
    rw [hd, Arena.seekBack, if_pos (hm d (by simp)), hj]
    exact ih h' (fun e he => hm e (by simp [he])) (by simp at hf; omega)

theorem seekOn {fuel : Nat} (h : a.Line (l ++ m ++ r)) (hm : ∀ d ∈ m, a.key order d.slot < k)
    (hr : ∀ d ∈ r, ¬ a.key order d.slot < k) (hf : m.length < fuel) :
    a.seekOn order k fuel (firstSlot (m ++ r)) = firstSlot r := by
  induction m generalizing l fuel with
  | nil =>
    obtain ⟨fuel, rfl⟩ := Nat.exists_eq_succ_of_ne_zero (by omega : fuel ≠ 0)
    rw [List.append_nil] at h
    rw [List.nil_append, Arena.seekOn, if_neg (h.not_firstSlot_lt hr)]
  | cons d m ih =>
    obtain ⟨fuel, rfl⟩ := Nat.exists_eq_succ_of_ne_zero (by omega : fuel ≠ 0)
    have h' : a.Line (l ++ [d] ++ m ++ r) := by simpa using h
    have hd' : a.Line (l ++ d :: (m ++ r)) := by simpa using h
    have hj : a.next d.slot = firstSlot (m ++ r) := hd'.next_cell
    have hd : firstSlot (d :: m ++ r) = d.slot := rfl
    rw [hd, Arena.seekOn, if_pos (hm d (by simp)), hj]
    exact ih h' (fun e he => hm e (by simp [he])) (by simp at hf; omega)

theorem length_lt_span (h : a.Line (l ++ m ++ r)) : m.length < a.span := by
  have hlen := h.length_lt
  simp at hlen
  simp only [span]
  omega

section Link

variable (hc : c.slot ∉ track (l ++ m ++ r)) (hs : c.slot < a.slots.size)
  (hf : a.content c.slot = .entry c.admission)
include hc hs hf

theorem linkBack (h : a.Line (l ++ m ++ r))
    (hl : ∀ d ∈ l, Before order d.admission c.admission)
    (hm : ∀ d ∈ m, Before order c.admission d.admission) :
    (a.linkBack order c.slot (lastSlot (l ++ m))).Line (l ++ c :: (m ++ r)) := by
  have hk : a.key order c.slot = .entry (order c.admission) c.admission := by rw [key, hf]
  have hseek : a.seekBack order (a.key order c.slot) a.span (lastSlot (l ++ m)) = lastSlot l := by
    refine h.seekBack (fun d hd => ?_) (fun d hd => ?_) h.length_lt_span
    · rw [hk, h.key_cell (by simp [hd]), entry_lt_entry]
      exact hm d hd
    · rw [hk, h.key_cell (by simp [hd]), entry_lt_entry]
      exact (hl d hd).asymm
  rw [List.append_assoc] at h hc
  rw [Arena.linkBack, hseek, h.joined_at.1]
  exact h.linkBefore hc hs hf

theorem linkOn (h : a.Line (l ++ m ++ r))
    (hm : ∀ d ∈ m, Before order d.admission c.admission)
    (hr : ∀ d ∈ r, Before order c.admission d.admission) :
    (a.linkOn order c.slot (firstSlot (m ++ r))).Line (l ++ m ++ c :: r) := by
  have hk : a.key order c.slot = .entry (order c.admission) c.admission := by rw [key, hf]
  have hseek : a.seekOn order (a.key order c.slot) a.span (firstSlot (m ++ r)) = firstSlot r := by
    refine h.seekOn (fun d hd => ?_) (fun d hd => ?_) h.length_lt_span
    · rw [hk, h.key_cell (by simp [hd]), entry_lt_entry]
      exact hm d hd
    · rw [hk, h.key_cell (by simp [hd]), entry_lt_entry]
      exact (hr d hd).asymm
  rw [Arena.linkOn, hseek]
  exact h.linkBefore hc hs hf

end Link

theorem insertSorted (h : a.Line cs) (hc : c.slot ∉ track cs) (hs : c.slot < a.slots.size)
    (hf : a.content c.slot = .entry c.admission) (ho : Sorted order cs)
    (hn : ∀ d ∈ cs, d.admission ≠ c.admission) :
    ∃ ds, (a.insertSorted order c.slot).Line ds ∧ ds.Perm (c :: cs) ∧ Sorted order ds := by
  obtain ⟨l, r, rfl, hl, hr⟩ := exists_split ho hn
  have h' : a.Line (l ++ r ++ []) := by simpa using h
  refine ⟨l ++ c :: r, ?_, List.perm_middle, ho.insert hl hr⟩
  rw [Arena.insertSorted, h.prev_tail]
  simpa using h'.linkBack (by simpa using hc) hs hf hl hr

section Move

variable {d : Cell}

theorem moveOn (h : a.Line (l ++ c :: d :: r)) (ho : Sorted order (l ++ d :: r))
    (hn : ∀ e ∈ l ++ d :: r, e.admission ≠ c.admission)
    (hd : Before order d.admission c.admission) :
    ∃ ds, ((a.unlink c.slot).linkOn order c.slot d.slot).Line ds ∧
      ds.Perm (l ++ c :: d :: r) ∧ Sorted order ds := by
  obtain ⟨-, h2, h3⟩ := List.pairwise_append.mp ho
  have hu := h.unlink
  have hc := h.not_mem_track
  have hs : c.slot < a.slots.size := h.inside _ (by simp [track])
  have hf : (a.unlink c.slot).content c.slot = .entry c.admission := by
    rw [content_unlink]
    exact h.filled c (by simp)
  have hfirst : d.slot = firstSlot (d :: r) := rfl
  obtain ⟨m, s, hms, hm, hs'⟩ := exists_split (c := c) h2
    fun e he => hn e (List.mem_append_right l he)
  rw [hfirst]
  rw [hms] at hu hc ho ⊢
  rw [← List.append_assoc] at hu hc ho
  refine ⟨l ++ m ++ c :: s, ?_, ?_, ?_⟩
  · exact hu.linkOn hc (by simpa using hs) hf hm hs'
  · rw [List.append_assoc]
    exact List.Perm.append_left l List.perm_middle
  · refine ho.insert ?_ hs'
    intro e he
    rcases List.mem_append.mp he with he | he
    · exact (h3 e he d (by simp)).trans hd
    · exact hm e he

theorem moveBack (h : a.Line (l ++ d :: c :: r)) (ho : Sorted order (l ++ d :: r))
    (hn : ∀ e ∈ l ++ d :: r, e.admission ≠ c.admission)
    (hd : Before order c.admission d.admission) :
    ∃ ds, ((a.unlink c.slot).linkBack order c.slot d.slot).Line ds ∧
      ds.Perm (l ++ d :: c :: r) ∧ Sorted order ds := by
  rw [List.append_cons] at h ho hn ⊢
  obtain ⟨h1, -, h3⟩ := List.pairwise_append.mp ho
  have hu := h.unlink
  have hc := h.not_mem_track
  have hs : c.slot < a.slots.size := h.inside _ (by simp [track])
  have hf : (a.unlink c.slot).content c.slot = .entry c.admission := by
    rw [content_unlink]
    exact h.filled c (by simp)
  have hlast : d.slot = lastSlot (l ++ [d]) := by simp [lastSlot]
  obtain ⟨s, m, hsm, hs', hm⟩ := exists_split (c := c) h1
    fun e he => hn e (List.mem_append_left r he)
  rw [hlast]
  rw [hsm] at hu hc ho ⊢
  refine ⟨s ++ c :: (m ++ r), ?_, ?_, ?_⟩
  · exact hu.linkBack hc (by simpa using hs) hf hs' hm
  · rw [List.append_assoc]
    exact List.Perm.append_left s List.perm_middle.symm
  · rw [List.append_assoc] at ho
    refine ho.insert hs' ?_
    intro e he
    rcases List.mem_append.mp he with he | he
    · exact hm e he
    · exact hd.trans (h3 d (by simp) e he)

end Move

theorem reposition (h : a.Line (l ++ c :: r)) (ho : Sorted order (l ++ r))
    (hn : ∀ d ∈ l ++ r, d.admission ≠ c.admission) :
    ∃ ds, (a.reposition order c.slot).1.Line ds ∧ ds.Perm (l ++ c :: r) ∧ Sorted order ds := by
  simp only [Arena.reposition, h.next_cell, h.prev_cell]
  obtain ⟨h1, h2, h3⟩ := List.pairwise_append.mp ho
  by_cases hlt : a.key order (firstSlot r) < a.key order c.slot
  · rw [if_pos hlt]
    cases r with
    | nil =>
      rw [h.key_firstSlot_nil] at hlt
      exact absurd hlt not_highest_lt
    | cons d r => exact h.moveOn ho hn ((h.key_lt_key (by simp) (by simp)).mp hlt)
  by_cases hgt : a.key order c.slot < a.key order (lastSlot l)
  · rw [if_neg hlt, if_pos hgt]
    rcases List.eq_nil_or_concat l with rfl | ⟨l, d, rfl⟩
    · rw [h.key_lastSlot_nil] at hgt
      exact absurd hgt not_lt_lowest
    · have hd : lastSlot (l.concat d) = d.slot := by simp [lastSlot]
      rw [hd] at hgt ⊢
      simp only [List.concat_eq_append, List.append_assoc, List.singleton_append] at h ho hn ⊢
      exact h.moveBack ho hn ((h.key_lt_key (by simp) (by simp)).mp hgt)
  · rw [if_neg hlt, if_neg hgt]
    refine ⟨l ++ c :: r, h, List.Perm.refl _, ho.insert ?_ ?_⟩
    · intro e he
      rcases List.eq_nil_or_concat l with rfl | ⟨l, d, rfl⟩
      · simp at he
      · have hd : lastSlot (l.concat d) = d.slot := by simp [lastSlot]
        rw [hd, h.key_lt_key (by simp) (by simp)] at hgt
        have hdc := (Before.or_before order (hn d (by simp))).resolve_right hgt
        rw [List.concat_eq_append, List.mem_append, List.mem_singleton] at he
        rw [List.concat_eq_append] at h1
        rcases he with he | rfl
        · exact ((List.pairwise_append.mp h1).2.2 e he d (by simp)).trans hdc
        · exact hdc
    · intro e he
      cases r with
      | nil => simp at he
      | cons d r =>
        have hd : firstSlot (d :: r) = d.slot := rfl
        rw [hd, h.key_lt_key (by simp) (by simp)] at hlt
        have hcd := (Before.or_before order (hn d (by simp))).resolve_left hlt
        rcases List.mem_cons.mp he with rfl | he
        · exact hcd
        · exact hcd.trans ((List.pairwise_cons.mp h2).1 e he)

theorem walk {fuel : Nat} (h : a.Line (l ++ r)) (hf : r.length ≤ fuel) :
    a.walk fuel (firstSlot r) = r.map Cell.admission := by
  induction r generalizing l fuel with
  | nil =>
    cases fuel with
    | zero => rfl
    | succ fuel => simp [Arena.walk, firstSlot, h.tailed]
  | cons c r ih =>
    obtain ⟨fuel, rfl⟩ := Nat.exists_eq_succ_of_ne_zero (by simp at hf; omega : fuel ≠ 0)
    have h' : a.Line (l ++ [c] ++ r) := by simpa using h
    have hfirst : firstSlot (c :: r) = c.slot := rfl
    rw [hfirst, Arena.walk, h.filled c (by simp), List.map_cons, h.next_cell]
    rw [ih h' (by simpa using hf)]

theorem toList (h : a.Line cs) : a.toList = cs.map Cell.admission := by
  rw [Arena.toList, h.next_head]
  refine Line.walk (l := []) h ?_
  have hl := h.length_lt
  simp only [span]
  omega

end Line

end Arena

end Multiversion
