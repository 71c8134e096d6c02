import Mathlib

namespace Multiversion

theorem lookup_eq_some_iff {α β : Type} [BEq α] [LawfulBEq α] {l : List (α × β)} {x : α} {y : β}
    (h : (l.map Prod.fst).Nodup) : l.lookup x = some y ↔ (x, y) ∈ l := by
  induction l with
  | nil => simp
  | cons e l ih =>
    obtain ⟨u, v⟩ := e
    obtain ⟨hu, hd⟩ := List.nodup_cons.mp h
    by_cases hx : x = u
    · subst hx
      have hn : (x, y) ∉ l := fun hm => hu (List.mem_map.mpr ⟨(x, y), hm, rfl⟩)
      simp [hn, eq_comm]
    · rw [List.lookup_cons, beq_eq_false_iff_ne.mpr hx, ih hd]
      simp [hx]

theorem ne_of_nodup_map {α β : Type} {φ : α → β} {us vs : List α} {x y : α}
    (h : ((us ++ x :: vs).map φ).Nodup) (hy : y ∈ us ++ vs) : φ y ≠ φ x := by
  rw [List.map_append, List.map_cons, List.nodup_middle, ← List.map_append] at h
  exact fun e => (List.nodup_cons.mp h).1 (e ▸ List.mem_map_of_mem hy)

theorem isLeast_foldl_min (n : Nat) (l : List Nat) : IsLeast {x | x ∈ n :: l} (l.foldl min n) := by
  induction l generalizing n with
  | nil => exact ⟨List.mem_singleton_self n, fun x hx => (List.mem_singleton.mp hx).ge⟩
  | cons k l ih =>
    obtain ⟨hm, hle⟩ := ih (min n k)
    rw [List.foldl_cons]
    refine ⟨?_, fun x hx => ?_⟩
    · rcases List.mem_cons.mp hm with hm | hm
      · rcases min_choice n k with h | h
        · exact List.mem_cons.mpr (.inl (hm.trans h))
        · exact List.mem_cons_of_mem n (List.mem_cons.mpr (.inl (hm.trans h)))
      · exact List.mem_cons_of_mem n (List.mem_cons_of_mem k hm)
    · have hfirst : (l.foldl min (min n k)) ≤ min n k := hle (List.mem_cons_self ..)
      rcases List.mem_cons.mp hx with rfl | hx
      · exact hfirst.trans (Nat.min_le_left ..)
      · rcases List.mem_cons.mp hx with rfl | hx
        · exact hfirst.trans (Nat.min_le_right ..)
        · exact hle (List.mem_cons_of_mem _ hx)

section While

variable {α : Type} {P : α → Bool} {l : List α}

theorem takeWhile_eq_filter (h : l.Pairwise fun x y => P y = true → P x = true) :
    l.takeWhile P = l.filter P := by
  induction l with
  | nil => rfl
  | cons x l ih =>
    obtain ⟨hx, hl⟩ := List.pairwise_cons.mp h
    cases hp : P x with
    | true => rw [List.takeWhile_cons_of_pos hp, List.filter_cons_of_pos hp, ih hl]
    | false =>
      rw [List.takeWhile_cons_of_neg (by simp [hp]), List.filter_cons_of_neg (by simp [hp]),
        eq_comm, List.filter_eq_nil_iff]
      intro y hy hpy
      rw [hx y hy hpy] at hp
      cases hp

theorem dropWhile_eq_filter (h : l.Pairwise fun x y => P y = true → P x = true) :
    l.dropWhile P = l.filter fun x => !P x := by
  induction l with
  | nil => rfl
  | cons x l ih =>
    obtain ⟨hx, hl⟩ := List.pairwise_cons.mp h
    cases hp : P x with
    | true =>
      rw [List.dropWhile_cons_of_pos hp, List.filter_cons_of_neg (by simp [hp]), ih hl]
    | false =>
      rw [List.dropWhile_cons_of_neg (by simp [hp]), eq_comm, List.filter_eq_self]
      intro y hy
      rcases List.mem_cons.mp hy with rfl | hy
      · simp [hp]
      · cases hpy : P y with
        | true =>
          rw [hx y hy hpy] at hp
          cases hp
        | false => rfl

theorem mem_takeWhile_of_pairwise {R : α → α → Prop} {x : α} (h : l.Pairwise R) (hx : x ∈ l)
    (hp : P x = true) (hb : ∀ y ∈ l, R y x → P y = true) : x ∈ l.takeWhile P := by
  induction l with
  | nil => exact absurd hx List.not_mem_nil
  | cons y l ih =>
    obtain ⟨hy, hl⟩ := List.pairwise_cons.mp h
    rcases List.mem_cons.mp hx with rfl | hx
    · rw [List.takeWhile_cons_of_pos hp]
      exact List.mem_cons_self ..
    · rw [List.takeWhile_cons_of_pos (hb y (by simp) (hy x hx))]
      exact List.mem_cons_of_mem _ (ih hl hx fun z hz => hb z (by simp [hz]))

end While

theorem countP_le_countP {α : Type} {P Q : α → Bool} {l l' : List α} (hd : l.Nodup)
    (h : ∀ x ∈ l, P x = true → x ∈ l' ∧ Q x = true) : l.countP P ≤ l'.countP Q := by
  have hsub : l.filter P ⊆ l'.filter Q := by
    intro x hx
    obtain ⟨hx, hp⟩ := List.mem_filter.mp hx
    exact List.mem_filter.mpr (h x hx hp)
  rw [List.countP_eq_length_filter, List.countP_eq_length_filter]
  exact ((hd.filter P).subperm hsub).length_le

theorem of_getElem?_set {α : Type} {l : List α} {i j : Nat} {x y : α}
    (h : (l.set i x)[j]? = some y) : j = i ∧ y = x ∨ j ≠ i ∧ l[j]? = some y := by
  rw [List.getElem?_set] at h
  by_cases hj : i = j
  · rw [if_pos hj] at h
    split at h
    · exact .inl ⟨hj.symm, (Option.some.inj h).symm⟩
    · cases h
  · rw [if_neg hj] at h
    exact .inr ⟨Ne.symm hj, h⟩

theorem sum_map_add {α : Type} [DecidableEq α] {l : List α} {x : α} {f g : α → Nat} {k : Nat}
    (hd : l.Nodup) (hx : x ∈ l) (h : ∀ y ∈ l, y ≠ x → g y = f y) (he : g x = f x + k) :
    (l.map g).sum = (l.map f).sum + k := by
  have hrest : (l.erase x).map g = (l.erase x).map f := by
    refine List.map_congr_left fun y hy => ?_
    obtain ⟨hne, hy⟩ := hd.mem_erase_iff.mp hy
    exact h y hy hne
  rw [← List.sum_map_erase f hx, ← List.sum_map_erase g hx, hrest, he]
  omega

theorem exists_mem_middle {α : Type} {P : α → Prop} {us vs : List α} {y : α} :
    (∃ x ∈ us ++ y :: vs, P x) ↔ P y ∨ ∃ x ∈ us ++ vs, P x := by
  simp only [List.mem_append, List.mem_cons]
  constructor
  · rintro ⟨x, hx | rfl | hx, hp⟩
    · exact .inr ⟨x, .inl hx, hp⟩
    · exact .inl hp
    · exact .inr ⟨x, .inr hx, hp⟩
  · rintro (hp | ⟨x, hx | hx, hp⟩)
    · exact ⟨y, .inr (.inl rfl), hp⟩
    · exact ⟨x, .inl hx, hp⟩
    · exact ⟨x, .inr (.inr hx), hp⟩

theorem getD_modify {α : Type} {xs : Array α} {f : α → α} {i k : Nat} {d : α}
    (h : k = i → k < xs.size) :
    (xs.modify i f).getD k d = if k = i then f (xs.getD k d) else xs.getD k d := by
  simp only [Array.getD_eq_getD_getElem?, Array.getElem?_modify]
  by_cases hk : k = i
  · subst hk
    simp [h rfl]
  · simp [hk, Ne.symm hk]

end Multiversion
