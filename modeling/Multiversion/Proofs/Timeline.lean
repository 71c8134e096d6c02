import Mathlib
import Multiversion.Proofs.Lists
import Multiversion.Timeline

namespace Multiversion

namespace Rank

instance : PartialOrder Rank where
  le_refl _ := .inr ⟨rfl, Nat.le_refl _⟩
  le_trans a b c := by
    change (_ ∨ _) → (_ ∨ _) → (_ ∨ _)
    omega
  le_antisymm a b := by
    change (_ ∨ _) → (_ ∨ _) → _
    rw [mk.injEq]
    omega

variable {a b : Rank}

theorem le_total (a b : Rank) : a ≤ b ∨ b ≤ a := by
  change (_ ∨ _) ∨ (_ ∨ _)
  omega

theorem lt_of_not_le (h : ¬ b ≤ a) : a < b := lt_of_le_not_ge ((le_total a b).resolve_right h) h

theorem seq_le (h : a ≤ b) : a.seq ≤ b.seq := by
  change _ ∨ _ at h
  omega

end Rank

namespace Timeline

variable {α β : Type} {rank : α → Rank} {seq : α → Nat} {floor bound : Nat} {x y : α}
  {xs ys : List α}

def newest? (seq : α → Nat) (bound : Nat) (xs : List α) : Option α :=
  (xs.filter fun x => seq x ≤ bound).getLast?

theorem insert_of_le (h : ∀ y ∈ xs, rank y ≤ rank x) : insert rank x xs = xs ++ [x] := by
  have ht : xs.takeWhile (fun y => rank y ≤ rank x) = xs :=
    List.takeWhile_eq_self_iff.mpr fun y hy => decide_eq_true (h y hy)
  have hd : xs.dropWhile (fun y => rank y ≤ rank x) = [] :=
    List.dropWhile_eq_nil_iff.mpr fun y hy => decide_eq_true (h y hy)
  rw [insert, ht, hd]

theorem mem_insert : y ∈ insert rank x xs ↔ y = x ∨ y ∈ xs := by
  have hxs : y ∈ xs ↔ y ∈ xs.takeWhile (fun y => rank y ≤ rank x) ∨
      y ∈ xs.dropWhile (fun y => rank y ≤ rank x) := by
    rw [← List.mem_append, List.takeWhile_append_dropWhile]
  rw [insert, List.mem_append, List.mem_cons, hxs]
  exact or_left_comm

theorem mem_foldl_insert :
    y ∈ ys.foldl (fun xs x => insert rank x xs) xs ↔ y ∈ xs ∨ y ∈ ys := by
  induction ys generalizing xs with
  | nil => simp
  | cons x ys ih =>
    rw [List.foldl_cons, ih, mem_insert, List.mem_cons, or_assoc]
    exact or_left_comm

theorem foldl_insert_of_le {r : Rank} (hxs : ∀ x ∈ xs, rank x ≤ r) (hys : ∀ y ∈ ys, rank y = r) :
    ys.foldl (fun xs x => insert rank x xs) xs = xs ++ ys := by
  induction ys generalizing xs with
  | nil => exact (List.append_nil _).symm
  | cons y ys ih =>
    have hy : rank y = r := hys y (List.mem_cons_self ..)
    rw [List.foldl_cons, insert_of_le (hy ▸ hxs), ih, List.append_assoc]
    · rfl
    · intro x hx
      rcases List.mem_append.mp hx with hx | hx
      · exact hxs x hx
      · rw [List.mem_singleton.mp hx, hy]
    · exact fun x hx => hys x (List.mem_cons_of_mem _ hx)

theorem newest?_append :
    newest? seq bound (xs ++ ys) = (newest? seq bound ys).or (newest? seq bound xs) := by
  rw [newest?, List.filter_append, List.getLast?_append]
  rfl

theorem newest?_eq_none (h : ∀ x ∈ xs, bound < seq x) : newest? seq bound xs = none := by
  rw [newest?, List.getLast?_eq_none_iff, List.filter_eq_nil_iff]
  intro x hx
  rw [decide_eq_true_eq]
  exact Nat.not_le_of_lt (h x hx)

section Cut

theorem newest?_suffix (hx : seq x ≤ bound) :
    newest? seq bound (xs ++ x :: ys) = newest? seq bound (x :: ys) := by
  have hn : newest? seq bound [x] = some x := by simp [newest?, hx]
  rw [← List.singleton_append, newest?_append, newest?_append, hn]
  cases newest? seq bound ys <;> rfl

theorem exists_newest? (hx : x ∈ xs) (hb : seq x ≤ bound) :
    ∃ y, newest? seq bound xs = some y := by
  refine Option.ne_none_iff_exists'.mp fun hn => ?_
  rw [newest?, List.getLast?_eq_none_iff, List.filter_eq_nil_iff] at hn
  exact hn x hx (decide_eq_true hb)

theorem newest?_mem (h : newest? seq bound xs = some x) : x ∈ xs ∧ seq x ≤ bound := by
  have hx := List.mem_filter.mp (List.mem_of_getLast? h)
  exact ⟨hx.1, of_decide_eq_true hx.2⟩

theorem prune_cut (seq : α → Nat) (bound : Nat) (xs : List α) :
    upTo seq bound xs = [] ∧ prune seq bound xs = xs ∨
    ∃ gone x, upTo seq bound xs = gone ++ [x] ∧
      xs = gone ++ x :: xs.dropWhile (fun x => seq x ≤ bound) ∧
      prune seq bound xs = x :: xs.dropWhile fun x => seq x ≤ bound := by
  have hxs : xs = upTo seq bound xs ++ xs.dropWhile fun x => seq x ≤ bound :=
    List.takeWhile_append_dropWhile.symm
  rw [prune]
  generalize (xs.dropWhile fun x => seq x ≤ bound) = later at hxs ⊢
  rcases (upTo seq bound xs).eq_nil_or_concat with hu | ⟨gone, x, hu⟩
  · exact .inl ⟨hu, by simp [hu]⟩
  · rw [hu, List.concat_eq_append] at hxs ⊢
    exact .inr ⟨gone, x, rfl, by simpa using hxs, by rw [hxs]; simp⟩

theorem newest?_prune (h : floor ≤ bound) :
    newest? seq bound (prune seq floor xs) = newest? seq bound xs := by
  rcases prune_cut seq floor xs with ⟨-, hp⟩ | ⟨gone, x, hu, hxs, hp⟩
  · rw [hp]
  · have hx : x ∈ upTo seq floor xs := hu ▸ List.mem_append_right gone (List.mem_singleton_self x)
    have hfloor : seq x ≤ floor := by simpa using List.mem_takeWhile_imp hx
    rw [hp]
    nth_rewrite 2 [hxs]
    rw [newest?_suffix (hfloor.trans h)]

theorem length_prune :
    (prune seq bound xs).length + ((upTo seq bound xs).length - 1) = xs.length := by
  have h : (upTo seq bound xs).length ≤ xs.length := (List.takeWhile_sublist _).length_le
  rw [prune, List.length_drop]
  omega

theorem prune_ne_nil (h : xs ≠ []) : prune seq bound xs ≠ [] := by
  rcases prune_cut seq bound xs with ⟨-, hp⟩ | ⟨gone, x, -, -, hp⟩
  · rwa [hp]
  · rw [hp]
    exact List.cons_ne_nil _ _

theorem upTo_eq_nil_iff : upTo seq bound xs = [] ↔ ∀ x ∈ xs.head?, bound < seq x := by
  cases xs <;> simp [upTo]

theorem upTo_eq_nil_of_le (h : bound ≤ floor) (hn : upTo seq floor xs = []) :
    upTo seq bound xs = [] :=
  upTo_eq_nil_iff.mpr fun x hx => h.trans_lt (upTo_eq_nil_iff.mp hn x hx)

theorem upTo_dropWhile : upTo seq bound (xs.dropWhile fun x => seq x ≤ bound) = [] := by
  refine upTo_eq_nil_iff.mpr fun x hx => ?_
  have hnot := List.head?_dropWhile_not (fun x => decide (seq x ≤ bound)) xs
  rw [Option.mem_def.mp hx] at hnot
  simpa using hnot

theorem prune_append (hx : ∀ y ∈ xs ++ [x], seq y ≤ bound) :
    prune seq bound (xs ++ x :: ys) = prune seq bound (x :: ys) := by
  have hup : upTo seq bound (xs ++ x :: ys) = xs ++ upTo seq bound (x :: ys) :=
    List.takeWhile_append_of_pos fun y hy => decide_eq_true (hx y (by simp [hy]))
  have hlen : 0 < (upTo seq bound (x :: ys)).length := by simp [upTo, hx x]
  rw [prune, hup, List.length_append, Nat.add_sub_assoc hlen, List.drop_append]
  simp [prune]

theorem prune_prune :
    prune seq bound (prune seq floor xs) = prune seq (max floor bound) xs := by
  rcases Nat.le_total floor bound with h | h
  · rw [Nat.max_eq_right h]
    rcases prune_cut seq floor xs with ⟨-, hp⟩ | ⟨gone, x, hu, hxs, hp⟩
    · rw [hp]
    · have hle : ∀ y ∈ gone ++ [x], seq y ≤ bound := by
        intro y hy
        rw [← hu] at hy
        exact (by simpa using List.mem_takeWhile_imp hy : seq y ≤ floor).trans h
      rw [hp]
      nth_rewrite 2 [hxs]
      exact (prune_append hle).symm
  · rw [Nat.max_eq_left h]
    rcases prune_cut seq floor xs with ⟨hu, hp⟩ | ⟨gone, x, -, -, hp⟩
    · rw [hp, prune, upTo_eq_nil_of_le h hu]
      rfl
    · -- above the member that is left there is nothing for the lower bound
      have hlater : upTo seq bound (xs.dropWhile fun x => seq x ≤ floor) = [] :=
        upTo_eq_nil_of_le h upTo_dropWhile
      rw [hp]
      by_cases hx : seq x ≤ bound
      · rw [upTo] at hlater
        simp [prune, upTo, hx, hlater]
      · simp [prune, upTo, hx]

def Ascending (seq : α → Nat) (xs : List α) : Prop := xs.Pairwise fun x y => seq x ≤ seq y

theorem Ascending.upTo_eq (h : Ascending seq xs) (bound : Nat) :
    upTo seq bound xs = xs.filter fun x => seq x ≤ bound :=
  takeWhile_eq_filter (h.imp fun hxy hy => by simp at hy ⊢; omega)

theorem Ascending.dropWhile_eq (h : Ascending seq xs) :
    (xs.dropWhile fun x => seq x ≤ bound) = xs.filter fun x => bound < seq x := by
  rw [dropWhile_eq_filter (h.imp fun hxy hy => by simp at hy ⊢; omega)]
  refine List.filter_congr fun x _ => ?_
  by_cases hx : seq x ≤ bound
  · simp [hx]
  · simp [hx, Nat.lt_of_not_le hx]

theorem Ascending.prune_cut (h : Ascending seq xs) (bound : Nat) :
    (∀ x ∈ xs, bound < seq x) ∧ prune seq bound xs = xs ∨
    ∃ gone x later, xs = gone ++ x :: later ∧ prune seq bound xs = x :: later ∧
      (∀ y ∈ gone ++ [x], seq y ≤ bound) ∧ ∀ y ∈ later, bound < seq y := by
  rcases Timeline.prune_cut seq bound xs with
    ⟨hn, hp⟩ | ⟨gone, x, hu, hxs, hp⟩
  · rw [h.upTo_eq, List.filter_eq_nil_iff] at hn
    exact .inl ⟨fun x hx => by simpa using hn x hx, hp⟩
  · refine .inr ⟨gone, x, _, hxs, hp, fun y hy => ?_, fun y hy => ?_⟩
    · rw [← hu, upTo] at hy
      simpa using List.mem_takeWhile_imp hy
    · rw [h.dropWhile_eq] at hy
      simpa using (List.mem_filter.mp hy).2

theorem Ascending.superseded (h : Ascending seq xs) (bound : Nat) :
    ∃ gone, xs = gone ++ prune seq bound xs ∧
      ∀ us x vs, xs = us ++ x :: vs → (us.length < gone.length ↔ ∃ y ∈ vs, seq y ≤ bound) := by
  rcases h.prune_cut bound with ⟨hall, hp⟩ | ⟨gone, x, later, hxs, hp, hle, hlater⟩
  · refine ⟨[], by rw [hp]; rfl, fun us x vs hs => ?_⟩
    simp only [List.length_nil, not_lt_zero, false_iff, not_exists, not_and, not_le]
    exact fun y hy => hall y (by simp [hs, hy])
  · refine ⟨gone, by rw [hp, hxs], fun us y vs hs => ?_⟩
    have above (hvs : vs ⊆ later) : ¬ ∃ z ∈ vs, seq z ≤ bound :=
      fun ⟨z, hz, hb⟩ => absurd hb (Nat.not_le.mpr (hlater z (hvs hz)))
    rcases List.append_eq_append_iff.mp (hs.symm.trans hxs) with
      ⟨mid, hg, hvs⟩ | ⟨mid, hu, hlat⟩
    · cases mid with
      | nil =>
        obtain ⟨-, rfl⟩ := List.cons.inj hvs
        simpa [hg] using above (List.Subset.refl _)
      | cons z mid =>
        obtain ⟨-, rfl⟩ := List.cons.inj hvs
        have hx : seq x ≤ bound := hle x (by simp)
        simp only [hg, List.length_append, List.length_cons]
        exact ⟨fun _ => ⟨x, by simp, hx⟩, fun _ => by omega⟩
    · have hvs : vs ⊆ later := by
        cases mid with
        | nil => simp_all
        | cons z mid =>
          obtain ⟨-, rfl⟩ := List.cons.inj hlat
          exact fun z hz => by simp [hz]
      simpa [hu] using above hvs

theorem Ascending.prune_eq (h : Ascending seq xs) :
    prune seq bound xs =
      (newest? seq bound xs).toList ++ xs.filter fun x => bound < seq x := by
  rcases h.prune_cut bound with ⟨hall, hp⟩ | ⟨gone, x, later, hxs, hp, hle, hlater⟩
  · rw [newest?_eq_none hall, hp, eq_comm]
    exact List.filter_eq_self.mpr fun x hx => decide_eq_true (hall x hx)
  · have hx : seq x ≤ bound := hle x (by simp)
    have hnewest : newest? seq bound xs = some x := by
      rw [hxs, newest?_suffix hx, ← List.singleton_append, newest?_append, newest?_eq_none hlater]
      simp [newest?, hx]
    have habove : (xs.filter fun x => bound < seq x) = later := by
      rw [hxs, ← List.singleton_append, ← List.append_assoc, List.filter_append,
        List.filter_eq_nil_iff.mpr fun y hy => by simpa using hle y hy]
      exact List.filter_eq_self.mpr fun y hy => decide_eq_true (hlater y hy)
    rw [hp, hnewest, habove]
    rfl

theorem Ascending.reached_prune (h : Ascending seq xs) :
    ((prune seq bound xs).filter fun x => seq x ≤ bound) = (newest? seq bound xs).toList := by
  have habove : ((xs.filter fun x => bound < seq x).filter fun x => seq x ≤ bound) = [] := by
    rw [List.filter_filter, List.filter_eq_nil_iff]
    intro x _
    simp
  rw [h.prune_eq, List.filter_append, habove, List.append_nil]
  cases hn : newest? seq bound xs with
  | none => rfl
  | some x => simp [(newest?_mem hn).2]

theorem Ascending.above_prune (h : Ascending seq xs) :
    ((prune seq bound xs).filter fun x => bound < seq x) = xs.filter fun x => bound < seq x := by
  simp only [h.prune_eq, List.filter_append, List.filter_filter, Bool.and_self]
  cases hn : newest? seq bound xs with
  | none => rfl
  | some x => simp [(newest?_mem hn).2]

end Cut

section Sorted

def Sorted (rank : α → Rank) (xs : List α) : Prop := xs.Pairwise fun x y => rank x ≤ rank y

theorem Sorted.ascending (h : Sorted rank xs) : Ascending (fun x => (rank x).seq) xs :=
  h.imp Rank.seq_le

theorem Sorted.insert_cut (h : Sorted rank xs) (x : α) :
    ∃ us vs, xs = us ++ vs ∧ insert rank x xs = us ++ x :: vs ∧
      (∀ y ∈ us, rank y ≤ rank x) ∧ ∀ y ∈ vs, rank x < rank y := by
  refine ⟨_, _, List.takeWhile_append_dropWhile.symm, rfl, fun y hy => ?_, fun y hy => ?_⟩
  · simpa using List.mem_takeWhile_imp hy
  · rw [dropWhile_eq_filter (h.imp fun hyz hz => by simp at hz ⊢; exact hyz.trans hz)] at hy
    have hn : ¬ rank y ≤ rank x := by simpa using (List.mem_filter.mp hy).2
    exact Rank.lt_of_not_le hn

theorem Sorted.insert (h : Sorted rank xs) : Sorted rank (insert rank x xs) := by
  obtain ⟨us, vs, rfl, hi, hu, hv⟩ := h.insert_cut x
  obtain ⟨h1, h2, h3⟩ := List.pairwise_append.mp h
  rw [hi]
  refine List.pairwise_append.mpr ⟨h1, List.pairwise_cons.mpr ⟨fun y hy => (hv y hy).le, h2⟩, ?_⟩
  intro y hy z hz
  rcases List.mem_cons.mp hz with rfl | hz
  · exact hu y hy
  · exact h3 y hy z hz

theorem Sorted.filter_insert (h : Sorted rank xs) (r : Rank) :
    (Timeline.insert rank x xs).filter (rank · = r) = (xs ++ [x]).filter (rank · = r) := by
  obtain ⟨us, vs, rfl, hi, hu, hv⟩ := h.insert_cut x
  rw [hi, List.filter_append, List.filter_append, List.filter_append, List.append_assoc]
  by_cases hr : rank x = r
  · have hnone : vs.filter (rank · = r) = [] := by
      rw [List.filter_eq_nil_iff]
      intro y hy
      simpa [← hr] using (hv y hy).ne'
    simp [hr, hnone]
  · simp [hr]

def sort (rank : α → Rank) (xs : List α) : List α := xs.mergeSort fun x y => rank x ≤ rank y

theorem sorted_sort : Sorted rank (sort rank xs) := by
  have hs : (sort rank xs).Pairwise fun x y => decide (rank x ≤ rank y) = true :=
    List.pairwise_mergeSort (fun x y z hxy hyz => by simp at hxy hyz ⊢; exact hxy.trans hyz)
      (fun x y => by simpa using Rank.le_total (rank x) (rank y)) xs
  simpa [Sorted] using hs

theorem filter_sort (r : Rank) : (sort rank xs).filter (rank · = r) = xs.filter (rank · = r) := by
  have hequal : (xs.filter (rank · = r)).Pairwise fun x y => decide (rank x ≤ rank y) = true := by
    refine List.pairwise_of_forall_mem_list fun x hx y hy => ?_
    simp only [List.mem_filter, decide_eq_true_eq] at hx hy ⊢
    rw [hx.2, hy.2]
  have hsub : (xs.filter (rank · = r)).Sublist (sort rank xs) :=
    List.sublist_mergeSort (fun x y z hxy hyz => by simp at hxy hyz ⊢; exact hxy.trans hyz)
      (fun x y => by simpa using Rank.le_total (rank x) (rank y)) hequal List.filter_sublist
  have hfilter := hsub.filter (rank · = r)
  simp only [List.filter_filter, Bool.and_self] at hfilter
  exact (hfilter.eq_of_length ((List.mergeSort_perm xs _).filter _).length_eq.symm).symm

theorem mem_of_filter (h : ∀ r, xs.filter (rank · = r) = ys.filter (rank · = r)) (hx : x ∈ xs) :
    x ∈ ys := by
  have hm : x ∈ xs.filter (rank · = rank x) := List.mem_filter.mpr ⟨hx, by simp⟩
  rw [h] at hm
  exact (List.mem_filter.mp hm).1

theorem Sorted.ext (hxs : Sorted rank xs) (hys : Sorted rank ys)
    (h : ∀ r, xs.filter (rank · = r) = ys.filter (rank · = r)) : xs = ys := by
  induction xs generalizing ys with
  | nil =>
    refine (List.eq_nil_iff_forall_not_mem.mpr fun y hy => ?_).symm
    exact absurd (mem_of_filter (fun r => (h r).symm) hy) List.not_mem_nil
  | cons x xs ih =>
    cases ys with
    | nil => exact absurd (mem_of_filter h (List.mem_cons_self ..)) List.not_mem_nil
    | cons y ys =>
      obtain ⟨hx, hxs'⟩ := List.pairwise_cons.mp hxs
      obtain ⟨hy, hys'⟩ := List.pairwise_cons.mp hys
      have hyx : rank y ≤ rank x := by
        rcases List.mem_cons.mp (mem_of_filter h (List.mem_cons_self ..)) with e | hm
        · rw [e]
        · exact hy x hm
      have hxy : rank x ≤ rank y := by
        rcases List.mem_cons.mp (mem_of_filter (fun r => (h r).symm) (List.mem_cons_self ..)) with
          e | hm
        · rw [e]
        · exact hx y hm
      have hrank : rank y = rank x := le_antisymm hyx hxy
      have hhead := h (rank x)
      rw [List.filter_cons_of_pos (by simp), List.filter_cons_of_pos (by simp [hrank])] at hhead
      obtain ⟨rfl, -⟩ := List.cons.inj hhead
      refine congrArg (x :: ·) (ih hxs' hys' fun r => ?_)
      have hr := h r
      by_cases e : rank x = r <;> simpa [List.filter_cons, e] using hr

theorem Sorted.eq_sort (h : Sorted rank ys)
    (hf : ∀ r, ys.filter (rank · = r) = xs.filter (rank · = r)) : ys = sort rank xs :=
  h.ext sorted_sort fun r => (hf r).trans (filter_sort r).symm

theorem Sorted.foldl_insert (h : Sorted rank xs) :
    ys.foldl (fun xs y => Timeline.insert rank y xs) xs = sort rank (xs ++ ys) := by
  induction ys generalizing xs with
  | nil => exact h.eq_sort fun r => by simp
  | cons y ys ih =>
    rw [List.foldl_cons, ih h.insert]
    refine Sorted.eq_sort sorted_sort fun r => ?_
    rw [filter_sort, List.filter_append, h.filter_insert, ← List.filter_append, List.append_assoc]
    rfl

theorem sort_map {f : α → β} {rank : β → Rank} :
    sort rank (xs.map f) = (sort (fun x => rank (f x)) xs).map f := by
  rw [sort, sort, List.map_mergeSort]
  exact fun _ _ _ _ => rfl

theorem sort_flatMap {g : α → List β} {rank' : β → Rank}
    (h : ∀ x, ∀ y ∈ g x, rank' y = rank x) :
    sort rank' (xs.flatMap g) = (sort rank xs).flatMap g := by
  refine (Sorted.eq_sort ?_ fun r => ?_).symm
  · refine List.pairwise_flatMap.mpr ⟨fun x _ => ?_, sorted_sort.imp fun hxy a ha b hb => ?_⟩
    · refine List.pairwise_of_forall_mem_list fun a ha b hb => ?_
      rw [h x a ha, h x b hb]
    · rwa [h _ a ha, h _ b hb]
  · have hfilter (xs : List α) :
        (xs.flatMap g).filter (rank' · = r) = (xs.filter (rank · = r)).flatMap g := by
      induction xs with
      | nil => rfl
      | cons x xs ih =>
        rw [List.flatMap_cons, List.filter_append, ih]
        by_cases hx : rank x = r
        · have hall : (g x).filter (rank' · = r) = g x :=
            List.filter_eq_self.mpr fun y hy => by simp [h x y hy, hx]
          simp [hx, hall]
        · have hnone : (g x).filter (rank' · = r) = [] :=
            List.filter_eq_nil_iff.mpr fun y hy => by simp [h x y hy, hx]
          simp [hx, hnone]
    rw [hfilter, hfilter, filter_sort]

theorem sort_eq_of_perm (hp : xs.Perm ys) (hd : (xs.map rank).Nodup) :
    sort rank xs = sort rank ys := by
  have hsort : (sort rank xs).Perm (sort rank ys) :=
    ((List.mergeSort_perm xs _).trans hp).trans (List.mergeSort_perm ys _).symm
  refine hsort.eq_of_pairwise (fun x y hx hy hxy hyx => ?_) sorted_sort sorted_sort
  have hx : x ∈ xs := (List.mergeSort_perm xs _).mem_iff.mp hx
  have hy : y ∈ xs := hp.mem_iff.mpr ((List.mergeSort_perm ys _).mem_iff.mp hy)
  exact List.inj_on_of_nodup_map hd hx hy (le_antisymm hxy hyx)

end Sorted

end Timeline

end Multiversion
