import Mathlib
import Multiversion.Queue.Readiness

namespace Multiversion

namespace Entry

/-- Every entry of the line up to the order value of `e` has received its commit command. -/
def Decided (es : List Entry) (e : Entry) : Prop :=
  ∀ f ∈ es, f.order ≤ e.order → f.received = true

instance (es : List Entry) : DecidablePred (Decided es) := fun e =>
  inferInstanceAs (Decidable (∀ f ∈ es, f.order ≤ e.order → f.received = true))

end Entry

namespace Readiness

variable {es : List Entry} {run : Option Run} {offset : Nat}

theorem passReady_snd : (passReady run es).2 = es.dropWhile (·.ready) := by
  induction es generalizing run with
  | nil => rfl
  | cons e es ih =>
    cases he : e.ready with
    | true => simp [passReady, he, ih]
    | false => simp [passReady, he]

theorem number_cons (e : Entry) :
    number offset (e :: es) = ⟨e.admission, offset⟩ :: number (offset + 1) es := by
  simp [number]

theorem number_admissions : (number offset es).map (·.admission) = es.map (·.admission) := by
  induction es generalizing offset with
  | nil => rfl
  | cons e es ih => simp [number_cons, ih]

theorem le_sub_of_mem_number {g : Grant} (h : g ∈ number offset es) : offset ≤ g.sub := by
  induction es generalizing offset with
  | nil => simp [number] at h
  | cons e es ih =>
    rw [number_cons, List.mem_cons] at h
    rcases h with rfl | h
    · exact Nat.le_refl _
    · exact Nat.le_of_succ_le (ih h)

theorem number_ascending : (number offset es).Pairwise fun g h => g.sub < h.sub := by
  induction es generalizing offset with
  | nil => simp [number]
  | cons e es ih =>
    rw [number_cons]
    exact List.pairwise_cons.mpr ⟨fun g hg => le_sub_of_mem_number hg, ih⟩

section Batch

variable {e f : Entry}

theorem order_of_mem_batch (hf : f ∈ e :: es.takeWhile (·.order = e.order)) :
    f.order = e.order := by
  rcases List.mem_cons.mp hf with rfl | hf
  · rfl
  · simpa using List.mem_takeWhile_imp hf

theorem cons_eq_batch_append (e : Entry) (es : List Entry) :
    e :: es = (e :: es.takeWhile (·.order = e.order)) ++ es.dropWhile (·.order = e.order) := by
  simp [List.takeWhile_append_dropWhile]

theorem lt_of_mem_dropWhile (hs : (e :: es).Pairwise (·.order ≤ ·.order))
    (hf : f ∈ es.dropWhile (·.order = e.order)) : e.order < f.order := by
  induction es with
  | nil => simp at hf
  | cons d es ih =>
    obtain ⟨he, hs'⟩ := List.pairwise_cons.mp hs
    by_cases hd : d.order = e.order
    · rw [List.dropWhile_cons_of_pos (by simpa using hd)] at hf
      exact ih (List.pairwise_cons.mpr ⟨fun x hx => he x (by simp [hx]), hs'.of_cons⟩) hf
    · rw [List.dropWhile_cons_of_neg (by simpa using hd)] at hf
      have hed : e.order < d.order := by
        have := he d (by simp)
        omega
      rcases List.mem_cons.mp hf with rfl | hf
      · exact hed
      · exact hed.trans_le ((List.pairwise_cons.mp hs').1 f hf)

end Batch

theorem grantBatches_admissions (hs : es.Pairwise (·.order ≤ ·.order)) :
    (grantBatches run es).map (·.admission) =
      (es.filter (Entry.Decided es)).map (·.admission) := by
  induction run, es using grantBatches.induct with
  | case1 => simp [grantBatches]
  | case2 run e es batch hall ih =>
    have hreceived (f) (hf : f ∈ batch) : f.received = true := List.all_eq_true.mp hall f hf
    have hsplit : e :: es = batch ++ es.dropWhile (·.order = e.order) := cons_eq_batch_append e es
    rw [grantBatches, if_pos hall, List.map_append, number_admissions,
      ih (hs.sublist (hsplit ▸ List.sublist_append_right _ _)), hsplit, List.filter_append,
      List.map_append]
    congr 2
    · symm
      rw [List.filter_eq_self]
      intro f hf
      rw [decide_eq_true_iff]
      intro g hg hle
      rcases List.mem_append.mp hg with hg | hg
      · exact hreceived g hg
      · have := lt_of_mem_dropWhile hs hg
        have := order_of_mem_batch hf
        omega
    · apply List.filter_congr
      intro f hf
      rw [decide_eq_decide]
      refine ⟨fun h g hg hle => ?_, fun h g hg hle => h g (by simp [hg]) hle⟩
      rcases List.mem_append.mp hg with hg | hg
      · exact hreceived g hg
      · exact h g hg hle
  | case3 run e es batch hall =>
    rw [grantBatches, if_neg hall, List.map_nil, eq_comm, List.map_eq_nil_iff,
      List.filter_eq_nil_iff]
    intro f hf hd
    rw [decide_eq_true_iff] at hd
    apply hall
    rw [List.all_eq_true]
    intro g hg
    refine hd g (cons_eq_batch_append e es ▸ List.mem_append_left _ hg) ?_
    rw [order_of_mem_batch hg]
    rcases List.mem_cons.mp hf with rfl | hf
    · exact Nat.le_refl _
    · exact (List.pairwise_cons.mp hs).1 f hf

theorem grantBatches_ascending (order : Nat → Nat) (ho : ∀ e ∈ es, order e.admission = e.order)
    (hs : es.Pairwise (·.order ≤ ·.order)) :
    (grantBatches run es).Pairwise fun g h =>
      order g.admission = order h.admission → g.sub < h.sub := by
  induction run, es using grantBatches.induct with
  | case1 => simp [grantBatches]
  | case2 run e es batch hall ih =>
    have hsplit : e :: es = batch ++ es.dropWhile (·.order = e.order) := cons_eq_batch_append e es
    have hsub : (es.dropWhile (·.order = e.order)).Sublist (e :: es) :=
      hsplit ▸ List.sublist_append_right _ _
    rw [grantBatches, if_pos hall, List.pairwise_append]
    refine ⟨?_, ih (fun f hf => ho f (hsub.subset hf)) (hs.sublist hsub), ?_⟩
    · exact number_ascending.imp fun {g h} (hlt : g.sub < h.sub) _ => hlt
    intro g hg h hh heq
    have hg' := List.mem_map_of_mem (f := (·.admission)) hg
    have hh' := List.mem_map_of_mem (f := (·.admission)) hh
    rw [number_admissions] at hg'
    rw [grantBatches_admissions (hs.sublist hsub)] at hh'
    obtain ⟨x, hx, hgx⟩ := List.mem_map.mp hg'
    obtain ⟨y, hy, hhy⟩ := List.mem_map.mp hh'
    have hy' := (List.mem_filter.mp hy).1
    have hxo := ho x (hsplit ▸ List.mem_append_left _ hx)
    have hyo := ho y (hsub.subset hy')
    have := order_of_mem_batch hx
    have := lt_of_mem_dropWhile hs hy'
    rw [← hgx, ← hhy, hxo, hyo] at heq
    omega
  | case3 run e es batch hall =>
    rw [grantBatches, if_neg hall]
    exact List.Pairwise.nil

section Grants

variable (hs : es.Pairwise (·.order ≤ ·.order))
include hs

theorem sorted_dropWhile : (es.dropWhile (·.ready)).Pairwise (·.order ≤ ·.order) :=
  hs.sublist (List.dropWhile_sublist _)

theorem grants_admissions (hr : ∀ e ∈ es, e.ready = true → e.received = true) :
    (grants es).map (·.admission) =
      ((es.dropWhile (·.ready)).filter (Entry.Decided es)).map (·.admission) := by
  change (grantBatches (passReady none es).1 (passReady none es).2).map _ = _
  rw [passReady_snd, grantBatches_admissions (sorted_dropWhile hs)]
  congr 1
  apply List.filter_congr
  intro f hf
  rw [decide_eq_decide]
  refine ⟨fun h g hg hle => ?_, fun h g hg hle => h g ((List.dropWhile_sublist _).subset hg) hle⟩
  rw [← List.takeWhile_append_dropWhile (p := (·.ready)) (l := es), List.mem_append] at hg
  rcases hg with hg | hg
  · exact hr g ((List.takeWhile_sublist _).subset hg) (List.mem_takeWhile_imp hg)
  · exact h g hg hle

theorem grants_ascending (order : Nat → Nat) (ho : ∀ e ∈ es, order e.admission = e.order) :
    (grants es).Pairwise fun g h => order g.admission = order h.admission → g.sub < h.sub := by
  change (grantBatches (passReady none es).1 (passReady none es).2).Pairwise _
  rw [passReady_snd]
  exact grantBatches_ascending order (fun e he => ho e ((List.dropWhile_sublist _).subset he))
    (sorted_dropWhile hs)

end Grants

end Readiness

end Multiversion
