import Mathlib
import Multiversion.Position

namespace Multiversion

instance : Preorder Version where
  le_refl _ _ := Nat.le_refl _
  le_trans _ _ _ h h' i := (h i).trans (h' i)

theorem Version.ext_component {v w : Version} (hv : v.view = w.view) (hn : v.node = w.node)
    (hl : v.clock.length = w.clock.length) (hc : ∀ i, v.component i = w.component i) : v = w := by
  have clock : v.clock = w.clock := by
    refine List.ext_getElem hl fun i h1 h2 => ?_
    simpa [component, List.getD_eq_getElem?_getD, h1, h2] using hc i
  cases v
  cases w
  simp_all

namespace Position

variable {p : Position} {v w : Version} {vs : List Version} {i : Nat}

theorem le_foldl_max (f : Version → Nat) (n : Nat) (vs : List Version) :
    n ≤ vs.foldl (fun n v => max n (f v)) n ∧
      ∀ v ∈ vs, f v ≤ vs.foldl (fun n v => max n (f v)) n := by
  induction vs generalizing n with
  | nil => exact ⟨Nat.le_refl n, fun v hv => absurd hv List.not_mem_nil⟩
  | cons w vs ih =>
    obtain ⟨hn, hv⟩ := ih (max n (f w))
    refine ⟨(Nat.le_max_left ..).trans hn, ?_⟩
    intro v hm
    rcases List.mem_cons.mp hm with rfl | hm
    · exact (Nat.le_max_right ..).trans hn
    · exact hv v hm

theorem foldl_min_le (f : Version → Nat) (n : Nat) (vs : List Version) :
    vs.foldl (fun n v => min n (f v)) n ≤ n ∧
      ∀ v ∈ vs, vs.foldl (fun n v => min n (f v)) n ≤ f v := by
  induction vs generalizing n with
  | nil => exact ⟨Nat.le_refl n, fun v hv => absurd hv List.not_mem_nil⟩
  | cons w vs ih =>
    obtain ⟨hn, hv⟩ := ih (min n (f w))
    refine ⟨hn.trans (Nat.min_le_left ..), ?_⟩
    intro v hm
    rcases List.mem_cons.mp hm with rfl | hm
    · exact hn.trans (Nat.min_le_right ..)
    · exact hv v hm

theorem component_mergeWith {pick : Nat → Nat → Nat} (h0 : pick 0 0 = 0) :
    (p.mergeWith pick v vs).component i =
      vs.foldl (fun n w => pick n (w.component i)) (v.component i) := by
  let len := vs.foldl (fun n w => max n w.clock.length) v.clock.length
  have hget : (p.mergeWith pick v vs).component i =
      if i < len then vs.foldl (fun n w => pick n (w.component i)) (v.component i) else 0 := by
    simp only [Version.component, mergeWith, List.getD_eq_getElem?_getD, List.getElem?_map]
    split
    next hi =>
      rw [List.getElem?_range hi]
      rfl
    next hi =>
      rw [List.getElem?_eq_none (by simpa using hi)]
      rfl
  rw [hget]
  split
  next => rfl
  next hi =>
    obtain ⟨hv, hvs⟩ := le_foldl_max (·.clock.length) v.clock.length vs
    have zero : ∀ ws : List Version, (∀ w ∈ ws, w.component i = 0) →
        ws.foldl (fun n w => pick n (w.component i)) 0 = 0 := by
      intro ws hw
      induction ws with
      | nil => rfl
      | cons w ws ih =>
        rw [List.foldl_cons, hw w (List.mem_cons_self ..), h0]
        exact ih fun u hu => hw u (List.mem_cons_of_mem _ hu)
    have hi : len ≤ i := Nat.le_of_not_lt hi
    rw [Version.component_of_length_le (hv.trans hi), zero vs]
    intro w hw
    exact Version.component_of_length_le ((hvs w hw).trans hi)

theorem component_join : (p.join v vs).component i =
    vs.foldl (fun n w => max n (w.component i)) (v.component i) :=
  component_mergeWith (Nat.max_self 0)

theorem component_meet : (p.meet v vs).component i =
    vs.foldl (fun n w => min n (w.component i)) (v.component i) :=
  component_mergeWith (Nat.min_self 0)

theorem le_join (hw : w ∈ v :: vs) : w ≤ p.join v vs := by
  intro i
  obtain ⟨hv, hvs⟩ := le_foldl_max (·.component i) (v.component i) vs
  rw [component_join]
  rcases List.mem_cons.mp hw with rfl | hw
  · exact hv
  · exact hvs w hw

theorem meet_le (hw : w ∈ v :: vs) : p.meet v vs ≤ w := by
  intro i
  obtain ⟨hv, hvs⟩ := foldl_min_le (·.component i) (v.component i) vs
  rw [component_meet]
  rcases List.mem_cons.mp hw with rfl | hw
  · exact hv
  · exact hvs w hw

theorem meet?_le (h : p.meet? vs = some v) (hw : w ∈ vs) : v ≤ w := by
  cases vs with
  | nil => cases hw
  | cons u vs =>
    cases h
    exact meet_le hw

theorem view_le_join (hw : w ∈ v :: vs) : w.view ≤ (p.join v vs).view := by
  obtain ⟨hv, hvs⟩ := le_foldl_max (·.view) v.view vs
  rcases List.mem_cons.mp hw with rfl | hw
  · exact hv
  · exact hvs w hw

theorem seq_join_singleton {q : Position} : p.seq (q.join v [w]) = max (p.seq v) (p.seq w) :=
  component_join

section Repeated

variable {u : Version}

theorem length_join : (p.join v [w]).clock.length = max v.clock.length w.clock.length := by
  simp [join, mergeWith]

theorem component_join_singleton :
    (p.join v [w]).component i = max (v.component i) (w.component i) := component_join

theorem join_right_comm : p.join (p.join u [v]) [w] = p.join (p.join u [w]) [v] := by
  refine Version.ext_component (Nat.max_right_comm ..) rfl ?_ fun i => ?_
  · simp only [length_join, Nat.max_right_comm]
  · simp only [component_join_singleton, Nat.max_right_comm]

theorem join_idem : p.join (p.join u [v]) [v] = p.join u [v] := by
  refine Version.ext_component ?_ rfl ?_ fun i => ?_
  · exact Nat.max_eq_left (Nat.le_max_right ..)
  · simp [length_join]
  · simp [component_join_singleton]

end Repeated

end Position

abbrev Version.Grows : Version → Version → Prop :=
  Relation.ReflTransGen fun v w => ∃ (p : Position) (u : Version), w = p.join v [u]

theorem Version.Grows.le {v w : Version} (h : v.Grows w) : v ≤ w ∧ v.view ≤ w.view := by
  induction h with
  | refl => exact ⟨le_rfl, le_rfl⟩
  | tail _ hs ih =>
    obtain ⟨p, u, rfl⟩ := hs
    exact ⟨ih.1.trans (Position.le_join (List.mem_cons_self ..)),
      ih.2.trans (Position.view_le_join (List.mem_cons_self ..))⟩

end Multiversion
