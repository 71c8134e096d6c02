import Mathlib
import Multiversion.Proofs.Position

/-!
A merge picks the best number that any version has at each position, so neither the order of the
versions nor the way in which they are grouped shows in it.
-/

namespace Multiversion

def values (f : Version → Nat) (vs : List Version) : Set Nat := {n | ∃ v ∈ vs, f v = n}

section Values

variable {f : Version → Nat} {v : Version} {vs ws : List Version}

theorem values_singleton : values f [v] = {f v} := by
  ext n
  simp [values, eq_comm]

theorem values_append : values f (vs ++ ws) = values f vs ∪ values f ws := by
  ext n
  simp [values, or_and_right, exists_or]

theorem values_cons : values f (v :: vs) = {f v} ∪ values f vs := by
  rw [← List.singleton_append, values_append, values_singleton]

theorem values_congr (h : ∀ v, v ∈ vs ↔ v ∈ ws) : values f vs = values f ws := by
  ext n
  simp [values, h]

end Values

/-- Picking two by two comes to the best number of a set. -/
structure Selects (pick : Nat → Nat → Nat) (best : Set Nat → Nat → Prop) : Prop where
  singleton : ∀ n, best {n} n
  union : ∀ {s t : Set Nat} {m n : Nat}, best s m → best t n → best (s ∪ t) (pick m n)
  unique : ∀ {s : Set Nat} {m n : Nat}, best s m → best s n → m = n

theorem selects_min : Selects min IsLeast where
  singleton _ := isLeast_singleton
  union := IsLeast.union
  unique := IsLeast.unique

theorem selects_max : Selects max IsGreatest where
  singleton _ := isGreatest_singleton
  union := IsGreatest.union
  unique := IsGreatest.unique

namespace Selects

variable {pick : Nat → Nat → Nat} {best : Set Nat → Nat → Prop}

theorem self (h : Selects pick best) (n : Nat) : pick n n = n := by
  have hn : best ({n} ∪ {n}) (pick n n) := h.union (h.singleton n) (h.singleton n)
  rw [Set.union_self] at hn
  exact h.unique hn (h.singleton n)

theorem foldl (h : Selects pick best) (f : Version → Nat) (v : Version) (vs : List Version) :
    best (values f (v :: vs)) (vs.foldl (fun n w => pick n (f w)) (f v)) := by
  suffices hs : ∀ (s : Set Nat) (n : Nat), best s n →
      best (s ∪ values f vs) (vs.foldl (fun n w => pick n (f w)) n) by
    rw [values_cons]
    exact hs _ _ (h.singleton (f v))
  induction vs with
  | nil => simp [values]
  | cons w vs ih =>
    intro s n hn
    rw [values_cons, ← Set.union_assoc]
    exact ih _ _ (h.union hn (h.singleton (f w)))

end Selects

namespace Position

variable {p q : Position} {pick : Nat → Nat → Nat} {best : Set Nat → Nat → Prop}
  {u v w : Version} {vs ws : List Version} {groups : List (Position × List Version)}

structure Merges (best : Set Nat → Nat → Prop) (p : Position) (vs : List Version) (v : Version) :
    Prop where
  home : v.node = p.index
  view : best (values Version.view vs) v.view
  length : IsGreatest (values (·.clock.length) vs) v.clock.length
  component : ∀ i, best (values (·.component i) vs) (v.component i)

def merge? (p : Position) (pick : Nat → Nat → Nat) : List Version → Option Version
  | [] => none
  | v :: vs => some (p.mergeWith pick v vs)

theorem meet?_eq : p.meet? vs = p.merge? min vs := by
  cases vs <;> rfl

theorem join?_eq : p.join? vs = p.merge? max vs := by
  cases vs <;> rfl

theorem merge?_eq_none : p.merge? pick vs = none ↔ vs = [] := by
  cases vs <;> simp [merge?]

theorem merge?_rehomed : p.merge? pick vs = (q.merge? pick vs).map (·.rehomed p.index) := by
  cases vs <;> rfl

theorem merge?_map_rehomed {α : Type} {f : α → Version} {home : α → Nat} {xs : List α} :
    p.merge? pick (xs.map fun x => (f x).rehomed (home x)) = p.merge? pick (xs.map f) := by
  cases xs with
  | nil => rfl
  | cons x xs => simp [merge?, mergeWith, List.foldl_map, Version.rehomed, Version.component]

theorem merges_mergeWith (h : Selects pick best) : Merges best p (v :: vs) (p.mergeWith pick v vs)
    where
  home := rfl
  view := h.foldl Version.view v vs
  length := by
    have hl := selects_max.foldl (·.clock.length) v vs
    simpa [mergeWith] using hl
  component i := by
    rw [component_mergeWith (h.self 0)]
    exact h.foldl (·.component i) v vs

theorem Merges.unique (h : Selects pick best) (hv : Merges best p vs v) (hw : Merges best p vs w) :
    v = w := by
  refine Version.ext_component ?_ ?_ ?_ fun i => ?_
  · exact h.unique hv.view hw.view
  · exact hv.home.trans hw.home.symm
  · exact hv.length.unique hw.length
  · exact h.unique (hv.component i) (hw.component i)

theorem merge?_eq_some (h : Selects pick best) :
    p.merge? pick vs = some v ↔ vs ≠ [] ∧ Merges best p vs v := by
  cases vs with
  | nil => simp [merge?]
  | cons u vs =>
    simp only [merge?, Option.some.injEq, ne_eq, reduceCtorEq, not_false_eq_true, true_and]
    constructor
    · rintro rfl
      exact merges_mergeWith h
    · exact (merges_mergeWith h).unique h

theorem exists_merge (h : Selects pick best) (hvs : vs ≠ []) :
    ∃ v, p.merge? pick vs = some v ∧ Merges best p vs v := by
  obtain ⟨v, hv⟩ := Option.ne_none_iff_exists'.mp ((merge?_eq_none (p := p)).not.mpr hvs)
  exact ⟨v, hv, ((merge?_eq_some h).mp hv).2⟩

theorem Merges.congr (h : Merges best p vs v) (hs : ∀ v, v ∈ vs ↔ v ∈ ws) :
    Merges best p ws v where
  home := h.home
  view := values_congr hs ▸ h.view
  length := values_congr hs ▸ h.length
  component i := values_congr hs ▸ h.component i

theorem merge?_congr (h : Selects pick best) (hs : ∀ v, v ∈ vs ↔ v ∈ ws) :
    p.merge? pick vs = p.merge? pick ws := by
  have hnil : vs = [] ↔ ws = [] := by simp only [List.eq_nil_iff_forall_not_mem, hs]
  ext v
  rw [merge?_eq_some h, merge?_eq_some h, ne_eq, ne_eq, hnil]
  exact and_congr_right fun _ => ⟨fun hv => hv.congr hs, fun hv => hv.congr fun v => (hs v).symm⟩

section Groups

def merged (pick : Nat → Nat → Nat) (groups : List (Position × List Version)) : List Version :=
  groups.filterMap fun g => g.1.merge? pick g.2

theorem merged_eq_nil : merged pick groups = [] ↔ groups.flatMap (·.2) = [] := by
  simp [merged, merge?_eq_none]

theorem best_flatMap {pick' : Nat → Nat → Nat} {best' : Set Nat → Nat → Prop}
    (h : Selects pick' best') {f : Version → Nat}
    (hf : ∀ g ∈ groups, ∀ v, g.1.merge? pick g.2 = some v → best' (values f g.2) (f v))
    (hne : merged pick groups ≠ []) :
    ∃ n, best' (values f (merged pick groups)) n ∧ best' (values f (groups.flatMap (·.2))) n := by
  induction groups with
  | nil => simp [merged] at hne
  | cons g groups ih =>
    obtain ⟨hg, hgs⟩ := List.forall_mem_cons.mp hf
    rw [List.flatMap_cons]
    cases hm : g.1.merge? pick g.2 with
    | none =>
      have hrest : merged pick (g :: groups) = merged pick groups := by simp [merged, hm]
      rw [hrest] at hne ⊢
      rw [merge?_eq_none.mp hm, List.nil_append]
      exact ih hgs hne
    | some v =>
      have hrest : merged pick (g :: groups) = v :: merged pick groups := by simp [merged, hm]
      rw [hrest, values_cons, values_append]
      by_cases hn : merged pick groups = []
      · rw [hn, merged_eq_nil.mp hn]
        exact ⟨f v, by simpa [values] using h.singleton (f v), by simpa [values] using hg v hm⟩
      · obtain ⟨n, h1, h2⟩ := ih hgs hn
        exact ⟨pick' (f v) n, h.union (h.singleton _) h1, h.union (hg v hm) h2⟩

theorem Merges.flat (h : Selects pick best) (hne : merged pick groups ≠ [])
    (hv : Merges best p (merged pick groups) v) : Merges best p (groups.flatMap (·.2)) v := by
  have hm {g : Position × List Version} {w} (hw : g.1.merge? pick g.2 = some w) :
      Merges best g.1 g.2 w := ((merge?_eq_some h).mp hw).2
  refine ⟨hv.home, ?_, ?_, fun i => ?_⟩
  · obtain ⟨n, h1, h2⟩ := best_flatMap h (fun g _ w hw => (hm hw).view) hne
    rwa [h.unique hv.view h1]
  · obtain ⟨n, h1, h2⟩ := best_flatMap selects_max (fun g _ w hw => (hm hw).length) hne
    rwa [selects_max.unique hv.length h1]
  · obtain ⟨n, h1, h2⟩ := best_flatMap h (fun g _ w hw => (hm hw).component i) hne
    rwa [h.unique (hv.component i) h1]

theorem merge?_merged (h : Selects pick best) :
    p.merge? pick (merged pick groups) = p.merge? pick (groups.flatMap (·.2)) := by
  by_cases hne : merged pick groups = []
  · rw [hne, merged_eq_nil.mp hne]
  · obtain ⟨v, hv, hmerges⟩ := exists_merge (p := p) h hne
    rw [hv, eq_comm, merge?_eq_some h]
    exact ⟨merged_eq_nil.not.mp hne, hmerges.flat h hne⟩

end Groups

section Bounds

theorem Merges.dominatedBy (h : Merges IsLeast p vs v) (hw : w ∈ vs) : v.dominatedBy w = true :=
  Version.dominatedBy_iff.mpr fun i => (h.component i).2 ⟨w, hw, rfl⟩

theorem Merges.dominates (h : Merges IsGreatest p vs v) (hw : w ∈ vs) : w.dominatedBy v = true :=
  Version.dominatedBy_iff.mpr fun i => (h.component i).2 ⟨w, hw, rfl⟩

theorem Merges.greatest (h : Merges IsLeast p vs v) (hu : ∀ w ∈ vs, u.dominatedBy w = true) :
    u.dominatedBy v = true := by
  refine Version.dominatedBy_iff.mpr fun i => ?_
  obtain ⟨w, hw, hi⟩ := (h.component i).1
  exact (Version.dominatedBy_iff.mp (hu w hw) i).trans hi.le

theorem Merges.least (h : Merges IsGreatest p vs v) (hu : ∀ w ∈ vs, w.dominatedBy u = true) :
    v.dominatedBy u = true := by
  refine Version.dominatedBy_iff.mpr fun i => ?_
  obtain ⟨w, hw, hi⟩ := (h.component i).1
  exact hi.ge.trans (Version.dominatedBy_iff.mp (hu w hw) i)

end Bounds

end Position

end Multiversion
