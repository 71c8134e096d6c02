import Mathlib
import Multiversion.Cluster.View

namespace Multiversion.ViewRegistry

variable {r : ViewRegistry} {v w : View} {vs l : List View} {least id : Nat}

/-- `r` is what purges have left of the views `vs`, which were installed in this order. -/
inductive Records : List View → ViewRegistry → Prop
  | empty : Records [] {}
  | install {vs : List View} {r : ViewRegistry} (h : Records vs r) (v : View) :
      Records (vs ++ [v]) (r.install v)
  | purge {vs : List View} {r : ViewRegistry} (h : Records vs r) (least : Nat) :
      Records vs (r.purge least).1

structure Valid (r : ViewRegistry) : Prop where
  sorted : r.views.Pairwise (·.id < ·.id)
  empty : r.newest = none → r.views = []
  newest : ∀ id, r.newest = some id → (∃ v ∈ r.views, v.id = id) ∧ ∀ v ∈ r.views, v.id ≤ id

section Insert

theorem mem_insert (hl : l.Pairwise (·.id < ·.id)) :
    w ∈ insert v l ↔ w = v ∨ w ∈ l ∧ w.id ≠ v.id := by
  induction l with
  | nil => simp [insert]
  | cons u l ih =>
    obtain ⟨hu, hl⟩ := List.pairwise_cons.mp hl
    have above (h : v.id ≤ u.id) (hw : w ∈ l) : w.id ≠ v.id := by
      have := hu w hw
      omega
    rw [insert]
    split
    next hvu =>
      have hne : u.id ≠ v.id := by omega
      simp only [List.mem_cons]
      constructor
      · rintro (rfl | rfl | hw)
        · exact .inl rfl
        · exact .inr ⟨.inl rfl, hne⟩
        · exact .inr ⟨.inr hw, above hvu.le hw⟩
      · exact fun h => h.imp_right (·.1)
    next hvu =>
      split
      next he =>
        simp only [List.mem_cons]
        constructor
        · exact fun h => h.imp_right fun hw => ⟨.inr hw, above he.le hw⟩
        · rintro (rfl | ⟨rfl | hw, hne⟩)
          · exact .inl rfl
          · exact absurd he.symm hne
          · exact .inr hw
      next hne =>
        simp only [List.mem_cons, ih hl]
        constructor
        · rintro (rfl | rfl | ⟨hw, hwv⟩)
          · exact .inr ⟨.inl rfl, Ne.symm hne⟩
          · exact .inl rfl
          · exact .inr ⟨.inr hw, hwv⟩
        · rintro (rfl | ⟨rfl | hw, hwv⟩)
          · exact .inr (.inl rfl)
          · exact .inl rfl
          · exact .inr (.inr ⟨hw, hwv⟩)

theorem pairwise_insert (hl : l.Pairwise (·.id < ·.id)) :
    (insert v l).Pairwise (·.id < ·.id) := by
  induction l with
  | nil => exact List.pairwise_singleton ..
  | cons u l ih =>
    obtain ⟨hu, htail⟩ := List.pairwise_cons.mp hl
    rw [insert]
    split
    next hvu =>
      refine List.pairwise_cons.mpr ⟨List.forall_mem_cons.mpr ⟨hvu, fun w hw => ?_⟩, hl⟩
      exact hvu.trans (hu w hw)
    next hvu =>
      split
      next he => exact List.pairwise_cons.mpr ⟨fun w hw => he ▸ hu w hw, htail⟩
      next hne =>
        refine List.pairwise_cons.mpr ⟨fun w hw => ?_, ih htail⟩
        rcases (mem_insert htail).mp hw with rfl | ⟨hw, -⟩
        · omega
        · exact hu w hw

end Insert

namespace Valid

theorem install (h : r.Valid) (v : View) : (r.install v).Valid := by
  refine ⟨pairwise_insert h.sorted, fun hn => ?_, fun id hn => ?_⟩
  · rw [ViewRegistry.install] at hn
    cases hr : r.newest <;> simp [hr] at hn
  · have hmem (w) : w ∈ (r.install v).views ↔ _ := mem_insert h.sorted
    cases hr : r.newest with
    | none =>
      obtain rfl : v.id = id := by simpa [ViewRegistry.install, hr] using hn
      refine ⟨⟨v, (hmem v).mpr (.inl rfl), rfl⟩, fun w hw => ?_⟩
      rcases (hmem w).mp hw with rfl | ⟨hw, -⟩
      · exact le_rfl
      · rw [h.empty hr] at hw
        cases hw
    | some k =>
      obtain rfl : max k v.id = id := by simpa [ViewRegistry.install, hr] using hn
      obtain ⟨⟨u, hu, huk⟩, hle⟩ := h.newest k hr
      refine ⟨?_, fun w hw => ?_⟩
      · by_cases hkv : k ≤ v.id
        · exact ⟨v, (hmem v).mpr (.inl rfl), (Nat.max_eq_right hkv).symm⟩
        · exact ⟨u, (hmem u).mpr (.inr ⟨hu, by omega⟩), by omega⟩
      · rcases (hmem w).mp hw with rfl | ⟨hw, -⟩
        · exact Nat.le_max_right ..
        · exact (hle w hw).trans (Nat.le_max_left ..)

theorem purge (h : r.Valid) (least : Nat) : (r.purge least).1.Valid := by
  refine ⟨h.sorted.filter _, fun hn => ?_, fun id hn => ?_⟩
  · change r.views.filter _ = []
    rw [h.empty hn, List.filter_nil]
  · obtain ⟨⟨u, hu, rfl⟩, hle⟩ := h.newest id hn
    have hn : r.newest = some u.id := hn
    refine ⟨⟨u, List.mem_filter.mpr ⟨hu, by simp [hn]⟩, rfl⟩, fun w hw => ?_⟩
    exact hle w (List.mem_filter.mp hw).1

theorem eq_of_id (h : r.Valid) (hv : v ∈ r.views) (hw : w ∈ r.views) (hid : v.id = w.id) :
    v = w := by
  have distinct : (r.views.map (·.id)).Nodup := List.pairwise_map.mpr (h.sorted.imp Nat.ne_of_lt)
  exact List.inj_on_of_nodup_map distinct hv hw hid

theorem current?_eq_some_iff (h : r.Valid) :
    r.current? = some v ↔ v ∈ r.views ∧ r.newest = some v.id := by
  rw [current?, Option.bind_eq_bind, Option.bind_eq_some_iff]
  constructor
  · rintro ⟨id, hn, hv⟩
    have hid : v.id = id := by simpa using List.find?_some hv
    exact ⟨List.mem_of_find?_eq_some hv, hid ▸ hn⟩
  · rintro ⟨hv, hn⟩
    obtain ⟨w, hw⟩ : ∃ w, r.view? v.id = some w :=
      Option.isSome_iff_exists.mp (List.find?_isSome.mpr ⟨v, hv, by simp⟩)
    have hid : w.id = v.id := by simpa using List.find?_some hw
    rw [← h.eq_of_id (List.mem_of_find?_eq_some hw) hv hid]
    exact ⟨w.id, hid ▸ hn, hid ▸ hw⟩

theorem current?_install (h : r.Valid) (hv : ∀ w, r.current? = some w → w.id ≤ v.id) :
    (r.install v).current? = some v := by
  refine (h.install v).current?_eq_some_iff.mpr ⟨(mem_insert h.sorted).mpr (.inl rfl), ?_⟩
  cases hn : r.newest with
  | none => simp [ViewRegistry.install, hn]
  | some id =>
    obtain ⟨⟨w, hw, rfl⟩, -⟩ := h.newest id hn
    have hle := hv w (h.current?_eq_some_iff.mpr ⟨hw, hn⟩)
    simp [ViewRegistry.install, hn, hle]

theorem current?_install_of_lt (h : r.Valid) (hw : r.current? = some w) (hv : v.id < w.id) :
    (r.install v).current? = some w := by
  obtain ⟨hw, hn⟩ := h.current?_eq_some_iff.mp hw
  refine (h.install v).current?_eq_some_iff.mpr ⟨?_, ?_⟩
  · exact (mem_insert h.sorted).mpr (.inr ⟨hw, hv.ne'⟩)
  · simp [ViewRegistry.install, hn, hv.le]

theorem mem_purge (h : r.Valid) :
    v ∈ (r.purge least).1.views ↔ v ∈ r.views ∧ (least ≤ v.id ∨ r.current? = some v) := by
  simp only [ViewRegistry.purge, List.mem_filter, Bool.or_eq_true, decide_eq_true_eq,
    h.current?_eq_some_iff]
  exact and_congr_right fun hv => or_congr_right ⟨fun hn => ⟨hv, hn.symm⟩, fun hn => hn.2.symm⟩

theorem views_purge (h : r.Valid) :
    (r.purge least).1.views = r.views.filter fun v => least ≤ v.id ∨ r.current? = some v := by
  refine List.filter_congr fun v hv => ?_
  simp [h.current?_eq_some_iff, hv, eq_comm]

theorem current?_purge (h : r.Valid) : (r.purge least).1.current? = r.current? := by
  ext v
  rw [(h.purge least).current?_eq_some_iff, h.mem_purge, h.current?_eq_some_iff]
  exact ⟨fun hv => ⟨hv.1.1, hv.2⟩, fun hv => ⟨⟨hv.1, .inr hv⟩, hv.2⟩⟩

end Valid

theorem length_purge : (r.purge least).2 + (r.purge least).1.views.length = r.views.length :=
  Nat.sub_add_cancel (List.length_filter_le ..)

theorem purge_purge : ((r.purge least).1.purge least).1 = (r.purge least).1 := by
  have kept : (r.purge least).1.views.filter _ = (r.purge least).1.views :=
    List.filter_eq_self.mpr fun v hv => (List.mem_filter.mp hv).2
  exact congrArg (fun views => { r with views }) kept

theorem Records.valid (h : Records vs r) : r.Valid := by
  induction h with
  | empty => exact ⟨.nil, fun _ => rfl, fun id hn => nomatch hn⟩
  | install _ v ih => exact ih.install v
  | purge _ least ih => exact ih.purge least

theorem Records.mem (h : Records vs r) (hv : v ∈ r.views) : v ∈ vs := by
  induction h with
  | empty => cases hv
  | install h w ih =>
    rcases (mem_insert h.valid.sorted).mp hv with rfl | ⟨hv, -⟩
    · exact List.mem_append_right _ (List.mem_singleton_self v)
    · exact List.mem_append_left _ (ih hv)
  | purge _ least ih => exact ih (List.mem_filter.mp hv).1

def Latest (v : View) (vs : List View) : Prop :=
  ∃ before behind, vs = before ++ v :: behind ∧ (∀ w ∈ before, w.id ≤ v.id) ∧
    ∀ w ∈ behind, w.id < v.id

theorem Latest.id_le (h : Latest v vs) (hw : w ∈ vs) : w.id ≤ v.id := by
  obtain ⟨before, behind, rfl, hb, ha⟩ := h
  rcases List.mem_append.mp hw with hw | hw
  · exact hb w hw
  · rcases List.mem_cons.mp hw with rfl | hw
    · exact le_rfl
    · exact (ha w hw).le

theorem Latest.mem (h : Latest v vs) : v ∈ vs := by
  obtain ⟨before, behind, rfl, -⟩ := h
  exact List.mem_append_right _ (List.mem_cons_self ..)

theorem Latest.append (h : Latest v vs) (hw : w.id < v.id) : Latest v (vs ++ [w]) := by
  obtain ⟨before, behind, rfl, hb, ha⟩ := h
  refine ⟨before, behind ++ [w], by simp, hb, fun u hu => ?_⟩
  rcases List.mem_append.mp hu with hu | hu
  · exact ha u hu
  · rwa [List.mem_singleton.mp hu]

theorem Records.current? (h : Records vs r) :
    vs = [] ∧ r.current? = none ∨ ∃ v, Latest v vs ∧ r.current? = some v := by
  induction h with
  | empty => exact .inl ⟨rfl, rfl⟩
  | @install vs r h w ih =>
    right
    rcases ih with ⟨rfl, hc⟩ | ⟨v, hv, hc⟩
    · refine ⟨w, ⟨[], [], rfl, ?_, ?_⟩, h.valid.current?_install (by simp [hc])⟩ <;> simp
    · by_cases hle : v.id ≤ w.id
      · refine ⟨w, ⟨vs, [], rfl, fun u hu => (hv.id_le hu).trans hle, by simp⟩, ?_⟩
        exact h.valid.current?_install (by simpa [hc] using hle)
      · have hlt : w.id < v.id := Nat.lt_of_not_le hle
        exact ⟨v, hv.append hlt, h.valid.current?_install_of_lt hc hlt⟩
  | purge h least ih => rwa [h.valid.current?_purge]

end Multiversion.ViewRegistry
