import Mathlib
import Multiversion.Proofs.Queue.Grants
import Multiversion.Proofs.Queue.Valid

namespace Multiversion

namespace Entry

variable {e : Entry} {s : Nat} {now : Time}

theorem ready_markReady : (e.markReady s now).ready = true := by
  unfold markReady
  split
  next h => exact h
  next => rfl

theorem markReady_of_ready (h : e.ready = true) : e.markReady s now = e := if_pos h

theorem markReady_keeps {α : Type} (φ : Entry → α) (hφ : ∀ (e : Entry) k t l,
    φ { e with ready := true, sub := k, pending := false, readyAt := t, latch := l } = φ e) :
    φ (e.markReady s now) = φ e := by
  unfold markReady
  split
  · rfl
  · exact hφ e _ _ _

@[simp] theorem admission_markReady : (e.markReady s now).admission = e.admission :=
  markReady_keeps admission fun _ _ _ _ => rfl

@[simp] theorem id_markReady : (e.markReady s now).id = e.id :=
  markReady_keeps id fun _ _ _ _ => rfl

@[simp] theorem order_markReady : (e.markReady s now).order = e.order :=
  markReady_keeps order fun _ _ _ _ => rfl

@[simp] theorem version_markReady : (e.markReady s now).version = e.version :=
  markReady_keeps version fun _ _ _ _ => rfl

@[simp] theorem received_markReady : (e.markReady s now).received = e.received :=
  markReady_keeps received fun _ _ _ _ => rfl

@[simp] theorem claimed_markReady : (e.markReady s now).claimed = e.claimed :=
  markReady_keeps claimed fun _ _ _ _ => rfl

@[simp] theorem committed_markReady : (e.markReady s now).committed = e.committed :=
  markReady_keeps committed fun _ _ _ _ => rfl

@[simp] theorem notifier_markReady : (e.markReady s now).notifier = e.notifier :=
  markReady_keeps notifier fun _ _ _ _ => rfl

theorem sub_markReady (h : e.ready = false) : (e.markReady s now).sub = s := by
  simp [markReady, h]

end Entry

namespace Queue

variable {q : Queue} {cs : List Cell} {g : TransactionId} {m n : Nat} {now : Time}
  {gs : List Readiness.Grant}

namespace Valid

variable (h : q.Valid)
include h

theorem sorted : q.line.Pairwise (Before q.order) := by
  obtain ⟨cs, h⟩ := h
  rw [h.line_eq]
  exact List.pairwise_map.mpr h.sorted

theorem nodup : q.line.Nodup := by
  obtain ⟨cs, h⟩ := h
  rw [h.line_eq]
  exact h.admission_nodup

theorem known (hn : n ∈ q.line) : n < q.entries.size := by
  obtain ⟨cs, h⟩ := h
  obtain ⟨c, hc, rfl⟩ := h.mem_line.mp hn
  exact h.known c hc

theorem admission_eq (hn : n < q.entries.size) : (q.entry n).admission = n := by
  obtain ⟨cs, h⟩ := h
  exact h.numbered n hn

theorem id_inj (hm : m ∈ q.line) (hn : n ∈ q.line) (he : (q.entry m).id = (q.entry n).id) :
    m = n := by
  obtain ⟨cs, h⟩ := h
  obtain ⟨c, hc, rfl⟩ := h.mem_line.mp hm
  obtain ⟨d, hd, rfl⟩ := h.mem_line.mp hn
  rw [List.inj_on_of_nodup_map h.unique hc hd he]

theorem find?_eq_some_iff : q.find? g = some n ↔ n ∈ q.line ∧ (q.entry n).id = g := by
  obtain ⟨cs, h⟩ := h
  rw [h.find?_eq_some_iff, h.mem_line]
  constructor
  · rintro ⟨c, hc, hg, rfl⟩
    exact ⟨⟨c, hc, rfl⟩, hg⟩
  · rintro ⟨⟨c, hc, rfl⟩, hg⟩
    exact ⟨c, hc, hg, rfl⟩

theorem toList_admissions : q.toList.map (·.admission) = q.line := by
  have e : ∀ n ∈ q.line, (q.entry n).admission = id n := fun n hn => h.admission_eq (h.known hn)
  rw [toList, List.map_map, ← List.map_id q.line]
  exact List.map_congr_left e

theorem toList_sorted : q.toList.Pairwise (·.order ≤ ·.order) :=
  List.pairwise_map.mpr (h.sorted.imp Before.order_le)

end Valid

def Decided (q : Queue) (n : Nat) : Prop :=
  ∀ m ∈ q.line, q.order m ≤ q.order n → (q.entry m).received = true

theorem decided_iff : Entry.Decided q.toList (q.entry n) ↔ q.Decided n := by
  simp [Entry.Decided, Decided, toList, line, order]

def grantAll (q : Queue) (now : Time) (gs : List Readiness.Grant) : Queue :=
  gs.foldl (fun q g => q.update g.admission (·.markReady g.sub now)) q

theorem grantReady_eq : q.grantReady now = q.grantAll now (Readiness.grants q.toList) := rfl

theorem grantAll_cons {g : Readiness.Grant} : q.grantAll now (g :: gs) =
    (q.update g.admission (·.markReady g.sub now)).grantAll now gs := rfl

@[simp] theorem size_grantAll : (q.grantAll now gs).entries.size = q.entries.size := by
  induction gs generalizing q with
  | nil => rfl
  | cons g gs ih => rw [grantAll_cons, ih, size_update]

@[simp] theorem line_grantAll : (q.grantAll now gs).line = q.line := by
  induction gs generalizing q with
  | nil => rfl
  | cons g gs ih => rw [grantAll_cons, ih, line_update]

theorem Holds.grantAll (h : q.Holds cs) : (q.grantAll now gs).Holds cs := by
  induction gs generalizing q with
  | nil => exact h
  | cons g gs ih =>
    rw [grantAll_cons]
    exact ih (h.update (fun _ => Entry.admission_markReady) (fun _ => Entry.id_markReady)
      fun _ => Entry.order_markReady)

theorem grantAll_preserves {P : Entry → Prop} (hP : ∀ e s, P e → P (e.markReady s now))
    (h : P (q.entry m)) : P ((q.grantAll now gs).entry m) := by
  induction gs generalizing q with
  | nil => exact h
  | cons g gs ih => exact ih (update_preserves (fun e => hP e g.sub) h)

theorem entry_grantAll_of_notMem (hk : ∀ g ∈ gs, g.admission < q.entries.size)
    (hm : m ∉ gs.map (·.admission)) : (q.grantAll now gs).entry m = q.entry m := by
  induction gs generalizing q with
  | nil => rfl
  | cons g gs ih =>
    rw [List.map_cons, List.mem_cons, not_or] at hm
    rw [grantAll_cons, ih (fun g hg => by simpa using hk g (by simp [hg])) hm.2,
      entry_update (hk g (by simp)), if_neg hm.1]

theorem entry_grantAll_of_mem {g : Readiness.Grant} (hk : ∀ g ∈ gs, g.admission < q.entries.size)
    (hd : (gs.map (·.admission)).Nodup) (hg : g ∈ gs) : (q.grantAll now gs).entry g.admission =
      (q.entry g.admission).markReady g.sub now := by
  induction gs generalizing q with
  | nil => simp at hg
  | cons x gs ih =>
    have hk' : ∀ g ∈ gs,
        g.admission < (q.update x.admission (·.markReady x.sub now)).entries.size :=
      fun g hg => by simpa using hk g (by simp [hg])
    obtain ⟨hx, hd⟩ := List.nodup_cons.mp hd
    rw [grantAll_cons]
    rcases List.mem_cons.mp hg with rfl | hg
    · rw [entry_grantAll_of_notMem hk' hx, entry_update (hk g (by simp)), if_pos rfl]
    · have hne : g.admission ≠ x.admission := fun e => hx (List.mem_map.mpr ⟨g, hg, e⟩)
      rw [ih hk' hd hg, entry_update (hk x (by simp)), if_neg hne]

section Grants

variable (h : q.Valid) (hr : ∀ n ∈ q.line, (q.entry n).ready = true → (q.entry n).received = true)
include h hr

theorem grants_admissions : (Readiness.grants q.toList).map (·.admission) =
    ((q.toList.dropWhile (·.ready)).filter (Entry.Decided q.toList)).map (·.admission) := by
  refine Readiness.grants_admissions h.toList_sorted ?_
  intro e he
  obtain ⟨n, hn, rfl⟩ := List.mem_map.mp he
  exact hr n hn

theorem grants_sublist : ((Readiness.grants q.toList).map (·.admission)).Sublist q.line := by
  rw [grants_admissions h hr, ← h.toList_admissions]
  exact (List.filter_sublist.trans (List.dropWhile_sublist _)).map _

theorem known_of_mem_grants {g : Readiness.Grant} (hg : g ∈ Readiness.grants q.toList) :
    g.admission < q.entries.size :=
  h.known ((grants_sublist h hr).subset (List.mem_map_of_mem hg))

theorem decided_of_mem_grants (hn : n ∈ (Readiness.grants q.toList).map (·.admission)) :
    q.Decided n := by
  have hl := (grants_sublist h hr).subset hn
  rw [grants_admissions h hr] at hn
  obtain ⟨e, he, hen⟩ := List.mem_map.mp hn
  obtain ⟨he, hd⟩ := List.mem_filter.mp he
  obtain ⟨m, hm, rfl⟩ := List.mem_map.mp ((List.dropWhile_sublist _).subset he)
  rw [h.admission_eq (h.known hm)] at hen
  rw [← hen, ← decided_iff]
  exact of_decide_eq_true hd

theorem mem_grants (hn : n ∈ q.line) (hd : q.Decided n) (hu : (q.entry n).ready = false) :
    n ∈ (Readiness.grants q.toList).map (·.admission) := by
  rw [grants_admissions h hr]
  refine List.mem_map.mpr ⟨q.entry n, List.mem_filter.mpr ⟨?_, ?_⟩, h.admission_eq (h.known hn)⟩
  · have he : q.entry n ∈ q.toList := List.mem_map_of_mem hn
    rw [← List.takeWhile_append_dropWhile (p := (·.ready)) (l := q.toList), List.mem_append] at he
    refine he.resolve_left fun ht => ?_
    have := List.mem_takeWhile_imp ht
    simp [hu] at this
  · exact decide_eq_true (decided_iff.mpr hd)

end Grants

theorem grantReady_preserves {P : Entry → Prop} (hP : ∀ e s, P e → P (e.markReady s now))
    (h : P (q.entry m)) : P ((q.grantReady now).entry m) := grantAll_preserves hP h

theorem grantReady_keeps {α : Type} (φ : Entry → α) (hφ : ∀ e s, φ (e.markReady s now) = φ e) :
    φ ((q.grantReady now).entry m) = φ (q.entry m) :=
  grantReady_preserves (P := fun e => φ e = φ (q.entry m)) (fun e s he => (hφ e s).trans he) rfl

@[simp] theorem size_grantReady : (q.grantReady now).entries.size = q.entries.size := size_grantAll

@[simp] theorem line_grantReady : (q.grantReady now).line = q.line := line_grantAll

theorem Valid.grantReady (h : q.Valid) : (q.grantReady now).Valid := by
  obtain ⟨cs, h⟩ := h
  exact ⟨cs, h.grantAll⟩

theorem order_grantReady : (q.grantReady now).order = q.order :=
  funext fun _ => grantReady_keeps Entry.order fun _ _ => Entry.order_markReady

section Ready

variable (h : q.Valid) (hr : ∀ n ∈ q.line, (q.entry n).ready = true → (q.entry n).received = true)
include h hr

theorem ready_grantReady (hn : n ∈ q.line) : ((q.grantReady now).entry n).ready = true ↔
    (q.entry n).ready = true ∨ q.Decided n := by
  have hk : ∀ g ∈ Readiness.grants q.toList, g.admission < q.entries.size :=
    fun _ => known_of_mem_grants h hr
  by_cases hm : n ∈ (Readiness.grants q.toList).map (·.admission)
  · have hd := decided_of_mem_grants h hr hm
    obtain ⟨g, hg, rfl⟩ := List.mem_map.mp hm
    rw [grantReady_eq, entry_grantAll_of_mem hk (h.nodup.sublist (grants_sublist h hr)) hg]
    exact ⟨fun _ => .inr hd, fun _ => Entry.ready_markReady⟩
  · rw [grantReady_eq, entry_grantAll_of_notMem hk hm]
    refine ⟨.inl, ?_⟩
    rintro (hu | hd)
    · exact hu
    · by_contra hu
      exact hm (mem_grants h hr hn hd (by simpa using hu))

theorem entry_grantReady_of_ready (hu : (q.entry n).ready = true) :
    (q.grantReady now).entry n = q.entry n := by
  have hk : ∀ g ∈ Readiness.grants q.toList, g.admission < q.entries.size :=
    fun _ => known_of_mem_grants h hr
  by_cases hm : n ∈ (Readiness.grants q.toList).map (·.admission)
  · obtain ⟨g, hg, rfl⟩ := List.mem_map.mp hm
    rw [grantReady_eq, entry_grantAll_of_mem hk (h.nodup.sublist (grants_sublist h hr)) hg,
      Entry.markReady_of_ready hu]
  · rw [grantReady_eq, entry_grantAll_of_notMem hk hm]

theorem entry_grantReady_of_notMem (hn : n ∉ q.line) : (q.grantReady now).entry n = q.entry n := by
  rw [grantReady_eq, entry_grantAll_of_notMem fun _ => known_of_mem_grants h hr]
  exact fun hm => hn ((grants_sublist h hr).subset hm)

theorem sub_lt_sub_grantReady (hm : m ∈ q.line) (hn : n ∈ q.line)
    (hum : (q.entry m).ready = false) (hun : (q.entry n).ready = false) (hdm : q.Decided m)
    (hdn : q.Decided n) (ho : q.order m = q.order n) (hlt : m < n) :
    ((q.grantReady now).entry m).sub < ((q.grantReady now).entry n).sub := by
  have hk : ∀ g ∈ Readiness.grants q.toList, g.admission < q.entries.size :=
    fun _ => known_of_mem_grants h hr
  have hd := h.nodup.sublist (grants_sublist h hr)
  obtain ⟨a, ha, rfl⟩ := List.mem_map.mp (mem_grants h hr hm hdm hum)
  obtain ⟨b, hb, rfl⟩ := List.mem_map.mp (mem_grants h hr hn hdn hun)
  rw [grantReady_eq, entry_grantAll_of_mem hk hd ha, entry_grantAll_of_mem hk hd hb,
    Entry.sub_markReady hum, Entry.sub_markReady hun]
  have hasc := Readiness.grants_ascending h.toList_sorted q.order (by
    intro e he
    obtain ⟨k, hk, rfl⟩ := List.mem_map.mp he
    rw [h.admission_eq (h.known hk), order])
  have hline := List.pairwise_map.mp (h.sorted.sublist (grants_sublist h hr))
  let R (x y : Readiness.Grant) : Prop :=
    x.admission < y.admission → q.order x.admission = q.order y.admission → x.sub < y.sub
  have hflip : (Readiness.grants q.toList).Pairwise (flip R) := by
    refine hline.imp ?_
    intro x y hxy hlt ho
    unfold Before at hxy
    omega
  have hall := List.Pairwise.forall_of_forall_of_flip (R := R) (fun x _ hlt => by omega)
    (hasc.imp fun hxy _ ho => hxy ho) hflip
  exact hall ha hb hlt ho

end Ready

end Queue

end Multiversion
