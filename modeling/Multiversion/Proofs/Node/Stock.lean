import Mathlib
import Multiversion.Proofs.Node.Act
import Multiversion.Proofs.Node.Visible
import Multiversion.Proofs.Store.LastWrite

namespace Multiversion.Session

variable {s t : Session} {bound : Nat} {key : String}

def written (s : Session) (key : String) : List Stored :=
  (s.applied.map (·.record)).flatMap (·.stored key)

/-- A bound that a reader has come with or may still come with. -/
def Needed (s : Session) (bound : Nat) : Prop :=
  s.node.sequencer.visible ≤ bound ∨ ∃ v ∈ s.node.pins, s.node.position.seq v = bound

theorem Needed.of_later (h : s.node.Later t.node) (hb : t.Needed bound) : s.Needed bound := by
  have seq_eq (v) : t.node.position.seq v = s.node.position.seq v := by rw [h.position]
  have hle : s.node.sequencer.visible ≤ t.node.sequencer.visible := by
    change _ ≤ t.node.position.seq t.node.log.current
    rw [seq_eq]
    exact h.current _
  rcases hb with hb | ⟨v, hv, hb⟩
  · exact .inl (hle.trans hb)
  · rw [seq_eq] at hb
    rcases h.pinned v hv with hv | hv
    · exact .inr ⟨v, hv, hb⟩
    · exact .inl ((hv.1 _).trans hb.le)

structure Stocked (s : Session) : Prop where
  keyed : s.node.data.Keyed
  ranked : ∀ key, ∀ v ∈ s.node.data.versions key, ∃ x ∈ s.applied,
    v.rank s.node.position = x.record.rank s.node.position
  kept : ∀ key bound, s.Needed bound →
    Stored.reads s.node.position bound (s.node.data.versions key) =
      Stored.reads s.node.position bound (s.written key)

inductive Shift (s t : Session) : Prop
  | keep (hd : t.node.data = s.node.data) (ha : t.applied = s.applied)
  | apply (x : Delivery) (todo : List Delivery) (hx : x ∈ s.drain.pending)
      (hw : s.applied ++ x :: todo = s.calls.flatten ++ s.drain.won)
      (hd : t.node.data = s.node.data.apply s.node.position x.record)
      (ha : t.applied = s.applied ++ [x])
  | collect (w : Sweep) (hw : w ∈ s.sweeps)
      (hd : t.node.data = (s.node.data.collect s.node.position w.version).1)
      (ha : t.applied = s.applied)

theorem Step.shift {may : Node → Version → Prop} (h : Step may s t) : Shift s t := by
  cases h with
  | aside n hs hd hl hi => exact .keep hd rfl
  | detach won now hi =>
    refine .keep ?_ ?_
    · simp only [Node.detachBatch, Node.notifyCommitted]
      split <;> rfl
    · simp [applied, hi, Drain.done]
  | claim hi hw =>
    refine .keep rfl ?_
    simp [applied, hi, Drain.done]
  | pass hi hw =>
    refine .keep rfl ?_
    simp [applied]
  | apply done x todo hi =>
    refine .apply x todo ?_ ?_ rfl ?_
    · simp [hi, Drain.pending]
    · simp [applied, hi, Drain.done, Drain.won]
    · simp [applied, hi, Drain.done]
  | insert won hi =>
    refine .keep rfl ?_
    simp [applied, hi, Drain.done]
  | mark won now hi =>
    refine .keep rfl ?_
    simp [applied, hi, Drain.done]
  | collect before needed behind hs =>
    refine .collect (.pruned needed) ?_ rfl rfl
    rw [hs]
    exact List.mem_append_right _ (List.mem_cons_self ..)
  | _ => exact .keep rfl rfl

theorem Drained.ranked (h : s.Drained) : (s.applied.map (·.record)).Pairwise fun x y =>
    x.seq s.node.position < y.seq s.node.position ∨
      x.seq s.node.position = y.seq s.node.position ∧ x.sub < y.sub := by
  have hsub : s.applied.Sublist (s.calls.flatten ++ s.drain.won) := by
    refine (List.Sublist.refl _).append ?_
    cases s.drain with
    | idle => exact .slnil
    | applying done todo => exact List.sublist_append_left done todo
    | inserted won => exact .refl won
    | marked won => exact .refl won
  refine List.pairwise_map.mpr ((h.ordered.sublist hsub).imp ?_)
  exact fun hxy => hxy.imp_right fun ⟨he, _, hs⟩ => ⟨he, hs⟩

namespace Stocked

theorem keep (h : s.Stocked) (hl : s.node.Later t.node) (hd : t.node.data = s.node.data)
    (ha : t.applied = s.applied) : t.Stocked := by
  refine ⟨hd ▸ h.keyed, ?_, ?_⟩
  · rw [hd, ha, hl.position]
    exact h.ranked
  · intro key bound hb
    rw [hd, hl.position, written, ha]
    exact h.kept key bound (hb.of_later hl)

theorem apply {x : Delivery} {todo : List Delivery} (h : s.Stocked) (hl : s.node.Later t.node)
    (ho : (s.applied ++ x :: todo).Pairwise (Delivery.Before s.node.position))
    (hd : t.node.data = s.node.data.apply s.node.position x.record)
    (ha : t.applied = s.applied ++ [x]) : t.Stocked := by
  have hle (key) : ∀ v ∈ s.node.data.versions key,
      v.rank s.node.position ≤ x.record.rank s.node.position := by
    intro v hv
    obtain ⟨y, hy, hr⟩ := h.ranked key v hv
    have hyx := (List.pairwise_append.mp ho).2.2 y hy x (List.mem_cons_self ..)
    rw [hr]
    exact hyx.imp_right fun ⟨he, _, hs⟩ => ⟨he, hs.le⟩
  have hv (key) : t.node.data.versions key =
      s.node.data.versions key ++ x.record.stored key := by
    rw [hd, Store.versions_apply (hle key)]
  have hw (key) : t.written key = s.written key ++ x.record.stored key := by
    simp [written, ha]
  refine ⟨hd ▸ h.keyed.apply, ?_, ?_⟩
  · intro key v hm
    rw [hl.position]
    rw [hv, List.mem_append] at hm
    rcases hm with hm | hm
    · obtain ⟨y, hy, hr⟩ := h.ranked key v hm
      exact ⟨y, ha ▸ List.mem_append_left _ hy, hr⟩
    · exact ⟨x, ha ▸ List.mem_append_right _ (List.mem_singleton_self x),
        Committed.rank_stored hm⟩
  · intro key bound hb
    have hk := h.kept key bound (hb.of_later hl)
    rw [hv, hw, hl.position]
    exact Stored.reads_append hk

theorem collect {minimum : Version} (h : s.Stocked) (hl : s.node.Later t.node)
    (hm : ∀ bound, s.Needed bound → s.node.position.seq minimum ≤ bound)
    (hd : t.node.data = (s.node.data.collect s.node.position minimum).1)
    (ha : t.applied = s.applied) : t.Stocked := by
  refine ⟨hd ▸ h.keyed.collect, ?_, ?_⟩
  · intro key v hv
    rw [hd] at hv
    rw [ha, hl.position]
    exact h.ranked key v (Store.mem_versions_collect h.keyed hv)
  · intro key bound hb
    have hn := hb.of_later hl
    rw [hd, hl.position, written, ha, Store.reads_collect h.keyed (hm bound hn)]
    exact h.kept key bound hn

end Stocked

theorem Step.stocked (h : Step Node.Covers s t) (hd : s.Drained) (ha : s.Ahead) (hs : s.Stocked) :
    t.Stocked := by
  cases h.shift with
  | keep hdata happlied => exact hs.keep h.later hdata happlied
  | apply x todo hx hw hdata happlied =>
    exact hs.apply h.later (hw ▸ hd.ordered) hdata happlied
  | collect w hw hdata happlied =>
    refine hs.collect h.later ?_ hdata happlied
    rintro bound (hb | ⟨v, hv, rfl⟩)
    · exact (ha.swept w hw).1.trans hb
    · obtain ⟨e, he, rfl⟩ := List.mem_map.mp hv
      exact (ha.swept w hw).2 e he

end Multiversion.Session
