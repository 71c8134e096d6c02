import Mathlib
import Multiversion.Proofs.Store.Newest

namespace Multiversion

namespace Committed

variable {p : Position} {tx : Committed} {txs more : List Committed} {key : String} {bound : Nat}

def placed (tx : Committed) (key : String) : List (Stored × Nat) :=
  tx.writes.zipIdx.filterMap fun (w, i) =>
    if w.key = key then some (⟨tx.version, tx.sub, w.value⟩, i) else none

def PlacedLe (p : Position) (a b : Stored × Nat) : Prop :=
  a.1.seq p < b.1.seq p ∨
    a.1.seq p = b.1.seq p ∧ (a.1.sub < b.1.sub ∨ a.1.sub = b.1.sub ∧ a.2 ≤ b.2)

instance : DecidableRel (PlacedLe p) := fun _ _ => inferInstanceAs (Decidable (_ ∨ _))

instance : Std.Total (PlacedLe p) := ⟨fun a b => by unfold PlacedLe; omega⟩

instance : IsTrans (Stored × Nat) (PlacedLe p) := ⟨fun a b c => by unfold PlacedLe; omega⟩

/-- The value of the last write to `key` among `txs` whose component does not exceed `bound`. -/
def lastWrite (p : Position) (txs : List Committed) (key : String) (bound : Nat) : Option Bytes :=
  (((txs.flatMap (·.placed key)).filter (·.1.seq p ≤ bound)).insertionSort
    (PlacedLe p)).getLast?.bind (·.1.value)

theorem map_placed : (tx.placed key).map (·.1) = tx.stored key := by
  rw [placed, stored]
  generalize tx.writes = ws
  suffices h : ∀ i, ((ws.zipIdx i).filterMap fun (w, i) =>
      if w.key = key then some ((⟨tx.version, tx.sub, w.value⟩ : Stored), i) else none).map (·.1) =
      (ws.filter (·.key = key)).map fun w => ⟨tx.version, tx.sub, w.value⟩ from h 0
  induction ws with
  | nil => exact fun _ => rfl
  | cons w ws ih =>
    intro i
    have := ih (i + 1)
    by_cases hk : w.key = key
    · simp [List.zipIdx_cons, hk, this]
    · simp [List.zipIdx_cons, hk, this]

theorem mem_placed {a : Stored × Nat} (h : a ∈ tx.placed key) :
    a.1.seq p = tx.seq p ∧ a.1.sub = tx.sub := by
  obtain ⟨⟨w, i⟩, -, ha⟩ := List.mem_filterMap.mp h
  dsimp only at ha
  by_cases hk : w.key = key
  · rw [if_pos hk] at ha
    cases ha
    exact ⟨rfl, rfl⟩
  · rw [if_neg hk] at ha
    cases ha

theorem pairwise_placed : (tx.placed key).Pairwise (PlacedLe p) := by
  have hplaces : (tx.placed key).Pairwise fun a b => a.2 < b.2 := by
    rw [placed, List.pairwise_filterMap]
    have hidx : tx.writes.zipIdx.Pairwise fun a b => a.2 < b.2 := by
      refine List.pairwise_map.mp ?_
      rw [List.zipIdx_map_snd]
      exact List.pairwise_lt_range'
    refine hidx.imp ?_
    rintro ⟨w, i⟩ ⟨u, j⟩ hij a ha b hb
    by_cases hw : w.key = key <;> by_cases hu : u.key = key <;> simp [hw, hu] at ha hb
    rw [← ha, ← hb]
    exact hij
  refine hplaces.imp_of_mem ?_
  intro a b ha hb hab
  obtain ⟨h1, h2⟩ := mem_placed (p := p) ha
  obtain ⟨h3, h4⟩ := mem_placed (p := p) hb
  unfold PlacedLe
  omega

theorem lastWrite_eq (h : txs.Pairwise fun x y =>
    x.seq p < y.seq p ∨ x.seq p = y.seq p ∧ x.sub < y.sub) :
    lastWrite p txs key bound = Stored.reads p bound (txs.flatMap (·.stored key)) := by
  have hs : (txs.flatMap (·.placed key)).Pairwise (PlacedLe p) := by
    refine List.pairwise_flatMap.mpr ⟨fun tx _ => pairwise_placed, h.imp ?_⟩
    intro x y hxy a ha b hb
    obtain ⟨h1, h2⟩ := mem_placed (p := p) ha
    obtain ⟨h3, h4⟩ := mem_placed (p := p) hb
    unfold PlacedLe
    omega
  have hm : txs.flatMap (·.stored key) = (txs.flatMap (·.placed key)).map (·.1) := by
    rw [List.map_flatMap]
    exact List.flatMap_congr fun tx _ => map_placed.symm
  rw [lastWrite, (hs.filter _).insertionSort_eq, Stored.reads, Timeline.newest?, hm,
    List.filter_map, List.getLast?_map, Option.bind_map]
  rfl

theorem reads_append (h : ∀ tx ∈ more, bound < tx.seq p) :
    Stored.reads p bound ((txs ++ more).flatMap (·.stored key)) =
      Stored.reads p bound (txs.flatMap (·.stored key)) := by
  have hn : Timeline.newest? (Stored.seq p) bound (more.flatMap (·.stored key)) = none := by
    refine Timeline.newest?_eq_none fun v hv => ?_
    obtain ⟨tx, htx, hv⟩ := List.mem_flatMap.mp hv
    obtain ⟨w, -, rfl⟩ := List.mem_map.mp hv
    exact h tx htx
  rw [Stored.reads, List.flatMap_append, Timeline.newest?_append, hn]
  rfl

end Committed

end Multiversion
