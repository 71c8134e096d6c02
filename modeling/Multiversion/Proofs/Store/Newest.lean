import Mathlib
import Multiversion.Proofs.Timeline
import Multiversion.Store

namespace Multiversion

namespace Stored

def reads (p : Position) (bound : Nat) (vs : List Stored) : Option Bytes :=
  (Timeline.newest? (seq p) bound vs).bind (·.value)

theorem reads_append {p : Position} {bound : Nat} {us vs ws : List Stored}
    (h : reads p bound us = reads p bound vs) :
    reads p bound (us ++ ws) = reads p bound (vs ++ ws) := by
  rw [reads, reads, Timeline.newest?_append, Timeline.newest?_append]
  cases Timeline.newest? (seq p) bound ws with
  | none => exact h
  | some v => rfl

end Stored

namespace Committed

def seq (p : Position) (tx : Committed) : Nat := p.seq tx.version

def rank (p : Position) (tx : Committed) : Rank := ⟨tx.seq p, tx.sub⟩

def stored (tx : Committed) (key : String) : List Stored :=
  (tx.writes.filter (·.key = key)).map fun w => ⟨tx.version, tx.sub, w.value⟩

theorem rank_stored {p : Position} {tx : Committed} {key : String} {v : Stored}
    (h : v ∈ tx.stored key) : v.rank p = tx.rank p := by
  obtain ⟨w, -, rfl⟩ := List.mem_map.mp h
  rfl

end Committed

namespace Store

variable {p : Position} {s : Store} {tx : Committed} {key k : String} {vs : List Stored}
  {l : List (String × List Stored)} {value : Stored} {minimum v : Version} {bound : Nat}

theorem read_eq : s.read p key v = Stored.reads p (p.seq v) (s.versions key) := by
  rw [read, Stored.reads, Timeline.newest?, List.getLast?_filter]

def Keyed (s : Store) : Prop := (s.keys.map (·.1)).Nodup

theorem Keyed.empty : Keyed {} := List.nodup_nil

theorem lookup_set : (set key vs l).lookup k = if k = key then some vs else l.lookup k := by
  induction l with
  | nil =>
    by_cases hk : k = key
    · simp [set, hk]
    · rw [set, List.lookup_cons, beq_eq_false_iff_ne.mpr hk, if_neg hk]
  | cons e l ih =>
    obtain ⟨u, us⟩ := e
    by_cases hu : u = key
    · subst hu
      by_cases hk : k = u
      · simp [set, hk]
      · rw [set, if_pos rfl, List.lookup_cons, List.lookup_cons, beq_eq_false_iff_ne.mpr hk,
          if_neg hk]
    · rw [set, if_neg hu, List.lookup_cons, List.lookup_cons, ih]
      by_cases hk : k = u
      · simp [hk, hu]
      · rw [beq_eq_false_iff_ne.mpr hk]

theorem keys_set : (set key vs l).map (·.1) =
    if key ∈ l.map (·.1) then l.map (·.1) else l.map (·.1) ++ [key] := by
  induction l with
  | nil => rfl
  | cons e l ih =>
    obtain ⟨u, us⟩ := e
    by_cases hu : u = key
    · simp [set, hu]
    · have hu' : key ≠ u := fun h => hu h.symm
      simp only [set, hu, if_false, List.map_cons, ih, List.mem_cons, hu', false_or]
      split <;> rfl

theorem Keyed.put (h : s.Keyed) : (s.put p key value).Keyed := by
  rw [Keyed, Store.put, keys_set]
  split
  next => exact h
  next hn =>
    refine List.nodup_append.mpr ⟨h, List.nodup_singleton key, ?_⟩
    intro k hk u hu
    rw [List.mem_singleton] at hu
    rintro rfl
    exact hn (hu ▸ hk)

theorem Keyed.apply (h : s.Keyed) : (s.apply p tx).Keyed := by
  rw [Store.apply]
  generalize tx.writes = ws
  induction ws generalizing s with
  | nil => exact h
  | cons w ws ih => exact ih h.put

theorem versions_put : (s.put p key value).versions k =
    if k = key then Timeline.insert (Stored.rank p) value (s.versions key) else s.versions k := by
  rw [versions, put, lookup_set]
  split <;> rfl

theorem versions_apply_eq : (s.apply p tx).versions key =
    (tx.stored key).foldl (fun vs v => Timeline.insert (Stored.rank p) v vs) (s.versions key) := by
  rw [apply, Committed.stored]
  generalize tx.writes = ws
  induction ws generalizing s with
  | nil => rfl
  | cons w ws ih =>
    rw [List.foldl_cons, ih, versions_put]
    by_cases hk : w.key = key
    · simp [hk]
    · simp [hk, Ne.symm hk]

theorem versions_apply (h : ∀ v ∈ s.versions key, v.rank p ≤ tx.rank p) :
    (s.apply p tx).versions key = s.versions key ++ tx.stored key := by
  rw [versions_apply_eq, Timeline.foldl_insert_of_le h fun v => Committed.rank_stored]

theorem mem_versions_apply {u : Stored} (h : u ∈ (s.apply p tx).versions key) :
    u ∈ s.versions key ∨ u ∈ tx.stored key := by
  rwa [versions_apply_eq, Timeline.mem_foldl_insert] at h

section Collect

theorem isSpent_iff : isSpent p bound vs = true ↔
    ∃ v, vs = [v] ∧ v.value = none ∧ v.seq p ≤ bound := by
  constructor
  · intro h
    match vs, h with
    | [v], h =>
      rw [isSpent, Bool.and_eq_true, Option.isNone_iff_eq_none, decide_eq_true_eq] at h
      exact ⟨v, rfl, h⟩
  · rintro ⟨v, rfl, hv, hle⟩
    simp [isSpent, hv, hle]

theorem reads_collectKey {floor : Nat} (h : floor ≤ bound) :
    Stored.reads p bound ((collectKey p floor vs).1.getD []) = Stored.reads p bound vs := by
  have hp : Stored.reads p bound (Timeline.prune (Stored.seq p) floor vs) =
      Stored.reads p bound vs := by
    rw [Stored.reads, Timeline.newest?_prune h, Stored.reads]
  rw [collectKey]
  split
  next hs =>
    -- a single removal is left, and it reads like nothing
    obtain ⟨v, hk, hv, hle⟩ := isSpent_iff.mp hs
    rw [← hp, hk]
    simp [Stored.reads, Timeline.newest?, hle.trans h, hv]
  next => exact hp

theorem collectKeys_cons : (collectKeys p bound ((k, vs) :: l)).1 =
    (collectKey p bound vs).1.elim (collectKeys p bound l).1
      fun kept => (k, kept) :: (collectKeys p bound l).1 := by
  obtain ⟨⟨kept?, m⟩, hk⟩ : ∃ c, collectKey p bound vs = c := ⟨_, rfl⟩
  rw [collectKeys, hk]
  cases kept? <;> rfl

theorem keys_collectKeys : ((collectKeys p bound l).1.map (·.1)).Sublist (l.map (·.1)) := by
  induction l with
  | nil => exact .slnil
  | cons e l ih =>
    obtain ⟨k, vs⟩ := e
    rw [collectKeys_cons]
    cases (collectKey p bound vs).1 with
    | none => exact ih.cons k
    | some kept => exact ih.cons_cons k

theorem Keyed.collect (h : s.Keyed) : (s.collect p minimum).1.Keyed := h.sublist keys_collectKeys

theorem lookup_collectKeys (h : (l.map (·.1)).Nodup) :
    (collectKeys p bound l).1.lookup key =
      (l.lookup key).bind fun vs => (collectKey p bound vs).1 := by
  induction l with
  | nil => rfl
  | cons e l ih =>
    obtain ⟨k, vs⟩ := e
    obtain ⟨hk, hd⟩ := List.nodup_cons.mp h
    rw [collectKeys_cons]
    by_cases hkey : key = k
    · subst hkey
      rw [List.lookup_cons_self, Option.bind_some]
      cases hc : (collectKey p bound vs).1 with
      | none =>
        rw [Option.elim_none, List.lookup_eq_none_iff]
        intro e he
        rw [bne_iff_ne]
        rintro rfl
        exact hk (keys_collectKeys.subset (List.mem_map.mpr ⟨e, he, rfl⟩))
      | some kept => exact List.lookup_cons_self
    · have hn : (key == k) = false := beq_eq_false_iff_ne.mpr hkey
      rw [List.lookup_cons, hn, ← ih hd]
      cases (collectKey p bound vs).1 with
      | none => rfl
      | some kept => rw [Option.elim_some, List.lookup_cons, hn]

theorem versions_collect (h : s.Keyed) : (s.collect p minimum).1.versions key =
    ((s.keys.lookup key).bind fun vs => (collectKey p (p.seq minimum) vs).1).getD [] :=
  congrArg (·.getD []) (lookup_collectKeys h)

theorem mem_versions_collect {u : Stored} (h : s.Keyed)
    (hu : u ∈ (s.collect p minimum).1.versions key) : u ∈ s.versions key := by
  rw [versions_collect h] at hu
  rw [versions]
  cases hl : s.keys.lookup key with
  | none =>
    rw [hl] at hu
    cases hu
  | some vs =>
    rw [hl, Option.bind_some, collectKey] at hu
    split at hu
    · cases hu
    · exact List.mem_of_mem_drop hu

theorem reads_collect (h : s.Keyed) (hm : p.seq minimum ≤ bound) :
    Stored.reads p bound ((s.collect p minimum).1.versions key) =
      Stored.reads p bound (s.versions key) := by
  rw [versions_collect h, versions]
  cases s.keys.lookup key with
  | none => rfl
  | some vs => exact reads_collectKey hm

theorem read_collect (h : s.Keyed) (hm : p.seq minimum ≤ p.seq v) :
    (s.collect p minimum).1.read p key v = s.read p key v := by
  rw [read_eq, read_eq]
  exact reads_collect h hm

theorem length_collectKey :
    ((collectKey p bound vs).1.elim 0 List.length) + (collectKey p bound vs).2 = vs.length := by
  have h : (Timeline.prune (Stored.seq p) bound vs).length +
      ((Timeline.upTo (Stored.seq p) bound vs).length - 1) = vs.length := Timeline.length_prune
  rw [collectKey]
  split
  next hs =>
    obtain ⟨v, hk, -, -⟩ := isSpent_iff.mp hs
    rw [← h, hk, Option.elim_none, List.length_singleton]
    omega
  next => exact h

theorem length_collectKeys : ((collectKeys p bound l).1.map (·.2.length)).sum +
    (collectKeys p bound l).2 = (l.map (·.2.length)).sum := by
  induction l with
  | nil => rfl
  | cons e l ih =>
    obtain ⟨k, vs⟩ := e
    have h : ((collectKey p bound vs).1.elim 0 List.length) + (collectKey p bound vs).2 =
        vs.length := length_collectKey
    rw [collectKeys]
    generalize collectKeys p bound l = rest at ih ⊢
    obtain ⟨⟨kept, m⟩, hk⟩ : ∃ c, collectKey p bound vs = c := ⟨_, rfl⟩
    rw [hk] at h ⊢
    cases kept with
    | none =>
      simp only [Option.elim_none, List.map_cons, List.sum_cons] at h ⊢
      omega
    | some kept =>
      simp only [Option.elim_some, List.map_cons, List.sum_cons] at h ⊢
      omega

theorem valueCount_eq : s.valueCount = (s.keys.map (·.2.length)).sum := by
  rw [valueCount, List.sum_eq_foldl, List.foldl_map]

theorem valueCount_collect :
    (s.collect p minimum).1.valueCount + (s.collect p minimum).2 = s.valueCount := by
  rw [valueCount_eq, valueCount_eq]
  exact length_collectKeys

end Collect

end Store

end Multiversion
