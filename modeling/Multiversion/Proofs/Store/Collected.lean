import Mathlib
import Multiversion.Proofs.Lists
import Multiversion.Proofs.Store.Newest

namespace Multiversion.Store

inductive Call where
  | apply (tx : Committed)
  | collect (minimum : Version)

def call (s : Store) (p : Position) : Call → Store
  | .apply tx => s.apply p tx
  | .collect minimum => (s.collect p minimum).1

def run (s : Store) (p : Position) (calls : List Call) : Store := calls.foldl (·.call p ·) s

structure Valid (p : Position) (s : Store) : Prop where
  keyed : s.Keyed
  stocked : ∀ e ∈ s.keys, e.2 ≠ []
  sorted : ∀ e ∈ s.keys, Timeline.Sorted (Stored.rank p) e.2

variable {p : Position} {s : Store} {tx : Committed} {key : String} {vs : List Stored}
  {l : List (String × List Stored)} {e : String × List Stored} {value : Stored}
  {minimum : Version} {bound : Nat} {calls : List Call} {c : Call}

theorem Keyed.versions_of_mem (h : s.Keyed) (he : (key, vs) ∈ s.keys) : s.versions key = vs := by
  rw [versions, (lookup_eq_some_iff h).mpr he]
  rfl

theorem mem_set (h : e ∈ set key vs l) : e = (key, vs) ∨ e ∈ l := by
  induction l with
  | nil => exact .inl (List.mem_singleton.mp h)
  | cons u l ih =>
    obtain ⟨k, old⟩ := u
    rw [set] at h
    split at h
    next hk =>
      rcases List.mem_cons.mp h with rfl | h
      · exact .inl (by rw [hk])
      · exact .inr (List.mem_cons_of_mem _ h)
    next =>
      rcases List.mem_cons.mp h with rfl | h
      · exact .inr (List.mem_cons_self ..)
      · exact (ih h).imp_right (List.mem_cons_of_mem _)

theorem mem_collectKeys (h : e ∈ (collectKeys p bound l).1) :
    ∃ vs, (e.1, vs) ∈ l ∧ (collectKey p bound vs).1 = some e.2 := by
  induction l with
  | nil => exact absurd h List.not_mem_nil
  | cons u l ih =>
    obtain ⟨k, vs⟩ := u
    rw [collectKeys_cons] at h
    cases hk : (collectKey p bound vs).1 with
    | none =>
      rw [hk] at h
      obtain ⟨us, hu, hc⟩ := ih h
      exact ⟨us, List.mem_cons_of_mem _ hu, hc⟩
    | some kept =>
      rw [hk] at h
      rcases List.mem_cons.mp h with rfl | h
      · exact ⟨vs, List.mem_cons_self .., hk⟩
      · obtain ⟨us, hu, hc⟩ := ih h
        exact ⟨us, List.mem_cons_of_mem _ hu, hc⟩

theorem collectKey_cases (p : Position) (bound : Nat) (vs : List Stored) :
    (∃ v, Timeline.prune (Stored.seq p) bound vs = [v] ∧ v.value = none ∧ v.seq p ≤ bound ∧
      (collectKey p bound vs).1 = none) ∨
    isSpent p bound (Timeline.prune (Stored.seq p) bound vs) = false ∧
      (collectKey p bound vs).1 = some (Timeline.prune (Stored.seq p) bound vs) := by
  rw [collectKey]
  split
  next hs =>
    obtain ⟨v, hk, hv, hle⟩ := isSpent_iff.mp hs
    exact .inl ⟨v, hk, hv, hle, rfl⟩
  next hs => exact .inr ⟨by simpa using hs, rfl⟩

theorem collectKey_eq_some {kept : List Stored} (h : (collectKey p bound vs).1 = some kept) :
    kept = Timeline.prune (Stored.seq p) bound vs ∧ isSpent p bound kept = false := by
  rcases collectKey_cases p bound vs with ⟨-, -, -, -, hc⟩ | ⟨hs, hc⟩
  · rw [hc] at h
    cases h
  · rw [hc] at h
    cases h
    exact ⟨rfl, hs⟩

namespace Valid

theorem empty : Valid p {} := by
  refine ⟨Keyed.empty, ?_, ?_⟩ <;> exact fun e he => absurd he List.not_mem_nil

theorem sorted_versions (h : s.Valid p) : Timeline.Sorted (Stored.rank p) (s.versions key) := by
  rw [versions]
  cases hl : s.keys.lookup key with
  | none => exact List.Pairwise.nil
  | some vs => exact h.sorted _ ((lookup_eq_some_iff h.keyed).mp hl)

theorem put (h : s.Valid p) : (s.put p key value).Valid p := by
  refine ⟨h.keyed.put, fun e he => ?_, fun e he => ?_⟩
  · rcases mem_set he with rfl | he
    · exact List.ne_nil_of_mem (Timeline.mem_insert.mpr (.inl rfl))
    · exact h.stocked e he
  · rcases mem_set he with rfl | he
    · exact h.sorted_versions.insert
    · exact h.sorted e he

theorem apply (h : s.Valid p) : (s.apply p tx).Valid p := by
  rw [Store.apply]
  generalize tx.writes = ws
  induction ws generalizing s with
  | nil => exact h
  | cons w ws ih => exact ih h.put

theorem collect (h : s.Valid p) : (s.collect p minimum).1.Valid p := by
  refine ⟨h.keyed.collect, fun e he => ?_, fun e he => ?_⟩
  · obtain ⟨vs, hvs, hc⟩ := mem_collectKeys he
    rw [(collectKey_eq_some hc).1]
    exact Timeline.prune_ne_nil (h.stocked _ hvs)
  · obtain ⟨vs, hvs, hc⟩ := mem_collectKeys he
    rw [(collectKey_eq_some hc).1]
    exact (h.sorted _ hvs).sublist (List.drop_sublist ..)

theorem call (h : s.Valid p) : (s.call p c).Valid p := by
  cases c with
  | apply tx => exact h.apply
  | collect minimum => exact h.collect

theorem run (h : s.Valid p) : (s.run p calls).Valid p := by
  induction calls generalizing s with
  | nil => exact h
  | cons c calls ih => exact ih h.call

theorem versions_collect_cases (h : s.Valid p) (minimum : Version) (key : String) :
    (∃ v, Timeline.prune (Stored.seq p) (p.seq minimum) (s.versions key) = [v] ∧
      v.value = none ∧ v.seq p ≤ p.seq minimum ∧
      (s.collect p minimum).1.versions key = []) ∨
    (s.collect p minimum).1.versions key =
      Timeline.prune (Stored.seq p) (p.seq minimum) (s.versions key) := by
  rw [versions_collect h.keyed, versions]
  cases s.keys.lookup key with
  | none => exact .inr rfl
  | some vs =>
    rcases collectKey_cases p (p.seq minimum) vs with
      ⟨v, hp, hv, hle, hc⟩ | ⟨-, hc⟩
    · exact .inl ⟨v, hp, hv, hle, by rw [Option.bind_some, hc]; rfl⟩
    · exact .inr (by rw [Option.bind_some, hc]; rfl)

theorem above_collect (h : s.Valid p) :
    ((s.collect p minimum).1.versions key).filter (p.seq minimum < ·.seq p) =
      (s.versions key).filter (p.seq minimum < ·.seq p) := by
  have hasc : Timeline.Ascending (Stored.seq p) (s.versions key) := h.sorted_versions.ascending
  rw [← hasc.above_prune]
  rcases h.versions_collect_cases minimum key with ⟨v, hp, -, hle, hc⟩ | hc
  · simp [hp, hc, hle]
  · rw [hc]

theorem reached_collect (h : s.Valid p) :
    ((s.collect p minimum).1.versions key).filter (·.seq p ≤ p.seq minimum) =
      (Timeline.newest? (Stored.seq p) (p.seq minimum) (s.versions key)).toList ∨
    ∃ v, Timeline.newest? (Stored.seq p) (p.seq minimum) (s.versions key) = some v ∧
      v.value = none ∧ (s.collect p minimum).1.versions key = [] := by
  have hasc : Timeline.Ascending (Stored.seq p) (s.versions key) := h.sorted_versions.ascending
  have hreached : ((Timeline.prune (Stored.seq p) (p.seq minimum) (s.versions key)).filter
      (·.seq p ≤ p.seq minimum)) =
      (Timeline.newest? (Stored.seq p) (p.seq minimum) (s.versions key)).toList :=
    hasc.reached_prune
  rcases h.versions_collect_cases minimum key with ⟨v, hp, hv, hle, hc⟩ | hc
  · refine .inr ⟨v, ?_, hv, hc⟩
    rw [hp, List.filter_singleton, decide_eq_true hle] at hreached
    exact Option.toList_eq_singleton_iff.mp hreached.symm
  · rw [hc]
    exact .inl hreached

end Valid

/-- A collection is invisible at its minimum and above. Of what the minimum reaches it leaves the
    newest value at most, and nothing of a key that ends there in a removal. -/
theorem collect_exact (p : Position) (calls : List Call) (minimum : Version) :
    let before := ({} : Store).run p calls
    let after := (before.collect p minimum).1
    let removed := (before.collect p minimum).2
    (∀ key v, p.seq minimum ≤ p.seq v → after.read p key v = before.read p key v) ∧
    (∀ key, after.versions key <:+ before.versions key ∧
      (after.versions key).filter (p.seq minimum < ·.seq p) =
        (before.versions key).filter (p.seq minimum < ·.seq p) ∧
      ((after.versions key).filter (·.seq p ≤ p.seq minimum) =
          (Timeline.newest? (Stored.seq p) (p.seq minimum) (before.versions key)).toList ∨
        ∃ v, Timeline.newest? (Stored.seq p) (p.seq minimum) (before.versions key) = some v ∧
          v.value = none ∧ after.versions key = [])) ∧
    (∀ key vs, (key, vs) ∈ after.keys → after.versions key = vs ∧ vs ≠ [] ∧
      ∀ v, vs = [v] → v.value = none → p.seq minimum < v.seq p) ∧
    after.valueCount + removed = before.valueCount := by
  intro before after removed
  have h : before.Valid p := Valid.empty.run
  refine ⟨fun key v hv => read_collect h.keyed hv,
    fun key => ⟨?_, h.above_collect, h.reached_collect⟩, fun key vs hvs => ?_, valueCount_collect⟩
  · rcases h.versions_collect_cases minimum key with ⟨-, -, -, -, hc⟩ | hc
    · rw [hc]
      exact List.nil_suffix
    · rw [hc]
      exact List.drop_suffix ..
  · refine ⟨h.collect.keyed.versions_of_mem hvs, h.collect.stocked _ hvs, ?_⟩
    rintro v rfl hv
    obtain ⟨us, -, hc⟩ := mem_collectKeys hvs
    simpa [isSpent, hv] using (collectKey_eq_some hc).2

theorem collect_exact_mixed :
    let tx (n sub : Nat) (ws : List Write) : Committed := ⟨default, ⟨1, 0, [n]⟩, ws, sub, 0⟩
    let p := Position.of 0 1 1
    let calls : List Call := [.apply (tx 6 0 [⟨"a", some [3]⟩, ⟨"c", some [3]⟩]),
      .apply (tx 4 1 [⟨"b", none⟩, ⟨"c", none⟩, ⟨"d", some [2]⟩]), .collect ⟨1, 0, [1]⟩,
      .apply (tx 4 0 [⟨"d", some [1]⟩]), .apply (tx 2 0 [⟨"a", some [1]⟩, ⟨"b", some [1]⟩]),
      .apply (tx 3 0 [⟨"a", some [2]⟩])]
    let store := ({} : Store).run p calls
    let after := store.collect p ⟨1, 0, [5]⟩
    after.1.keys.map (fun e => (e.1, e.2.map fun v => (v.seq p, v.sub))) =
      [("a", [(3, 0), (6, 0)]), ("c", [(4, 1), (6, 0)]), ("d", [(4, 1)])] ∧
    after.2 = 4 ∧
    after.1.read p "b" ⟨1, 0, [5]⟩ = store.read p "b" ⟨1, 0, [5]⟩ ∧
    after.1.read p "b" ⟨1, 0, [3]⟩ ≠ store.read p "b" ⟨1, 0, [3]⟩ := by
  intro tx p calls store after
  obtain ⟨hread, -, -, -⟩ := collect_exact p calls ⟨1, 0, [5]⟩
  exact ⟨by decide +kernel, by decide +kernel, hread "b" ⟨1, 0, [5]⟩ (by decide +kernel),
    by decide +kernel⟩

end Multiversion.Store
