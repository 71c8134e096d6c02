import Mathlib
import Multiversion.Proofs.CommitLog
import Multiversion.Proofs.Store.Collected

namespace Multiversion

variable {p : Position} {log : CommitLog} {s t : Store} {key : String} {vs : List Stored}
  {txs : List Committed} {batches others : List (List Committed)}

namespace CommitLog

theorem run_insert : log.run p (batches.map .insert) = log.insertAll p batches.flatten := by
  rw [run, List.foldl_map, insertAll, List.foldl_flatten]
  rfl

theorem sort_entry : Timeline.sort (LogEntry.rank p) (txs.map (·.entry)) =
    (Timeline.sort (Committed.rank p) txs).map (·.entry) := Timeline.sort_map

theorem insertAll_empty : (empty p).insertAll p txs =
    { current := txs.foldl (fun v tx => p.join v [tx.version]) p.zero
      history := (Timeline.sort (Committed.rank p) txs).map (·.entry)
      floor := p.zero } := by
  rw [insertAll_eq, ← sort_entry, ← List.nil_append (txs.map _),
    ← Timeline.Sorted.foldl_insert List.Pairwise.nil]
  rfl

theorem history_sorted : ((empty p).run p (batches.map .insert)).history =
    (Timeline.sort (Committed.rank p) batches.flatten).map (·.entry) := by
  rw [run_insert, insertAll_empty]

theorem run_insert_perm (hp : batches.flatten.Perm others.flatten)
    (hd : (batches.flatten.map (Committed.rank p)).Nodup) :
    (empty p).run p (others.map .insert) = (empty p).run p (batches.map .insert) := by
  have hcurrent : others.flatten.foldl (fun v tx => p.join v [tx.version]) p.zero =
      batches.flatten.foldl (fun v tx => p.join v [tx.version]) p.zero :=
    hp.symm.foldl_eq' (fun _ _ _ _ _ => Position.join_right_comm) _
  rw [run_insert, run_insert, insertAll_empty, insertAll_empty, hcurrent,
    Timeline.sort_eq_of_perm hp hd]

end CommitLog

namespace Store

theorem versions_run_apply : (s.run p (txs.map .apply)).versions key =
    (txs.flatMap (·.stored key)).foldl (fun vs v => Timeline.insert (Stored.rank p) v vs)
      (s.versions key) := by
  induction txs generalizing s with
  | nil => rfl
  | cons tx txs ih =>
    rw [List.flatMap_cons, List.foldl_append, ← versions_apply_eq, ← ih]
    rfl

theorem sort_stored : Timeline.sort (Stored.rank p) (txs.flatMap (·.stored key)) =
    (Timeline.sort (Committed.rank p) txs).flatMap (·.stored key) :=
  Timeline.sort_flatMap fun _ _ hv => Committed.rank_stored hv

theorem versions_sorted : (({} : Store).run p (txs.map .apply)).versions key =
    (Timeline.sort (Committed.rank p) txs).flatMap (·.stored key) := by
  rw [versions_run_apply, ← sort_stored]
  exact Timeline.Sorted.foldl_insert List.Pairwise.nil

theorem Valid.mem_keys (h : s.Valid p) :
    (key, vs) ∈ s.keys ↔ vs ≠ [] ∧ s.versions key = vs := by
  constructor
  · exact fun he => ⟨h.stocked _ he, h.keyed.versions_of_mem he⟩
  · rintro ⟨hvs, he⟩
    rw [versions] at he
    cases hl : s.keys.lookup key with
    | none => exact absurd (by rw [← he, hl]; rfl) hvs
    | some us =>
      rw [hl] at he
      exact he ▸ (lookup_eq_some_iff h.keyed).mp hl

theorem Valid.keys_perm (hs : s.Valid p) (ht : t.Valid p)
    (h : ∀ key, s.versions key = t.versions key) : s.keys.Perm t.keys := by
  rw [List.perm_ext_iff_of_nodup hs.keyed.of_map ht.keyed.of_map]
  rintro ⟨key, vs⟩
  rw [hs.mem_keys, ht.mem_keys, h]

end Store

/-- What was applied is kept in one order. Equal ranks keep the order in which they came, and
    without them it does not matter how they came. -/
theorem Committed.sorted_stably (p : Position) (batches : List (List Committed)) :
    let txs := batches.flatten
    let order := Timeline.sort (Committed.rank p) txs
    let log := (CommitLog.empty p).run p (batches.map .insert)
    let store := ({} : Store).run p (txs.map .apply)
    log.history = Timeline.sort (LogEntry.rank p) (txs.map (·.entry)) ∧
    (∀ key, store.versions key = Timeline.sort (Stored.rank p) (txs.flatMap (·.stored key))) ∧
    log.history = order.map (·.entry) ∧
    (∀ key, store.versions key = order.flatMap (·.stored key)) ∧
    (∀ key v, store.read p key v =
      ((order.flatMap (·.stored key)).filter (·.seq p ≤ p.seq v)).getLast?.bind (·.value)) ∧
    ((txs.map (Committed.rank p)).Nodup → ∀ others : List (List Committed),
      txs.Perm others.flatten →
        let store' := ({} : Store).run p (others.flatten.map .apply)
        (CommitLog.empty p).run p (others.map .insert) = log ∧
        store'.keys.Perm store.keys ∧ ∀ key, store'.versions key = store.versions key) := by
  intro txs order log store
  have hlog : log.history = order.map (·.entry) := CommitLog.history_sorted
  have hstore (key) : store.versions key = order.flatMap (·.stored key) := Store.versions_sorted
  refine ⟨hlog.trans CommitLog.sort_entry.symm, fun key => ?_, hlog, hstore, fun key v => ?_,
    fun hd others hp => ?_⟩
  · rw [hstore, ← Store.sort_stored]
  · rw [Store.read_eq, hstore]
    rfl
  · have hversions (key) : (({} : Store).run p (others.flatten.map .apply)).versions key =
        store.versions key := by
      rw [Store.versions_sorted, ← Timeline.sort_eq_of_perm hp hd]
      exact (hstore key).symm
    exact ⟨CommitLog.run_insert_perm hp hd,
      Store.Valid.empty.run.keys_perm Store.Valid.empty.run hversions, hversions⟩

theorem Committed.sorted_stably_rewritten :
    let tx (n sub : Nat) (ws : List Write) : Committed := ⟨default, ⟨1, 0, [n, n + 1]⟩, ws, sub, 0⟩
    let p := Position.of 0 1 2
    let a := tx 4 1 [⟨"k", some [1]⟩, ⟨"l", none⟩, ⟨"k", some [2]⟩]
    let b := tx 4 0 [⟨"l", some [3]⟩, ⟨"k", some [4]⟩]
    let c := tx 2 7 [⟨"k", none⟩, ⟨"k", some [5]⟩]
    let log (batches : List (List Committed)) := (CommitLog.empty p).run p (batches.map .insert)
    let store (txs : List Committed) := ({} : Store).run p (txs.map .apply)
    (log [[a], [b, c]]).history.map (·.rank p) = [⟨2, 7⟩, ⟨4, 0⟩, ⟨4, 1⟩] ∧
    ((store [a, b, c]).versions "k").map (·.value) =
      [none, some [5], some [4], some [1], some [2]] ∧
    log [[b], [c, a]] = log [[a], [b, c]] ∧
    (store [b, c, a]).keys ≠ (store [a, b, c]).keys ∧
    (store [b, c, a]).keys.Perm (store [a, b, c]).keys ∧
    -- equal ranks come in the order of arrival
    (store [a, { b with sub := 1 }]).read p "k" ⟨1, 0, [4]⟩ = some [4] ∧
    (store [{ b with sub := 1 }, a]).read p "k" ⟨1, 0, [4]⟩ = some [2] := by
  intro tx p a b c log store
  obtain ⟨-, -, -, -, -, hperm⟩ := Committed.sorted_stably p [[a], [b, c]]
  obtain ⟨hlog, hkeys, -⟩ := hperm (by decide +kernel) [[b], [c, a]] (by decide +kernel)
  exact ⟨by decide +kernel, by decide +kernel, hlog, by decide +kernel, hkeys, by decide +kernel,
    by decide +kernel⟩

end Multiversion
