import Mathlib
import Multiversion.Proofs.CommitLog
import Multiversion.Proofs.Store.Collected

namespace Multiversion

namespace Store

variable {p : Position} {s : Store} {vs : List Stored} {l : List (String × List Stored)}
  {a b m : Version} {floor bound : Nat} {key : String}

theorem isSpent_mono (h : floor ≤ bound) (hs : isSpent p floor vs = true) :
    isSpent p bound vs = true := by
  obtain ⟨v, rfl, hv, hle⟩ := isSpent_iff.mp hs
  exact isSpent_iff.mpr ⟨v, rfl, hv, hle.trans h⟩

theorem fst_collectKey : (collectKey p bound vs).1 =
    if isSpent p bound (Timeline.prune (Stored.seq p) bound vs) then none
    else some (Timeline.prune (Stored.seq p) bound vs) := by
  rw [collectKey]
  split <;> rfl

/-- A removal that the first collection leaves in place falls to the second one, and one that it
    takes would have fallen to it as well. -/
theorem collectKey_collectKey :
    ((collectKey p floor vs).1.bind fun kept => (collectKey p bound kept).1) =
      (collectKey p (max floor bound) vs).1 := by
  have honce : (collectKey p (max floor bound) vs).1 = if isSpent p (max floor bound)
      (Timeline.prune (Stored.seq p) bound (Timeline.prune (Stored.seq p) floor vs)) then none
      else some (Timeline.prune (Stored.seq p) bound (Timeline.prune (Stored.seq p) floor vs)) := by
    rw [fst_collectKey, Timeline.prune_prune]
  rw [honce, fst_collectKey]
  cases hs : isSpent p floor (Timeline.prune (Stored.seq p) floor vs) with
  | true =>
    obtain ⟨v, hk, hv, hle⟩ := isSpent_iff.mp hs
    have hcut : Timeline.prune (Stored.seq p) bound [v] = [v] := by
      by_cases hb : v.seq p ≤ bound <;> simp [Timeline.prune, Timeline.upTo, hb]
    have hspent : isSpent p (max floor bound) [v] = true :=
      isSpent_iff.mpr ⟨v, rfl, hv, hle.trans (Nat.le_max_left ..)⟩
    rw [hk, hcut, hspent]
    rfl
  | false =>
    simp only [Bool.false_eq_true, if_false, Option.bind_some, fst_collectKey]
    rcases Nat.le_total floor bound with h | h
    · rw [Nat.max_eq_right h]
    · have hcut : Timeline.prune (Stored.seq p) bound (Timeline.prune (Stored.seq p) floor vs) =
          Timeline.prune (Stored.seq p) floor vs := by
        rw [Timeline.prune_prune, Nat.max_eq_left h]
      have hunspent : isSpent p bound (Timeline.prune (Stored.seq p) floor vs) = false := by
        by_contra hb
        rw [isSpent_mono h (by simpa using hb)] at hs
        cases hs
      rw [hcut, Nat.max_eq_left h, hs, hunspent]

theorem collectKeys_collectKeys : (collectKeys p bound (collectKeys p floor l).1).1 =
    (collectKeys p (max floor bound) l).1 := by
  induction l with
  | nil => rfl
  | cons e l ih =>
    obtain ⟨k, vs⟩ := e
    have honce : (collectKeys p (max floor bound) ((k, vs) :: l)).1 =
        ((collectKey p floor vs).1.bind fun kept => (collectKey p bound kept).1).elim
          (collectKeys p bound (collectKeys p floor l).1).1
          fun kept => (k, kept) :: (collectKeys p bound (collectKeys p floor l).1).1 := by
      rw [collectKeys_cons, collectKey_collectKey, ih]
    rw [honce, collectKeys_cons]
    cases (collectKey p floor vs).1 with
    | none => rfl
    | some kept => exact collectKeys_cons

theorem collect_collect (h : p.seq m = max (p.seq a) (p.seq b)) :
    ((s.collect p a).1.collect p b).1 = (s.collect p m).1 := by
  rw [collect, collect, collect, h]
  exact congrArg Store.mk collectKeys_collectKeys

theorem counted_collect_collect (h : p.seq m = max (p.seq a) (p.seq b)) :
    (s.collect p a).2 + ((s.collect p a).1.collect p b).2 = (s.collect p m).2 := by
  have hfirst : (s.collect p a).1.valueCount + (s.collect p a).2 = s.valueCount :=
    valueCount_collect
  have hsecond : ((s.collect p a).1.collect p b).1.valueCount +
      ((s.collect p a).1.collect p b).2 = (s.collect p a).1.valueCount := valueCount_collect
  have honce : (s.collect p m).1.valueCount + (s.collect p m).2 = s.valueCount :=
    valueCount_collect
  rw [collect_collect h] at hsecond
  omega

theorem Valid.length_reached_collect (h : s.Valid p) :
    (((s.collect p m).1.versions key).filter (·.seq p ≤ p.seq m)).length ≤ 1 := by
  obtain hleft | ⟨-, -, -, hgone⟩ : ((s.collect p m).1.versions key).filter (·.seq p ≤ p.seq m) =
      (Timeline.newest? (Stored.seq p) (p.seq m) (s.versions key)).toList ∨ _ := h.reached_collect
  · rw [hleft]
    exact Option.length_toList_le
  · simp [hgone]

end Store

namespace CommitLog

variable {p : Position} {log : CommitLog} {a b floor : Version}

theorem prune_of_reached
    (h : Timeline.upTo (LogEntry.seq p) (p.seq floor) log.history ≠ []) :
    ∃ kept later, Timeline.prune (LogEntry.seq p) (p.seq floor) log.history = kept :: later ∧
      kept.seq p ≤ p.seq floor ∧
      log.prune p floor =
        ({ log with history := kept :: later, floor := p.meet kept.version [floor] },
          p.meet kept.version [floor]) := by
  rcases Timeline.prune_cut (LogEntry.seq p) (p.seq floor) log.history with
    ⟨hu, -⟩ | ⟨gone, kept, hu, -, hp⟩
  · exact absurd hu h
  · have hkept : kept ∈ Timeline.upTo (LogEntry.seq p) (p.seq floor) log.history := by simp [hu]
    exact ⟨kept, _, hp, by simpa using List.mem_takeWhile_imp hkept, by rw [prune, if_neg h, hp]⟩

/-- A prune that goes further forgets what an earlier one has remembered. -/
theorem prune_prune (h : p.seq a ≤ p.seq b) : (log.prune p a).1.prune p b = log.prune p b := by
  by_cases ha : Timeline.upTo (LogEntry.seq p) (p.seq a) log.history = []
  · have hnone : log.prune p a = (log, a) := by rw [prune, if_pos ha]
    rw [hnone]
  · obtain ⟨first, rest, hcut, hle, hpa⟩ := prune_of_reached ha
    have hlog : Timeline.upTo (LogEntry.seq p) (p.seq b) log.history ≠ [] :=
      fun hb => ha (Timeline.upTo_eq_nil_of_le h hb)
    have hpruned : Timeline.upTo (LogEntry.seq p) (p.seq b) (log.prune p a).1.history ≠ [] := by
      rw [hpa, ne_eq, Timeline.upTo_eq_nil_iff]
      exact fun hn => absurd (hn first rfl) (Nat.not_lt.mpr (hle.trans h))
    have hsame : Timeline.prune (LogEntry.seq p) (p.seq b) (log.prune p a).1.history =
        Timeline.prune (LogEntry.seq p) (p.seq b) log.history := by
      rw [history_prune, Timeline.prune_prune, Nat.max_eq_right h]
    obtain ⟨kept, later, hk, -, hpb⟩ := prune_of_reached hlog
    obtain ⟨kept', later', hk', -, hpab⟩ := prune_of_reached hpruned
    obtain ⟨rfl, rfl⟩ := List.cons.inj ((hk'.symm.trans hsame).trans hk)
    rw [hpb, hpab, hpa]

theorem Sorted.length_reached_prune (h : log.Sorted p) :
    ((log.prune p floor).1.history.filter fun e => e.seq p ≤ p.seq floor).length ≤ 1 := by
  rw [history_prune, h.ascending.reached_prune]
  exact Option.length_toList_le

end CommitLog

/-- Two collections come to the one that reaches further, also in what they count, and two
    ascending prunes to the second one. At most one value of a key, and one entry of the log, is
    then left at the bound. -/
theorem Position.successive_absorb (p : Position) (applied : List Store.Call)
    (logged : List CommitLog.Call) (a b : Version) :
    let store := ({} : Store).run p applied
    let log := (CommitLog.empty p).run p logged
    let first := store.collect p a
    let second := first.1.collect p b
    (∀ m, p.seq m = max (p.seq a) (p.seq b) →
      second.1 = (store.collect p m).1 ∧ first.2 + second.2 = (store.collect p m).2 ∧
      ∀ key, ((second.1.versions key).filter (·.seq p ≤ p.seq m)).length ≤ 1) ∧
    (p.seq a ≤ p.seq b →
      (log.prune p a).1.prune p b = log.prune p b ∧
      ((log.prune p b).1.history.filter fun e => e.seq p ≤ p.seq b).length ≤ 1) := by
  intro store log first second
  have hstore : store.Valid p := Store.Valid.empty.run
  have hlog : log.Sorted p := CommitLog.sorted_empty.run
  refine ⟨fun m hm => ?_, fun hab => ⟨CommitLog.prune_prune hab, hlog.length_reached_prune⟩⟩
  have hsame : second.1 = (store.collect p m).1 := Store.collect_collect hm
  refine ⟨hsame, Store.counted_collect_collect hm, fun key => ?_⟩
  rw [hsame]
  exact hstore.length_reached_collect

theorem Position.successive_absorb_descending :
    let tx (n : Nat) (ws : List Write) : Committed := ⟨default, ⟨1, 0, [n, 7]⟩, ws, 0, 0⟩
    let p := Position.of 0 1 2
    let a : Version := ⟨1, 0, [5, 1]⟩
    let b : Version := ⟨1, 0, [3, 9]⟩
    let txs := [tx 2 [⟨"k", some [1]⟩, ⟨"l", some [2]⟩], tx 3 [⟨"k", none⟩, ⟨"m", some [3]⟩],
      tx 4 [⟨"l", none⟩, ⟨"m", some [4]⟩], tx 6 [⟨"l", some [5]⟩]]
    let store := ({} : Store).run p (txs.map .apply)
    let log := (CommitLog.empty p).run p [.insert txs]
    -- the count of either order, and what the lower bound takes of it
    (store.collect p a).2 = 4 ∧ (store.collect p b).2 = 2 ∧
    ((store.collect p a).1.collect p b).1 = (store.collect p a).1 ∧
    (store.collect p b).2 + ((store.collect p b).1.collect p a).2 = (store.collect p a).2 ∧
    (store.collect p a).1.keys.map (fun e => (e.1, e.2.map (·.seq p))) =
      [("l", [4, 6]), ("m", [4])] ∧
    (log.prune p b).1.prune p a = log.prune p a ∧
    (log.prune p a).1.history.map (·.seq p) = [4, 6] ∧ (log.prune p a).2 = ⟨1, 0, [4, 1]⟩ := by
  intro tx p a b txs store log
  obtain ⟨hab, -⟩ := Position.successive_absorb p (txs.map .apply) [.insert txs] a b
  obtain ⟨hba, hprune⟩ := Position.successive_absorb p (txs.map .apply) [.insert txs] b a
  obtain ⟨hsame, -, -⟩ := hab a (by decide)
  obtain ⟨-, hcount, -⟩ := hba a (by decide)
  obtain ⟨hlog, -⟩ := hprune (by decide)
  exact ⟨by decide +kernel, by decide +kernel, hsame, hcount, by decide +kernel, hlog,
    by decide +kernel, by decide +kernel⟩

end Multiversion
