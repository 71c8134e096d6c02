import Mathlib
import Multiversion.CommitLog
import Multiversion.Proofs.Lists
import Multiversion.Proofs.Position
import Multiversion.Transaction.Live

namespace Multiversion

variable {p : Position} {l : Live} {log : CommitLog} {idle floor : Version}
  {e : TransactionId × Version} {i : Nat}

namespace Live

theorem minimum_le (he : e ∈ l.pinned) : l.minimum p idle ≤ e.2 := by
  rw [minimum]
  cases hm : p.meet? (l.pinned.map (·.2)) with
  | none =>
    cases hp : l.pinned with
    | nil =>
      rw [hp] at he
      cases he
    | cons e es =>
      rw [hp] at hm
      cases hm
  | some v => exact Position.meet?_le hm (List.mem_map_of_mem he)

theorem component_minimum_le (h : ∀ e ∈ l.pinned, e.2.component i ≤ idle.component i) :
    (l.minimum p idle).component i ≤ idle.component i := by
  cases hp : l.pinned with
  | nil =>
    rw [minimum, hp]
    exact Nat.le_refl _
  | cons e es =>
    have he : e ∈ l.pinned := hp ▸ List.mem_cons_self ..
    exact (minimum_le he i).trans (h e he)

theorem mem_register {g : TransactionId} {v : Version} (he : e ∈ (l.register g v).pinned) :
    e ∈ l.pinned ∨ e = (g, v) := by
  rcases List.mem_append.mp he with he | he
  · exact .inl (List.mem_filter.mp he).1
  · exact .inr (List.mem_singleton.mp he)

end Live

namespace CommitLog

theorem current_prune : (log.prune p floor).1.current = log.current := by
  unfold prune
  split
  · rfl
  · split <;> rfl

def versions (log : CommitLog) : List Version := log.current :: log.history.map (·.version)

theorem isLeast_oldestView : IsLeast {id | ∃ v ∈ log.versions, v.view = id} log.oldestView := by
  have hset : {id | ∃ v ∈ log.versions, v.view = id} =
      {id | id ∈ log.current.view :: log.history.map (·.version.view)} := by
    ext id
    simp [versions, eq_comm]
  have hfold : log.oldestView =
      (log.history.map (·.version.view)).foldl min log.current.view := List.foldl_map.symm
  rw [hset, hfold]
  exact isLeast_foldl_min ..

theorem prune_le : (log.prune p floor).2 ≤ floor := by
  unfold prune
  split
  · exact le_rfl
  · split
    · exact le_rfl
    · exact Position.meet_le (List.mem_cons_of_mem _ (List.mem_cons_self ..))

end CommitLog

end Multiversion
