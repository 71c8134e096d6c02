import Mathlib
import Multiversion.Proofs.Queue.Progress

namespace Multiversion.Queue

variable {p : Position} {q r : Queue} {e : Entry} {c : Call} {cs : List Call} {m n : Nat}
  {f : Entry → Entry}

theorem Enqueued.id_ne (h : q.Enqueued e r) (hv : q.Valid) (hm : m ∈ q.line) :
    (q.entry m).id ≠ e.id := by
  intro hid
  have hnew : q.entries.size ∈ r.line := (h.line _).mpr (.inl rfl)
  have hold : m ∈ r.line := (h.line m).mpr (.inr hm)
  have he : (r.entry m).id = (r.entry q.entries.size).id := by
    rw [h.kept_line hv hm, h.fresh, hid]
  exact Nat.lt_irrefl _ (h.valid.id_inj hold hnew he ▸ hv.known hm)

theorem Sound.update (h : q.Sound) (hr : ∀ e, (f e).ready = e.ready)
    (hd : ∀ e, (f e).received = e.received) (ho : ∀ e, (f e).order = e.order) :
    (q.update m f).Sound := by
  intro n hn
  rw [line_update] at hn
  rw [update_keeps Entry.ready hr, decided_update hd ho]
  exact h n hn

namespace Call

/-- Nothing undecided comes to stand at or below a ready entry. -/
def Respects (p : Position) (q : Queue) : Call → Prop
  | prepare _ g v _ _ => ∀ m ∈ q.line, (q.entry m).id ≠ g → (q.entry m).ready = true →
      q.order m < p.seq v
  | commit g v _ => ∀ n ∈ q.line, (q.entry n).id = g → (q.entry n).ready = true →
      ∀ m ∈ q.line, (q.entry m).received = false → p.seq v < q.order m
  | _ => True

instance (p : Position) (q : Queue) : DecidablePred (Respects p q)
  | prepare _ g v _ _ => inferInstanceAs (Decidable (∀ m ∈ q.line, (q.entry m).id ≠ g →
      (q.entry m).ready = true → q.order m < p.seq v))
  | commit g v _ => inferInstanceAs (Decidable (∀ n ∈ q.line, (q.entry n).id = g →
      (q.entry n).ready = true → ∀ m ∈ q.line, (q.entry m).received = false → p.seq v < q.order m))
  | install _ => isTrue trivial
  | rollback _ _ => isTrue trivial
  | claim _ => isTrue trivial
  | markCommitted _ _ => isTrue trivial
  | detach _ => isTrue trivial

def Respected (p : Position) (q : Queue) : List Call → Prop
  | [] => True
  | c :: cs => c.Respects p q ∧ Respected (c.position p) (q.call p c).1 cs

instance decidableRespected (p : Position) (q : Queue) : (cs : List Call) →
    Decidable (Respected p q cs)
  | [] => isTrue trivial
  | c :: cs =>
    have := decidableRespected (c.position p) (q.call p c).1 cs
    inferInstanceAs (Decidable (c.Respects p q ∧ Respected (c.position p) (q.call p c).1 cs))

end Call

namespace Settled

variable (h : q.Settled)
include h

theorem exact (hs : q.Sound) : q.Exact := fun n hn => ⟨hs n hn, h.ready n hn⟩

theorem sound_call (hs : q.Sound) (hc : c.Respects p q) : (q.call p c).1.Sound := by
  cases c with
  | install p => exact hs
  | prepare tx g v clock now =>
    refine h.valid.prepare_cases (fun r hr => ?_) fun n r s hf hr hs' => ?_
    · exact hr.sound h.valid hs rfl fun m hm => hc m hm (hr.id_ne h.valid hm)
    · refine (hs'.valid.grantReady_exact now (hs'.sound hr.valid (hr.sound hs) rfl ?_)).sound
      intro m hm hu
      have hid := h.valid.free_of_removed hf hr m hm
      obtain ⟨hm, hmn⟩ := (hr.line m).mp hm
      rw [Queue.order, hr.kept m hmn]
      rw [hr.kept m hmn] at hid hu
      exact hc m hm hid hu
  | commit g v now =>
    refine h.valid.commit_cases hs fun n r hf hr => ?_
    obtain ⟨hn, hg⟩ := h.valid.find?_eq_some_iff.mp hf
    have hx := hr.valid.grantReady_exact now (hr.sound hs (hc n hn hg))
    refine hx.sound.update ?_ ?_ ?_
    all_goals
      intro e
      exact Entry.holdBack_keeps _ fun _ => rfl
  | rollback g now =>
    exact h.valid.rollback_cases hs fun n r _ hr =>
      (hr.valid.grantReady_exact now (hr.sound hs)).sound
  | claim n => exact hs.update (fun _ => rfl) (fun _ => rfl) fun _ => rfl
  | markCommitted n now =>
    apply hs.update
    all_goals
      intro e
      exact Entry.markCommitted_keeps _ fun _ _ _ => rfl
  | detach now =>
    exact h.valid.detach_cases fun r hr => (hr.valid.grantReady_exact now (hr.sound hs)).sound

theorem sound_run (hs : q.Sound) (hc : Call.Respected p q cs) :
    (Call.run Queue.call p q cs).1.Sound := by
  induction cs generalizing p q with
  | nil => exact hs
  | cons c cs ih => exact ih h.call.settled (h.sound_call hs hc.1) hc.2

theorem mem_readyPrefix (hn : n ∈ q.line) (hd : q.Decided n) : n ∈ q.readyPrefix :=
  mem_takeWhile_of_pairwise h.valid.sorted hn (h.ready n hn hd)
    fun m hm hmn => h.ready m hm (hd.of_le hmn.order_le)

end Settled

/-- No decided entry is passed over; and no ready entry, as long as the calls respect readiness. -/
theorem readyPrefix_complete (p : Position) (tracking : Bool) (cs : List Call) :
    let q := (Call.run call p { tracking } cs).1
    q.readyPrefix <+: q.line ∧
    (∀ n ∈ q.line, (∀ m ∈ q.line, q.order m ≤ q.order n → (q.entry m).received = true) →
      n ∈ q.readyPrefix) ∧
    (∀ n ∈ q.line, (q.entry n).ready = true → n ∉ q.readyPrefix →
      ∃ m ∈ q.line, q.order m ≤ q.order n ∧ (q.entry m).received = false) ∧
    (Call.Respected p { tracking } cs →
      q.readyPrefix = q.line.filter fun n => (q.entry n).ready) := by
  intro q
  have hq : q.Settled := settled_run
  refine ⟨List.takeWhile_prefix _, fun n => hq.mem_readyPrefix, fun n hn _ hp => ?_, fun hc => ?_⟩
  · by_contra hu
    push Not at hu
    exact hp (hq.mem_readyPrefix hn fun m hm hle => by simpa using hu m hm hle)
  · have hs : Sound { tracking } := fun n hn => absurd hn List.not_mem_nil
    exact (hq.exact (Settled.empty.sound_run hs hc)).readyPrefix_eq hq.valid

def recommitted : List Call :=
  [.prepare 0 ⟨default, 1⟩ ⟨1, 0, [1]⟩ 0 0, .prepare 1 ⟨default, 2⟩ ⟨1, 0, [4]⟩ 0 0,
    .commit ⟨default, 1⟩ ⟨1, 0, [2]⟩ 0, .commit ⟨default, 1⟩ ⟨1, 0, [3]⟩ 0,
    .prepare 2 ⟨default, 3⟩ ⟨1, 0, [6]⟩ 0 0, .commit ⟨default, 2⟩ ⟨1, 0, [4]⟩ 0,
    .commit ⟨default, 2⟩ ⟨1, 0, [5]⟩ 0]

theorem readyPrefix_complete_recommitted :
    let q := (Call.run call (.of 0 1 1) {} recommitted).1
    Call.Respected (.of 0 1 1) {} recommitted ∧ q.line = [0, 1, 2] ∧ q.readyPrefix = [0, 1] ∧
      q.readyPrefix = q.line.filter fun n => (q.entry n).ready := by
  have hc : Call.Respected (.of 0 1 1) {} recommitted := by decide +kernel
  exact ⟨hc, by decide +kernel, by decide +kernel,
    (readyPrefix_complete (.of 0 1 1) false recommitted).2.2.2 hc⟩

def granted : List Call :=
  [.prepare 0 ⟨default, 1⟩ ⟨1, 0, [5]⟩ 0 0, .commit ⟨default, 1⟩ ⟨1, 0, [5]⟩ 0]

def undercut : Queue :=
  (Call.run call (.of 0 1 1) {} (granted ++ [.prepare 1 ⟨default, 2⟩ ⟨1, 0, [3]⟩ 0 0])).1

def movedBehind : Queue :=
  (Call.run call (.of 0 1 1) {} (granted ++
    [.prepare 1 ⟨default, 2⟩ ⟨1, 0, [6]⟩ 0 0, .commit ⟨default, 1⟩ ⟨1, 0, [7]⟩ 0])).1

/-- A prepare below a ready entry takes it out of the prefix, and so does a second commit that moves
    it behind an undecided one. -/
theorem ready_passed_over :
    (undercut.line = [1, 0] ∧ (undercut.entry 0).ready = true ∧ undercut.readyPrefix = []) ∧
    movedBehind.line = [1, 0] ∧ (movedBehind.entry 0).ready = true ∧
      movedBehind.readyPrefix = [] := by
  decide +kernel

end Multiversion.Queue
