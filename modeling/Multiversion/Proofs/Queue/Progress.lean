import Mathlib
import Multiversion.Proofs.Queue.Exact
import Multiversion.Proofs.Queue.Run

namespace Multiversion.Queue

variable {p : Position} {q r s : Queue} {g : TransactionId} {v : Version} {e : Entry} {c : Call}
  {cs : List Call} {m n u tx order clock : Nat} {f : Entry → Entry} {now : Time}

def Backed (q : Queue) : Prop :=
  ∀ n ∈ q.line, (q.entry n).ready = true → (q.entry n).received = true

structure Settled (q : Queue) : Prop where
  valid : q.Valid
  backed : q.Backed
  ready : ∀ n ∈ q.line, q.Decided n → (q.entry n).ready = true

structure Granted (q r : Queue) : Prop where
  settled : r.Settled
  exact : ∀ n, (q.entry n).ready = false →
    ((r.entry n).ready = true ↔ n ∈ r.line ∧ r.Decided n)

def BlockedBy (q : Queue) (u n : Nat) : Prop :=
  n ∈ q.line ∧ n ≠ u ∧ ∀ m ∈ q.line, q.order m ≤ q.order n → m ≠ u → (q.entry m).received = true

theorem BlockedBy.decided (hb : q.BlockedBy u n) (hn : r.entry n = q.entry n)
    (h : ∀ k ∈ r.line, r.order k ≤ r.order n → (r.entry k).received = true ∨
      k ∈ q.line ∧ k ≠ u ∧ r.entry k = q.entry k) : r.Decided n := by
  intro k hk hle
  rcases h k hk hle with hrec | ⟨hkq, hku, he⟩
  · exact hrec
  · rw [Queue.order, Queue.order, he, hn] at hle
    rw [he]
    exact hb.2.2 k hkq hle hku

def Call.Clears (p : Position) (q : Queue) (u n : Nat) : Call → Prop
  | prepare _ g v _ _ => q.find? g = some u ∧ q.order n < p.seq v
  | commit g _ _ => q.find? g = some u
  | rollback g _ => q.find? g = some u
  | detach now => u ∉ (q.detach now).1.line ∧ n ∈ (q.detach now).1.line
  | _ => False

section Changes

theorem Removed.backed (hr : q.Removed n r) (h : q.Backed) : r.Backed := by
  intro m hm hready
  obtain ⟨hm, hmn⟩ := (hr.line m).mp hm
  rw [hr.kept m hmn] at hready ⊢
  exact h m hm hready

theorem Enqueued.backed (hr : q.Enqueued e r) (hv : q.Valid) (hu : e.ready = false)
    (h : q.Backed) : r.Backed := by
  intro m hm hready
  rcases (hr.line m).mp hm with rfl | hm
  · rw [hr.fresh] at hready
    simp [hu] at hready
  · rw [hr.kept_line hv hm] at hready ⊢
    exact h m hm hready

theorem Received.backed (hr : q.Received n v order now r) (h : q.Backed) : r.Backed := by
  intro m hm hready
  by_cases hmn : m = n
  · rw [hmn, hr.settled]
    rfl
  · rw [hr.kept m hmn] at hready ⊢
    exact h m ((hr.line m).mp hm) hready

theorem Detached.backed (hr : q.Detached r) (h : q.Backed) : r.Backed := by
  intro m hm hready
  rw [hr.line] at hm
  rw [hr.kept] at hready ⊢
  exact h m ((List.dropWhile_sublist _).subset hm) hready

end Changes

namespace Granted

theorem grantReady (h : r.Valid) (hb : r.Backed)
    (hu : ∀ n, (q.entry n).ready = false → (r.entry n).ready = false) :
    Granted q (r.grantReady now) := by
  refine ⟨⟨h.grantReady, ?_, ?_⟩, ?_⟩
  · intro n hn hready
    rw [line_grantReady] at hn
    rw [grantReady_keeps Entry.received fun _ _ => Entry.received_markReady]
    rcases (ready_grantReady h hb hn).mp hready with hready | hd
    · exact hb n hn hready
    · exact hd.received hn
  · intro n hn hd
    rw [line_grantReady] at hn
    rw [decided_grantReady] at hd
    exact (ready_grantReady h hb hn).mpr (.inr hd)
  · intro n hn
    rw [line_grantReady, decided_grantReady]
    by_cases hl : n ∈ r.line
    · rw [ready_grantReady h hb hl, hu n hn]
      simp [hl]
    · rw [entry_grantReady_of_notMem h hb hl, hu n hn]
      simp [hl]

theorem update (h : Granted q r) (hn : ∀ e, (f e).admission = e.admission)
    (hg : ∀ e, (f e).id = e.id) (ho : ∀ e, (f e).order = e.order)
    (hr : ∀ e, (f e).ready = e.ready) (hd : ∀ e, (f e).received = e.received) :
    Granted q (r.update m f) := by
  refine ⟨⟨h.settled.valid.update hn hg ho, ?_, ?_⟩, ?_⟩
  · intro n hl
    rw [update_keeps Entry.ready hr, update_keeps Entry.received hd]
    exact h.settled.backed n hl
  · intro n hl
    rw [update_keeps Entry.ready hr, decided_update hd ho]
    exact h.settled.ready n hl
  · intro n hu
    rw [update_keeps Entry.ready hr, decided_update hd ho]
    exact h.exact n hu

end Granted

namespace Settled

theorem empty {tracking : Bool} : Settled { tracking } := by
  refine ⟨valid_empty, ?_, ?_⟩
  all_goals
    intro n hn
    exact absurd hn List.not_mem_nil

variable (h : q.Settled)
include h

theorem granted : Granted q q := by
  refine ⟨h, fun n hu => ⟨fun hr => ?_, fun hr => h.ready n hr.1 hr.2⟩⟩
  rw [hu] at hr
  cases hr

theorem enqueued (hr : q.Enqueued e r) (hu : e.ready = false) (hd : e.received = false) :
    Granted q r := by
  have old {m} (hm : m ∈ q.line) : r.entry m = q.entry m := hr.kept_line h.valid hm
  have ready {m} (hm : m ∈ r.line) (hx : r.Decided m) : m ∈ q.line ∧ (q.entry m).ready = true := by
    rcases (hr.line m).mp hm with rfl | hm'
    · have hrec := hx.received hm
      rw [hr.fresh] at hrec
      simp [hd] at hrec
    · refine ⟨hm', h.ready m hm' fun k hk hle => ?_⟩
      rw [← old hk]
      refine hx k ((hr.line k).mpr (.inr hk)) ?_
      rwa [Queue.order, Queue.order, old hk, old hm']
  refine ⟨⟨hr.valid, hr.backed h.valid hu h.backed, ?_⟩, ?_⟩
  · intro n hn hx
    obtain ⟨hn, hready⟩ := ready hn hx
    rwa [old hn]
  · intro n hn
    rw [hr.unready hu hn]
    constructor
    · intro hx
      cases hx
    · rintro ⟨hl, hx⟩
      rw [(ready hl hx).2] at hn
      cases hn

theorem prepare : Granted q (q.prepare tx g v order clock now).1 := by
  refine h.valid.prepare_cases (fun r hr => h.enqueued hr rfl rfl) fun n r s _ hr hs => ?_
  exact .grantReady hs.valid (hs.backed hr.valid rfl (hr.backed h.backed))
    fun m hm => hs.unready rfl (hr.unready hm)

theorem commit : Granted q (q.commit g v order now).1 := by
  refine h.valid.commit_cases h.granted fun n r _ hr => ?_
  have hg : Granted q (r.grantReady now) :=
    .grantReady hr.valid (hr.backed h.backed) fun m hm => hr.unready hm
  apply hg.update
  all_goals
    intro e
    exact Entry.holdBack_keeps _ fun _ => rfl

theorem rollback : Granted q (q.rollback g now).1 :=
  h.valid.rollback_cases h.granted fun _ _ _ hr =>
    .grantReady hr.valid (hr.backed h.backed) fun _ hm => hr.unready hm

theorem detach : Granted q (q.detach now).1 :=
  h.valid.detach_cases fun _ hr =>
    .grantReady hr.valid (hr.backed h.backed) fun m hm => hr.kept m ▸ hm

theorem call : Granted q (q.call p c).1 := by
  cases c with
  | install p => exact h.granted
  | prepare tx g v clock now => exact h.prepare
  | commit g v now => exact h.commit
  | rollback g now => exact h.rollback
  | claim n =>
    exact h.granted.update (fun _ => rfl) (fun _ => rfl) (fun _ => rfl) (fun _ => rfl) fun _ => rfl
  | markCommitted n now =>
    apply h.granted.update
    all_goals
      intro e
      exact Entry.markCommitted_keeps _ fun _ _ _ => rfl
  | detach now => exact h.detach

theorem freed (hb : q.BlockedBy u n) (hc : c.Clears p q u n) :
    ((q.call p c).1.entry n).ready = true := by
  have hn := hb.1
  have hnu := hb.2.1
  suffices hx : n ∈ (q.call p c).1.line ∧ (q.call p c).1.Decided n from
    (h.call (p := p) (c := c)).settled.ready n hx.1 hx.2
  cases c with
  | prepare tx g v clock now =>
    obtain ⟨hf, ho⟩ := hc
    obtain ⟨r, s, hr, hs, e⟩ := h.valid.prepare_some tx v (p.seq v) clock now hf
    have old {m} (hm : m ∈ r.line) : s.entry m = q.entry m :=
      (hs.kept_line hr.valid hm).trans (hr.kept m ((hr.line m).mp hm).2)
    have hnr : n ∈ r.line := (hr.line n).mpr ⟨hn, hnu⟩
    simp only [Queue.call, e, line_grantReady, decided_grantReady]
    refine ⟨(hs.line n).mpr (.inr hnr), hb.decided (old hnr) fun k hk hle => ?_⟩
    rcases (hs.line k).mp hk with rfl | hk
    · rw [Queue.order, Queue.order, hs.fresh, old hnr] at hle
      exact absurd ho (Nat.not_lt.mpr hle)
    · exact .inr ⟨((hr.line k).mp hk).1, ((hr.line k).mp hk).2, old hk⟩
  | commit g v now =>
    obtain ⟨-, r, hr, e⟩ := h.valid.commit_some v (p.seq v) now hc
    simp only [Queue.call, e]
    rw [line_update, line_grantReady, decided_update (fun _ => Entry.holdBack_keeps _ fun _ => rfl)
      fun _ => Entry.holdBack_keeps _ fun _ => rfl, decided_grantReady]
    refine ⟨(hr.line n).mpr hn, hb.decided (hr.kept n hnu) fun k hk _ => ?_⟩
    by_cases hku : k = u
    · refine .inl ?_
      rw [hku, hr.settled]
      rfl
    · exact .inr ⟨(hr.line k).mp hk, hku, hr.kept k hku⟩
  | rollback g now =>
    obtain ⟨-, r, hr, e⟩ := h.valid.rollback_some now hc
    simp only [Queue.call, e, line_grantReady, decided_grantReady]
    refine ⟨(hr.line n).mpr ⟨hn, hnu⟩, hb.decided (hr.kept n hnu) fun k hk _ => ?_⟩
    obtain ⟨hk, hku⟩ := (hr.line k).mp hk
    exact .inr ⟨hk, hku, hr.kept k hku⟩
  | detach now =>
    obtain ⟨r, hr, e⟩ := h.valid.detach now
    have hsub : r.line ⊆ q.line := hr.line ▸ (List.dropWhile_sublist _).subset
    rw [Call.Clears, e, line_grantReady] at hc
    simp only [Queue.call, e, line_grantReady, decided_grantReady]
    exact ⟨hc.2, hb.decided (hr.kept n) fun k hk _ =>
      .inr ⟨hsub hk, ne_of_mem_of_not_mem hk hc.1, hr.kept k⟩⟩
  | _ => exact absurd hc id

end Settled

theorem settled_run {tracking : Bool} : (Call.run call p { tracking } cs).1.Settled :=
  Call.run_invariant (I := Settled) (fun _ _ _ h => h.call.settled) Settled.empty

section Component

def Stamped (p : Position) (q : Queue) : Prop := q.Each fun e => p.seq e.version = e.order

def Call.version? : Call → Option Version
  | prepare _ _ v _ _ => some v
  | commit _ v _ => some v
  | _ => none

theorem Valid.call_sequenced {Q : Version → Nat → Prop} (h : q.Valid)
    (hq : q.Each fun e => Q e.version e.order) (hc : ∀ v, c.version? = some v → Q v (p.seq v)) :
    (q.call p c).1.Each fun e => Q e.version e.order := by
  have ready (e : Entry) (k now) (he : Q e.version e.order) :
      Q (e.markReady k now).version (e.markReady k now).order := by
    rwa [Entry.version_markReady, Entry.order_markReady]
  cases c with
  | install p => exact hq
  | prepare tx g v clock now =>
    exact h.prepare_each hq (fun _ he => he) (fun e k => ready e k now) fun _ _ => hc v rfl
  | commit g v now =>
    refine h.commit_each hq (fun _ _ => hc v rfl) (fun e k => ready e k now) fun e he => ?_
    rwa [Entry.holdBack_keeps Entry.version fun _ => rfl,
      Entry.holdBack_keeps Entry.order fun _ => rfl]
  | rollback g now => exact h.rollback_each hq (fun _ he => he) fun e k => ready e k now
  | claim n => exact Each.update hq fun _ he => he
  | markCommitted n now =>
    refine Each.update hq fun e he => ?_
    rwa [Entry.markCommitted_keeps Entry.version fun _ _ _ => rfl,
      Entry.markCommitted_keeps Entry.order fun _ _ _ => rfl]
  | detach now => exact h.detach_each hq fun e k => ready e k now

theorem Stamped.call (h : q.Valid) (hs : q.Stamped p) : (q.call p c).1.Stamped p :=
  h.call_sequenced (Q := fun v order => p.seq v = order) hs fun _ _ => rfl

theorem Stamped.run (h : q.Valid) (hs : q.Stamped p) (hp : ∀ c ∈ cs, c.position p = p) :
    (Call.run Queue.call p q cs).1.Stamped p := by
  induction cs generalizing q with
  | nil => exact hs
  | cons c cs ih =>
    have hc : c.position p = p := hp c (by simp)
    simp only [Call.run, hc]
    exact ih h.call (hs.call h) fun d hd => hp d (by simp [hd])

end Component

/-- Readiness is granted exactly when it is decided, by the call that decides it. -/
theorem granted_iff_decided (p : Position) (tracking : Bool) (cs : List Call) (p' : Position)
    (c : Call) :
    let q := (Call.run call p { tracking } cs).1
    let r := (q.call p' c).1
    (∀ n, (q.entry n).ready = false ∧ (r.entry n).ready = true ↔
      n ∈ r.line ∧ (q.entry n).ready = false ∧
        ∀ m ∈ r.line, r.order m ≤ r.order n → (r.entry m).received = true) ∧
    (∀ u n, q.BlockedBy u n → c.Clears p' q u n → (r.entry n).ready = true) ∧
    (∀ n ∈ r.line, (r.entry n).ready = false →
      ∃ m ∈ r.line, r.order m ≤ r.order n ∧ (r.entry m).received = false) ∧
    ((∀ d ∈ cs, d.position p = p) → ∀ n ∈ q.line, q.order n = p.seq (q.entry n).version) := by
  intro q r
  have hq : q.Settled := settled_run
  have hr : Granted q r := hq.call
  refine ⟨fun n => ?_, fun u n => hq.freed, fun n => exists_undecided hr.settled.ready, ?_⟩
  · constructor
    · rintro ⟨hu, hn⟩
      obtain ⟨hl, hd⟩ := (hr.exact n hu).mp hn
      exact ⟨hl, hu, hd⟩
    · rintro ⟨hl, hu, hd⟩
      exact ⟨hu, (hr.exact n hu).mpr ⟨hl, hd⟩⟩
  · intro hp n hn
    have hs : q.Stamped p := Stamped.run valid_empty (fun n hn => absurd hn (Nat.not_lt_zero n)) hp
    exact (hs n (hq.valid.known hn)).symm

end Multiversion.Queue
