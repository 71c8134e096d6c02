import Mathlib
import Multiversion.Position
import Multiversion.Proofs.Queue.Steady

namespace Multiversion

structure Delivery where
  entry : Nat
  record : Committed
  deriving DecidableEq, Repr

namespace Delivery

def seq (p : Position) (x : Delivery) : Nat := p.seq x.record.version

def Before (p : Position) (x y : Delivery) : Prop :=
  x.seq p < y.seq p ∨ x.seq p = y.seq p ∧ x.entry < y.entry ∧ x.record.sub < y.record.sub

def Apart (p : Position) (c d : List Delivery) : Prop := ∀ x ∈ c, ∀ y ∈ d, x.seq p < y.seq p

theorem apart_nil {p : Position} {c : List Delivery} : Apart p c [] :=
  fun _ _ _ hy => absurd hy List.not_mem_nil

end Delivery

namespace Entry

def face (e : Entry) : TransactionId × Version × Nat × Nat × Bool × Bool × Bool :=
  (e.id, e.version, e.sub, e.order, e.ready, e.received, e.isAborted)

variable {e : Entry} {now : Time}

theorem markCommitted_markCommitted :
    (e.markCommitted now).markCommitted now = e.markCommitted now := by
  unfold markCommitted
  by_cases h : e.committed = true <;> simp [h]

theorem committed_markCommitted : (e.markCommitted now).committed = true := by
  unfold markCommitted
  by_cases h : e.committed = true <;> simp [h]

theorem isAborted_markCommitted : (e.markCommitted now).isAborted = e.isAborted := by
  unfold markCommitted
  split
  · rfl
  · cases hv : e.notifier.verdict <;>
      simp [isAborted, Notifier.isAborted, Notifier.decide, hv]

theorem face_markCommitted : (e.markCommitted now).face = e.face := by
  rw [face, face, isAborted_markCommitted, markCommitted_keeps Entry.id fun _ _ _ => rfl,
    markCommitted_keeps Entry.version fun _ _ _ => rfl,
    markCommitted_keeps Entry.sub fun _ _ _ => rfl,
    markCommitted_keeps Entry.order fun _ _ _ => rfl,
    markCommitted_keeps Entry.ready fun _ _ _ => rfl,
    markCommitted_keeps Entry.received fun _ _ _ => rfl]

end Entry

namespace Queue

variable {p : Position} {q r : Queue} {v : Version} {e : Entry} {m n order : Nat} {now : Time}
  {past : List (List Delivery)} {won : List Delivery} {marked : Bool} {x : Delivery}

theorem claimed_claim (hn : n < q.entries.size) :
    ((q.claim n).1.entry m).claimed = if m = n then true else (q.entry m).claimed := by
  rw [claim, entry_update hn]
  split <;> rfl

theorem committed_markCommitted (hn : n < q.entries.size) :
    ((q.markCommitted n now).entry m).committed =
      if m = n then true else (q.entry m).committed := by
  rw [markCommitted, entry_update hn]
  split
  · exact Entry.committed_markCommitted
  · rfl

structure Stated (p : Position) (q : Queue) (x : Delivery) : Prop where
  known : x.entry < q.entries.size
  claimed : (q.entry x.entry).claimed = true
  ready : (q.entry x.entry).ready = true
  received : (q.entry x.entry).received = true
  kept : (q.entry x.entry).isAborted = false
  id : (q.entry x.entry).id = x.record.id
  version : (q.entry x.entry).version = x.record.version
  sub : (q.entry x.entry).sub = x.record.sub
  order : q.order x.entry = x.seq p

/-- The deliveries of the calls that are over, and of the one that is under way. Its entries stay in
    the line until they are detached; `marked` tells whether they are committed yet. -/
structure Drains (p : Position) (q : Queue) (past : List (List Delivery)) (won : List Delivery)
    (marked : Bool) : Prop where
  steady : q.Steady
  stated : ∀ x ∈ past.flatten ++ won, q.Stated p x
  left : ∀ x ∈ past.flatten, x.entry ∉ q.line
  held : ∀ x ∈ won, x.entry ∈ q.line
  claimed : ∀ n ∈ q.line, (q.entry n).claimed = true ↔ n ∈ won.map (·.entry)
  committed : ∀ n ∈ q.line, (q.entry n).committed = true ↔
    marked = true ∧ (q.entry n).claimed = true
  undecided : ∀ n ∈ q.line, (q.entry n).claimed = false → (q.entry n).notifier.verdict = none
  below : ∀ x ∈ past.flatten ++ won, ∀ n ∈ q.line, (q.entry n).claimed = false →
    x.seq p < q.order n
  accounted : ∀ n < q.entries.size, n ∈ q.line ∨ n ∈ past.flatten.map (·.entry) ∨
    (q.entry n).isAborted = true

theorem Stated.of_face (h : q.Stated p x) (hs : q.entries.size ≤ r.entries.size)
    (hc : (r.entry x.entry).claimed = true)
    (he : (r.entry x.entry).face = (q.entry x.entry).face) : r.Stated p x := by
  simp only [Entry.face, Prod.mk.injEq] at he
  obtain ⟨h1, h2, h3, h4, h5, h6, h7⟩ := he
  exact ⟨h.known.trans_le hs, hc, h5.trans h.ready, h6.trans h.received, h7.trans h.kept,
    h1.trans h.id, h2.trans h.version, h3.trans h.sub, h4.trans h.order⟩

theorem Stated.congr (h : q.Stated p x) (hs : q.entries.size ≤ r.entries.size)
    (he : r.entry x.entry = q.entry x.entry) : r.Stated p x :=
  h.of_face hs (he ▸ h.claimed) (congrArg _ he)

namespace Drains

variable (h : q.Drains p past won marked)
include h

theorem congr_past {past' : List (List Delivery)} (hf : past'.flatten = past.flatten) :
    q.Drains p past' won marked :=
  ⟨h.steady, hf ▸ h.stated, hf ▸ h.left, h.held, h.claimed, h.committed, h.undecided, hf ▸ h.below,
    hf ▸ h.accounted⟩

theorem ne_of_unclaimed (hn : n ∈ q.line) (hc : (q.entry n).claimed = false)
    (hx : x ∈ past.flatten ++ won) : x.entry ≠ n := by
  rintro rfl
  rcases List.mem_append.mp hx with hx | hx
  · exact h.left x hx hn
  · rw [(h.claimed _ hn).mpr (List.mem_map_of_mem hx)] at hc
    cases hc

theorem removed (hr : q.Removed n r) (hn : n ∈ q.line) (hc : (q.entry n).claimed = false) :
    r.Drains p past won marked := by
  have keep {m} (hm : m ∈ r.line) : m ∈ q.line ∧ r.entry m = q.entry m := by
    obtain ⟨hm, hmn⟩ := (hr.line m).mp hm
    exact ⟨hm, hr.kept m hmn⟩
  have hne {x} (hx : x ∈ past.flatten ++ won) : x.entry ≠ n := h.ne_of_unclaimed hn hc hx
  refine ⟨h.steady.removed hr, ?_, ?_, ?_, ?_, ?_, ?_, ?_, ?_⟩
  · intro x hx
    exact (h.stated x hx).congr hr.size.ge (hr.kept _ (hne hx))
  · intro x hx hl
    exact h.left x hx (keep hl).1
  · intro x hx
    exact (hr.line _).mpr ⟨h.held x hx, hne (List.mem_append_right _ hx)⟩
  · intro m hm
    rw [(keep hm).2]
    exact h.claimed m (keep hm).1
  · intro m hm
    rw [(keep hm).2]
    exact h.committed m (keep hm).1
  · intro m hm
    rw [(keep hm).2]
    exact h.undecided m (keep hm).1
  · intro x hx m hm
    rw [Queue.order, (keep hm).2]
    exact h.below x hx m (keep hm).1
  · intro m hm
    rw [hr.size] at hm
    by_cases hmn : m = n
    · refine .inr (.inr ?_)
      rw [hmn, hr.left]
      simp [Entry.isAborted, Entry.abort, Notifier.isAborted, Notifier.decide,
        h.undecided n hn hc]
    · rw [hr.line, hr.kept m hmn]
      exact (h.accounted m hm).imp_left fun hl => ⟨hl, hmn⟩

theorem enqueued_claimed (hr : q.Enqueued e r) (hc : e.claimed = false) (hm : m ∈ r.line) :
    (r.entry m).claimed = true ↔ m ∈ won.map (·.entry) := by
  rcases hr.line_cases h.steady.valid hm with ⟨hl, he⟩ | ⟨hl, he⟩
  · rw [he, hc]
    refine iff_of_false Bool.false_ne_true fun hw => ?_
    obtain ⟨x, hx, rfl⟩ := List.mem_map.mp hw
    exact hl (h.held x hx)
  · rw [he]
    exact h.claimed m hl

theorem enqueued_below (hr : q.Enqueued e r) (ho : ∀ m < q.entries.size, q.order m < e.order)
    (hx : x ∈ past.flatten ++ won) (hm : m ∈ r.line) (hc : (r.entry m).claimed = false) :
    x.seq p < r.order m := by
  rcases hr.line_cases h.steady.valid hm with ⟨-, he⟩ | ⟨hl, he⟩
  · rw [← (h.stated x hx).order, Queue.order, Queue.order, he]
    exact ho _ (h.stated x hx).known
  · rw [he] at hc
    rw [Queue.order, he]
    exact h.below x hx m hl hc

theorem enqueued_accounted (hr : q.Enqueued e r) (hm : m < r.entries.size) :
    m ∈ r.line ∨ m ∈ past.flatten.map (·.entry) ∨ (r.entry m).isAborted = true := by
  rw [hr.size] at hm
  rcases Nat.lt_succ_iff_lt_or_eq.mp hm with hm | rfl
  · rw [hr.line, hr.kept m hm]
    exact (h.accounted m hm).imp_left .inr
  · exact .inl ((hr.line _).mpr (.inl rfl))

theorem enqueued (hr : q.Enqueued e r) (hu : e.ready = false) (hc : e.claimed = false)
    (hd : e.committed = false) (hv : e.notifier.verdict = none)
    (ho : ∀ m < q.entries.size, q.order m < e.order) : r.Drains p past won marked := by
  have hval := h.steady.valid
  refine ⟨h.steady.enqueued hr hu fun m hm => ho m (hval.known hm), fun x hx => ?_,
    fun x hx hl => ?_, fun x hx => (hr.line _).mpr (.inr (h.held x hx)),
    fun m hm => h.enqueued_claimed hr hc hm, fun m hm => ?_, fun m hm hmc => ?_,
    fun x hx m hm hmc => h.enqueued_below hr ho hx hm hmc, fun m hm => h.enqueued_accounted hr hm⟩
  · have hs := h.stated x hx
    exact hs.congr (by rw [hr.size]; omega) (hr.kept _ hs.known)
  · have hknown := (h.stated x (List.mem_append_left _ hx)).known
    exact h.left x hx (((hr.line _).mp hl).resolve_left hknown.ne)
  · rcases hr.line_cases hval hm with ⟨-, he⟩ | ⟨hl, he⟩
    · simp [he, hc, hd]
    · rw [he]
      exact h.committed m hl
  · rcases hr.line_cases hval hm with ⟨-, he⟩ | ⟨hl, he⟩
    · rw [he]
      exact hv
    · rw [he] at hmc ⊢
      exact h.undecided m hl hmc

theorem of_keep (hr : r.Steady) (hs : r.entries.size = q.entries.size)
    (hl : ∀ m, m ∈ r.line ↔ m ∈ q.line) (ho : ∀ m, q.order m ≤ r.order m)
    (hf : ∀ x ∈ past.flatten ++ won, (r.entry x.entry).face = (q.entry x.entry).face)
    (hc : ∀ m, (r.entry m).claimed = (q.entry m).claimed)
    (hm : ∀ m, (r.entry m).committed = (q.entry m).committed)
    (hn : ∀ m, (r.entry m).notifier = (q.entry m).notifier) : r.Drains p past won marked := by
  refine ⟨hr, ?_, ?_, ?_, ?_, ?_, ?_, ?_, ?_⟩
  · intro x hx
    have hx' := h.stated x hx
    exact hx'.of_face hs.ge ((hc _).trans hx'.claimed) (hf x hx)
  · intro x hx hlx
    exact h.left x hx ((hl _).mp hlx)
  · intro x hx
    exact (hl _).mpr (h.held x hx)
  · intro m hml
    rw [hc]
    exact h.claimed m ((hl m).mp hml)
  · intro m hml
    rw [hc, hm]
    exact h.committed m ((hl m).mp hml)
  · intro m hml
    rw [hc, hn]
    exact h.undecided m ((hl m).mp hml)
  · intro x hx m hml hmc
    rw [hc] at hmc
    exact (h.below x hx m ((hl m).mp hml) hmc).trans_le (ho m)
  · intro m hmk
    rw [hl, Entry.isAborted, hn]
    exact h.accounted m (hs ▸ hmk)

theorem receive (hr : q.Received n v order now r) (hn : n ∈ q.line)
    (hu : (q.entry n).received = false) (ho : q.order n ≤ order) : r.Drains p past won marked := by
  refine h.of_keep (h.steady.received hr hn hu ho) hr.size hr.line ?_ ?_
    (fun m => hr.keeps Entry.claimed fun _ => rfl) (fun m => hr.keeps Entry.committed fun _ => rfl)
    (fun m => hr.keeps Entry.notifier fun _ => rfl)
  · intro m
    by_cases hmn : m = n
    · have he : r.order n = order := by rw [Queue.order, hr.settled, Entry.receive]
      rw [hmn, he]
      exact ho
    · rw [Queue.order, Queue.order, hr.kept m hmn]
  · intro x hx
    rw [hr.kept]
    rintro rfl
    rw [(h.stated x hx).received] at hu
    cases hu

theorem grantReady : (q.grantReady now).Drains p past won marked := by
  have hrec {m} (hm : m ∈ q.line) (hu : (q.entry m).ready = true) := h.steady.sound.received hm hu
  refine h.of_keep h.steady.grantReady size_grantReady (by simp) ?_ ?_ ?_ ?_ ?_
  · intro m
    rw [order_grantReady]
  · intro x hx
    rw [entry_grantReady_of_ready h.steady.valid (fun _ => hrec) (h.stated x hx).ready]
  · exact fun m => grantReady_keeps Entry.claimed fun _ _ => Entry.claimed_markReady
  · exact fun m => grantReady_keeps Entry.committed fun _ _ => Entry.committed_markReady
  · exact fun m => grantReady_keeps Entry.notifier fun _ _ => Entry.notifier_markReady

theorem mem_detached (hr : q.Detached r) (hm : marked = true) :
    m ∈ r.line ↔ m ∈ q.line ∧ (q.entry m).claimed = false := by
  have hclaimed {m} (hm' : m ∈ q.line) : (q.entry m).committed = true ↔
      (q.entry m).claimed = true := by simp [h.committed m hm', hm]
  have hdown : q.line.Pairwise fun m n =>
      (q.entry n).committed = true → (q.entry m).committed = true := by
    refine h.steady.valid.sorted.imp_of_mem ?_
    intro m n hml hnl hmn hn
    rw [hclaimed hml]
    rw [hclaimed hnl, h.claimed n hnl] at hn
    obtain ⟨x, hx, rfl⟩ := List.mem_map.mp hn
    by_contra hc
    have hb := h.below x (List.mem_append_right _ hx) m hml (by simpa using hc)
    rw [← (h.stated x (List.mem_append_right _ hx)).order] at hb
    have := hmn.order_le
    omega
  rw [hr.line, dropWhile_eq_filter hdown, List.mem_filter]
  refine and_congr_right fun hm' => ?_
  rw [Bool.not_eq_true', ← Bool.not_eq_true, hclaimed hm', Bool.not_eq_true]

theorem detached (hr : q.Detached r) (hm : marked = true) :
    r.Drains p (past ++ [won]) [] false := by
  have line {m} : m ∈ r.line ↔ m ∈ q.line ∧ (q.entry m).claimed = false := h.mem_detached hr hm
  have hflat : (past ++ [won]).flatten ++ [] = past.flatten ++ won := by simp
  have hflat' : (past ++ [won]).flatten = past.flatten ++ won := by simp
  refine ⟨h.steady.detached hr, ?_, ?_, by simp, ?_, ?_, ?_, ?_, ?_⟩
  · intro x hx
    rw [hflat] at hx
    exact (h.stated x hx).congr hr.size.ge (hr.kept _)
  · intro x hx hl
    rw [hflat'] at hx
    obtain ⟨hl, hc⟩ := line.mp hl
    exact h.ne_of_unclaimed hl hc hx rfl
  · intro m hm'
    rw [hr.kept, (line.mp hm').2]
    simp
  · intro m hm'
    obtain ⟨hl, hc⟩ := line.mp hm'
    rw [hr.kept, h.committed m hl, hc]
    simp
  · intro m hm' hc
    rw [hr.kept] at hc ⊢
    exact h.undecided m (line.mp hm').1 hc
  · intro x hx m hm' hc
    rw [hflat] at hx
    rw [hr.kept] at hc
    rw [Queue.order, hr.kept]
    exact h.below x hx m (line.mp hm').1 hc
  · intro m hm'
    rw [hr.size] at hm'
    rw [hr.kept, hflat', line, List.map_append, List.mem_append]
    rcases h.accounted m hm' with hl | hp | ha
    · by_cases hc : (q.entry m).claimed = true
      · exact .inr (.inl (.inr ((h.claimed m hl).mp hc)))
      · exact .inl ⟨hl, by simpa using hc⟩
    · exact .inr (.inl (.inl hp))
    · exact .inr (.inr ha)

theorem holdBack : (q.update n Entry.holdBack).Drains p past won marked := by
  have order_eq (e : Entry) : e.holdBack.order = e.order :=
    Entry.holdBack_keeps Entry.order fun _ => rfl
  refine h.of_keep (h.steady.update ?_ ?_ order_eq ?_ ?_ ?_) size_update (by simp)
    (fun m => (update_keeps Entry.order order_eq).ge) ?_ ?_ ?_ ?_
  · exact fun e => Entry.holdBack_keeps Entry.admission fun _ => rfl
  · exact fun e => Entry.holdBack_keeps Entry.id fun _ => rfl
  · exact fun e => Entry.holdBack_keeps Entry.ready fun _ => rfl
  · exact fun e => Entry.holdBack_keeps Entry.received fun _ => rfl
  · exact fun e => Entry.holdBack_keeps Entry.sub fun _ => rfl
  · exact fun x _ => update_keeps Entry.face fun e => Entry.holdBack_keeps Entry.face fun _ => rfl
  · exact fun m =>
      update_keeps Entry.claimed fun e => Entry.holdBack_keeps Entry.claimed fun _ => rfl
  · exact fun m =>
      update_keeps Entry.committed fun e => Entry.holdBack_keeps Entry.committed fun _ => rfl
  · exact fun m =>
      update_keeps Entry.notifier fun e => Entry.holdBack_keeps Entry.notifier fun _ => rfl

end Drains

section All

variable {f : Entry → Entry} {ns : List Nat}

def updateAll (q : Queue) (f : Entry → Entry) (ns : List Nat) : Queue :=
  ns.foldl (fun q n => q.update n f) q

theorem updateAll_cons : q.updateAll f (n :: ns) = (q.update n f).updateAll f ns := rfl

theorem markAll_eq : q.markAll ns now = q.updateAll (·.markCommitted now) ns := rfl

theorem claimAll_fst : (q.claimAll ns).1 = q.updateAll (fun e => e.claim.2) ns := by
  induction ns generalizing q with
  | nil => rfl
  | cons n ns ih => exact ih

@[simp] theorem line_updateAll : (q.updateAll f ns).line = q.line := by
  induction ns generalizing q with
  | nil => rfl
  | cons n ns ih => rw [updateAll_cons, ih, line_update]

@[simp] theorem size_updateAll : (q.updateAll f ns).entries.size = q.entries.size := by
  induction ns generalizing q with
  | nil => rfl
  | cons n ns ih => rw [updateAll_cons, ih, size_update]

theorem entry_updateAll (hf : ∀ e, f (f e) = f e) (hk : ∀ n ∈ ns, n < q.entries.size) :
    (q.updateAll f ns).entry m = if m ∈ ns then f (q.entry m) else q.entry m := by
  induction ns generalizing q with
  | nil => rfl
  | cons n ns ih =>
    rw [updateAll_cons, ih (fun k hk' => by simpa using hk k (by simp [hk'])),
      entry_update (hk n (by simp))]
    by_cases hmn : m = n
    · simp [hmn, hf]
    · simp [hmn]

theorem updateAll_keeps {α : Type} (φ : Entry → α) (hf : ∀ e, φ (f e) = φ e) :
    φ ((q.updateAll f ns).entry m) = φ (q.entry m) := by
  induction ns generalizing q with
  | nil => rfl
  | cons n ns ih => rw [updateAll_cons, ih, update_keeps φ hf]

@[simp] theorem line_claimAll : (q.claimAll ns).1.line = q.line := by
  rw [claimAll_fst, line_updateAll]

@[simp] theorem line_markAll : (q.markAll ns now).line = q.line := by
  rw [markAll_eq, line_updateAll]

@[simp] theorem size_claimAll : (q.claimAll ns).1.entries.size = q.entries.size := by
  rw [claimAll_fst, size_updateAll]

@[simp] theorem size_markAll : (q.markAll ns now).entries.size = q.entries.size := by
  rw [markAll_eq, size_updateAll]

theorem entry_claimAll (hk : ∀ n ∈ ns, n < q.entries.size) :
    (q.claimAll ns).1.entry m = if m ∈ ns then (q.entry m).claim.2 else q.entry m := by
  rw [claimAll_fst]
  exact entry_updateAll (fun _ => rfl) hk

theorem entry_markAll (hk : ∀ n ∈ ns, n < q.entries.size) :
    (q.markAll ns now).entry m =
      if m ∈ ns then (q.entry m).markCommitted now else q.entry m := by
  rw [markAll_eq]
  exact entry_updateAll (fun _ => Entry.markCommitted_markCommitted) hk

theorem claimAll_keeps {α : Type} (φ : Entry → α) (hφ : ∀ e : Entry, φ e.claim.2 = φ e) :
    φ ((q.claimAll ns).1.entry m) = φ (q.entry m) := by
  rw [claimAll_fst]
  exact updateAll_keeps φ hφ

theorem markAll_keeps {α : Type} (φ : Entry → α) (hφ : ∀ e, φ (e.markCommitted now) = φ e) :
    φ ((q.markAll ns now).entry m) = φ (q.entry m) := by
  rw [markAll_eq]
  exact updateAll_keeps φ hφ

theorem claimed_markAll : ((q.markAll ns now).entry m).claimed = (q.entry m).claimed :=
  markAll_keeps Entry.claimed fun _ => Entry.markCommitted_keeps _ fun _ _ _ => rfl

theorem order_markAll : (q.markAll ns now).order m = q.order m :=
  markAll_keeps Entry.order fun _ => Entry.markCommitted_keeps _ fun _ _ _ => rfl

theorem claimAll_snd (hd : ns.Nodup) (hk : ∀ n ∈ ns, n < q.entries.size)
    (hc : ∀ n ∈ ns, (q.entry n).claimed = false) : (q.claimAll ns).2 = ns := by
  induction ns generalizing q with
  | nil => rfl
  | cons n ns ih =>
    obtain ⟨hn, hd⟩ := List.nodup_cons.mp hd
    have hwon : ((q.update n fun e => e.claim.2).claimAll ns).2 = ns := by
      refine ih hd (fun k hk' => by simpa using hk k (by simp [hk'])) fun k hk' => ?_
      rw [entry_update (hk n (by simp)), if_neg (ne_of_mem_of_not_mem hk' hn)]
      exact hc k (by simp [hk'])
    simp only [claimAll, claim, Entry.claim, hc n (by simp), Bool.not_false, if_true]
    exact congrArg (n :: ·) hwon

theorem Steady.updateAll (h : q.Steady) (hn : ∀ e, (f e).admission = e.admission)
    (hg : ∀ e, (f e).id = e.id) (ho : ∀ e, (f e).order = e.order)
    (hr : ∀ e, (f e).ready = e.ready) (hd : ∀ e, (f e).received = e.received)
    (hs : ∀ e, (f e).sub = e.sub) : (q.updateAll f ns).Steady := by
  induction ns generalizing q with
  | nil => exact h
  | cons n ns ih => exact ih (h.update hn hg ho hr hd hs)

theorem Steady.claimAll (h : q.Steady) : (q.claimAll ns).1.Steady := by
  rw [claimAll_fst]
  exact h.updateAll (fun _ => rfl) (fun _ => rfl) (fun _ => rfl) (fun _ => rfl) (fun _ => rfl)
    fun _ => rfl

theorem Steady.markAll (h : q.Steady) : (q.markAll ns now).Steady := by
  have mark {α : Type} (φ : Entry → α) (hφ : ∀ (e : Entry) t v,
      φ { e with committed := true, committedAt := t, notifier := v } = φ e) (e : Entry) :
      φ (e.markCommitted now) = φ e := Entry.markCommitted_keeps φ hφ
  exact h.updateAll (mark Entry.admission fun _ _ _ => rfl) (mark Entry.id fun _ _ _ => rfl)
    (mark Entry.order fun _ _ _ => rfl) (mark Entry.ready fun _ _ _ => rfl)
    (mark Entry.received fun _ _ _ => rfl) (mark Entry.sub fun _ _ _ => rfl)

theorem Each.updateAll {P : Entry → Prop} (h : q.Each P) (hf : ∀ e, P e → P (f e)) :
    (q.updateAll f ns).Each P := by
  induction ns generalizing q with
  | nil => exact h
  | cons n ns ih => exact ih (h.update hf)

end All

structure Recorded (q : Queue) (x : Delivery) : Prop where
  id : x.record.id = (q.entry x.entry).id
  version : x.record.version = (q.entry x.entry).version
  sub : x.record.sub = (q.entry x.entry).sub

section Claim

variable (h : q.Drains p past [] false) (hx : q.Exact)
  (hs : q.Each fun e => p.seq e.version = e.order)
  (hw : won.map (·.entry) = q.readyPrefix) (hr : ∀ x ∈ won, q.Recorded x)

include h hx hw in
theorem mem_won : n ∈ won.map (·.entry) ↔ n ∈ q.line ∧ (q.entry n).ready = true := by
  rw [hw, hx.readyPrefix_eq h.steady.valid, List.mem_filter]

include h in
theorem unclaimed (hn : n ∈ q.line) : (q.entry n).claimed = false := by
  rw [← Bool.not_eq_true, h.claimed n hn]
  simp

include h hx hs hw hr

theorem seq_won (hx' : x ∈ won) : x.seq p = q.order x.entry := by
  have hl := ((mem_won h hx hw).mp (List.mem_map_of_mem hx')).1
  rw [Delivery.seq, (hr x hx').version]
  exact hs _ (h.steady.valid.known hl)

omit hs hr in
theorem claimed_claimAll (hn : n ∈ q.line) :
    ((q.claimAll q.readyPrefix).1.entry n).claimed = true ↔ n ∈ won.map (·.entry) := by
  rw [hw, entry_claimAll fun m hm =>
    h.steady.valid.known ((mem_won h hx hw).mp (hw ▸ hm)).1]
  split
  next hp => exact iff_of_true rfl hp
  next hp =>
    rw [unclaimed h hn]
    exact iff_of_false (by simp) hp

theorem stated_claimAll (hx' : x ∈ won) : (q.claimAll q.readyPrefix).1.Stated p x := by
  have hm := List.mem_map_of_mem (f := (·.entry)) hx'
  obtain ⟨hl, hu⟩ := (mem_won h hx hw).mp hm
  have ha : (q.entry x.entry).isAborted = false := by
    simp [Entry.isAborted, Notifier.isAborted, h.undecided _ hl (unclaimed h hl)]
  have keep {α : Type} (φ : Entry → α) (hφ : ∀ e : Entry, φ e.claim.2 = φ e) :
      φ ((q.claimAll q.readyPrefix).1.entry x.entry) = φ (q.entry x.entry) := claimAll_keeps φ hφ
  refine ⟨(h.steady.valid.known hl).trans_eq size_claimAll.symm, ?_, ?_, ?_, ?_, ?_, ?_, ?_, ?_⟩
  · exact (claimed_claimAll h hx hw hl).mpr hm
  · exact (keep Entry.ready fun _ => rfl).trans hu
  · exact (keep Entry.received fun _ => rfl).trans (h.steady.sound.received hl hu)
  · exact (keep Entry.isAborted fun _ => rfl).trans ha
  · exact (keep Entry.id fun _ => rfl).trans (hr x hx').id.symm
  · exact (keep Entry.version fun _ => rfl).trans (hr x hx').version.symm
  · exact (keep Entry.sub fun _ => rfl).trans (hr x hx').sub.symm
  · exact (keep Entry.order fun _ => rfl).trans (seq_won h hx hs hw hr hx').symm

omit hs hr in
theorem Stated.claimAll (h' : q.Stated p x) : (q.claimAll q.readyPrefix).1.Stated p x := by
  refine h'.of_face size_claimAll.ge ?_ (claimAll_keeps Entry.face fun _ => rfl)
  rw [entry_claimAll fun m hm => h.steady.valid.known ((mem_won h hx hw).mp (hw ▸ hm)).1]
  split
  · rfl
  · exact h'.claimed

theorem Drains.claimAll : (q.claimAll q.readyPrefix).1.Drains p past won false := by
  have keep {α : Type} (φ : Entry → α) (hφ : ∀ e : Entry, φ e.claim.2 = φ e) (m) :
      φ ((q.claimAll q.readyPrefix).1.entry m) = φ (q.entry m) := claimAll_keeps φ hφ
  refine ⟨h.steady.claimAll, ?_, ?_, ?_, ?_, ?_, ?_, ?_, ?_⟩
  · intro x hx'
    rcases List.mem_append.mp hx' with hx' | hx'
    · exact (h.stated x (by simpa using hx')).claimAll h hx hw
    · exact stated_claimAll h hx hs hw hr hx'
  · intro x hx'
    rw [line_claimAll]
    exact h.left x hx'
  · intro x hx'
    rw [line_claimAll]
    exact ((mem_won h hx hw).mp (List.mem_map_of_mem hx')).1
  · intro m hm
    rw [line_claimAll] at hm
    exact claimed_claimAll h hx hw hm
  · intro m hm
    rw [line_claimAll] at hm
    rw [keep Entry.committed fun _ => rfl, h.committed m hm]
    simp
  · intro m hm _
    rw [line_claimAll] at hm
    rw [keep Entry.notifier fun _ => rfl]
    exact h.undecided m hm (unclaimed h hm)
  · intro x hx' m hm hc
    rw [line_claimAll] at hm
    rw [Queue.order, keep Entry.order fun _ => rfl]
    rcases List.mem_append.mp hx' with hx' | hx'
    · exact h.below x (by simpa using hx') m hm (unclaimed h hm)
    · obtain ⟨hl, hu⟩ := (mem_won h hx hw).mp (List.mem_map_of_mem hx')
      rw [seq_won h hx hs hw hr hx']
      refine hx.lt_of_unready hl hm hu ?_
      by_contra hm'
      rw [(claimed_claimAll h hx hw hm).mpr
        ((mem_won h hx hw).mpr ⟨hm, by simpa using hm'⟩)] at hc
      cases hc
  · intro m hm
    rw [size_claimAll] at hm
    rw [line_claimAll, keep Entry.isAborted fun _ => rfl]
    exact h.accounted m hm

theorem won_before : won.Pairwise (Delivery.Before p) := by
  have hl {n} (hn : n ∈ won.map (·.entry)) := (mem_won h hx hw).mp hn
  have hsort : won.Pairwise fun x y => Multiversion.Before q.order x.entry y.entry := by
    refine List.pairwise_map.mp ?_
    rw [hw]
    exact h.steady.valid.sorted.sublist (List.takeWhile_sublist _)
  refine hsort.imp_of_mem ?_
  intro x y hx' hy' hxy
  rw [Delivery.Before, seq_won h hx hs hw hr hx', seq_won h hx hs hw hr hy', (hr x hx').sub,
    (hr y hy').sub]
  obtain ⟨hxl, hxr⟩ := hl (List.mem_map_of_mem hx')
  obtain ⟨hyl, -⟩ := hl (List.mem_map_of_mem hy')
  exact hxy.imp_right fun ⟨heq, hlt⟩ =>
    ⟨heq, hlt, h.steady.ascending _ hxl _ hyl heq hxr hlt⟩

theorem past_lt_won {x y : Delivery} (hx' : x ∈ past.flatten) (hy : y ∈ won) :
    x.seq p < y.seq p := by
  have hl := ((mem_won h hx hw).mp (List.mem_map_of_mem hy)).1
  rw [seq_won h hx hs hw hr hy]
  exact h.below x (by simpa using hx') _ hl (unclaimed h hl)

end Claim

section Mark

variable (h : q.Drains p past won false)
include h

theorem known_of_won (hn : n ∈ won.map (·.entry)) : n < q.entries.size := by
  obtain ⟨x, hx, rfl⟩ := List.mem_map.mp hn
  exact h.steady.valid.known (h.held x hx)

theorem committed_markAll (hn : n ∈ q.line) :
    ((q.markAll (won.map (·.entry)) now).entry n).committed = true ↔ n ∈ won.map (·.entry) := by
  rw [entry_markAll fun _ => known_of_won h]
  split
  next hw => exact iff_of_true Entry.committed_markCommitted hw
  next hw =>
    refine iff_of_false ?_ hw
    rw [h.committed n hn]
    simp

theorem entry_markAll_of_unclaimed (hn : n ∈ q.line) (hc : (q.entry n).claimed = false) :
    (q.markAll (won.map (·.entry)) now).entry n = q.entry n := by
  have hw : n ∉ won.map (·.entry) := by
    rw [← h.claimed n hn, hc]
    simp
  rw [entry_markAll fun _ => known_of_won h, if_neg hw]

theorem Drains.markAll : (q.markAll (won.map (·.entry)) now).Drains p past won true := by
  refine ⟨h.steady.markAll, ?_, ?_, ?_, ?_, ?_, ?_, ?_, ?_⟩
  · intro x hx
    have hx' := h.stated x hx
    exact hx'.of_face size_markAll.ge (claimed_markAll.trans hx'.claimed)
      (markAll_keeps Entry.face fun _ => Entry.face_markCommitted)
  · intro x hx
    rw [line_markAll]
    exact h.left x hx
  · intro x hx
    rw [line_markAll]
    exact h.held x hx
  · intro m hm
    rw [line_markAll] at hm
    rw [claimed_markAll]
    exact h.claimed m hm
  · intro m hm
    rw [line_markAll] at hm
    rw [claimed_markAll, h.claimed m hm, committed_markAll h hm]
    exact (and_iff_right rfl).symm
  · intro m hm hc
    rw [line_markAll] at hm
    rw [claimed_markAll] at hc
    rw [entry_markAll_of_unclaimed h hm hc]
    exact h.undecided m hm hc
  · intro x hx m hm
    rw [line_markAll] at hm
    rw [claimed_markAll, order_markAll]
    exact h.below x hx m hm
  · intro m hm
    rw [size_markAll] at hm
    rw [line_markAll, markAll_keeps Entry.isAborted fun _ => Entry.isAborted_markCommitted]
    exact h.accounted m hm

end Mark

namespace Drains

variable {g : TransactionId} {tx clock : Nat} (h : q.Drains p past won marked)
include h

theorem prepare (hc : ∀ n, q.find? g = some n → (q.entry n).claimed = false)
    (ho : ∀ m < q.entries.size, q.order m < order) :
    (q.prepare tx g v order clock now).1.Drains p past won marked := by
  have hval := h.steady.valid
  refine hval.prepare_cases (fun r hr => h.enqueued hr rfl rfl rfl rfl ho) fun n r s hf hr hs => ?_
  have hlt : ∀ m < r.entries.size, r.order m < order := by
    intro m hm
    rw [Queue.order, hr.keeps Entry.order fun _ => rfl]
    exact ho m (hr.size ▸ hm)
  exact ((h.removed hr (hval.find?_eq_some_iff.mp hf).1 (hc n hf)).enqueued hs rfl rfl rfl rfl
    hlt).grantReady

theorem commit (hu : ∀ n, q.find? g = some n → (q.entry n).received = false ∧ q.order n ≤ order) :
    (q.commit g v order now).1.Drains p past won marked := by
  refine h.steady.valid.commit_cases h fun n r hf hr => ?_
  obtain ⟨hu, ho⟩ := hu n hf
  exact (h.receive hr (h.steady.valid.find?_eq_some_iff.mp hf).1 hu ho).grantReady.holdBack

theorem rollback (hc : ∀ n, q.find? g = some n → (q.entry n).claimed = false) :
    (q.rollback g now).1.Drains p past won marked :=
  h.steady.valid.rollback_cases h fun n _ hf hr =>
    (h.removed hr (h.steady.valid.find?_eq_some_iff.mp hf).1 (hc n hf)).grantReady

theorem detach (hm : marked = true) : (q.detach now).1.Drains p (past ++ [won]) [] false :=
  h.steady.valid.detach_cases fun _ hr => (h.detached hr hm).grantReady

theorem detach_unready (hm : marked = true) (hx : q.Exact)
    (hu : ∀ n ∈ q.line, (q.entry n).claimed = false → (q.entry n).ready = false) :
    ∀ n ∈ (q.detach now).1.line, ((q.detach now).1.entry n).ready = false := by
  refine h.steady.valid.detach_cases fun r hr n hn => ?_
  have hn' : n ∈ r.line := line_grantReady ▸ hn
  obtain ⟨hnl, hnc⟩ := (h.mem_detached hr hm).mp hn'
  obtain ⟨m, hml, hle, hmr⟩ := hx.exists_undecided hnl (hu n hnl hnc)
  have hmc : (q.entry m).claimed = false := by
    by_contra hc
    obtain ⟨x, hx', rfl⟩ := List.mem_map.mp ((h.claimed m hml).mp (by simpa using hc))
    rw [(h.stated x (List.mem_append_right _ hx')).received] at hmr
    cases hmr
  by_contra hready
  have hsound := (h.steady.detached hr).sound
  rcases (ready_grantReady hr.valid (fun k hk => hsound.received hk) hn').mp (by simpa using hready)
    with hready | hd
  · rw [hr.kept, hu n hnl hnc] at hready
    cases hready
  · have := hd m ((h.mem_detached hr hm).mpr ⟨hml, hmc⟩)
    rw [Queue.order, Queue.order, hr.kept, hr.kept, hmr] at this
    cases this hle

end Drains

end Queue

end Multiversion
