import Mathlib
import Multiversion.Proofs.Queue.Bypass
import Multiversion.Proofs.Sequencer.Exact
import Multiversion.Proofs.Sequencer.Transactions
import Multiversion.Proofs.Simulation.Plan

namespace Multiversion.Sequencer

variable {s t u : Sequencer} {f : Transaction → Transaction} {g : TransactionId} {v : Version}
  {k m n next : Nat} {q : Queue} {stage : Stage} {b : Bool} {now : Time}

def met (s : Sequencer) : Nat := s.inFlight.transactions.all.size

def queued? (s : Sequencer) (m : Nat) : Option Nat := s.queue.find? (s.transaction m).id

structure Named (next : Nat) (s : Sequencer) : Prop where
  drawn : ∀ m < s.met, (s.transaction m).id.sequence < next
  distinct : ∀ k < s.met, ∀ m < s.met, (s.transaction k).id = (s.transaction m).id → k = m
  owned : ∀ e ∈ s.queue.line, (s.queue.entry e).tx < s.met ∧
    (s.transaction (s.queue.entry e).tx).id = (s.queue.entry e).id

structure Spares (m : Nat) (s t : Sequencer) : Prop where
  met : s.met ≤ t.met
  position : t.position = s.position
  counter : s.lastPrepared ≤ t.lastPrepared
  same : t.transaction m = s.transaction m
  queue : Queue.Bypasses (s.transaction m).id s.queue t.queue

namespace Spares

theorem refl : Spares m s s := ⟨Nat.le_refl _, rfl, Nat.le_refl _, rfl, .refl⟩

theorem trans (h : Spares m s t) (h' : Spares m t u) : Spares m s u :=
  ⟨h.met.trans h'.met, h'.position.trans h.position, h.counter.trans h'.counter,
    h'.same.trans h.same, h.queue.trans (h.same ▸ h'.queue)⟩

end Spares

def Holds (s : Sequencer) (m : Nat) : Stage → Prop
  | .opened b => m < s.met ∧ (s.transaction m).modifies = b ∧ s.queued? m = none
  | .prepared true => m < s.met ∧ ∃ e, s.queued? m = some e ∧ (s.queue.entry e).received = false ∧
    s.queue.order e = s.position.seq (s.transaction m).version
  | .prepared false => m < s.met ∧ s.queued? m = none
  | .decided => m < s.met ∧ ∀ e, s.queued? m = some e → (s.queue.entry e).received = true

theorem Holds.lt_met (h : s.Holds m stage) : m < s.met := by
  cases stage with
  | prepared b => cases b <;> exact h.1
  | _ => exact h.1

def Fits (s : Sequencer) (m : Nat) (v : Version) : Prop :=
  ∀ e, s.queued? m = some e → s.queue.order e ≤ s.position.seq v

theorem fits_of_readOnly (h : s.Holds m (.prepared false)) : s.Fits m v := by
  intro e he
  rw [h.2] at he
  cases he

theorem fits_finalVersion {bump : Nat} {peer : Option Version} (h : s.Holds m (.prepared true)) :
    s.Fits m (s.finalVersion m bump peer) := by
  obtain ⟨-, e, he, -, ho⟩ := h
  have hv : s.position.seq (s.finalVersion m bump peer) =
      s.position.seq (s.transaction m).version + bump := Position.seq_stamp ..
  intro i hi
  obtain rfl : e = i := Option.some.inj (he.symm.trans hi)
  rw [ho, hv]
  exact Nat.le_add_right ..

section Spares

variable (h : Spares m s t)
include h

theorem Spares.absent (hn : s.queued? m = none) : t.queued? m = none := by
  refine Option.eq_none_iff_forall_ne_some.mpr fun e he => ?_
  rw [queued?, h.same] at he
  rw [queued?, (h.queue.found e he).1] at hn
  cases hn

theorem Spares.waiting {e : Nat} (he : s.queued? m = some e)
    (hu : (s.queue.entry e).received = false) : t.queued? m = some e ∧
      (t.queue.entry e).received = false ∧ t.queue.order e = s.queue.order e := by
  rw [queued?, h.same]
  exact h.queue.waiting e he hu

theorem Spares.holds (hs : s.Holds m stage) : t.Holds m stage := by
  have hlt : m < t.met := hs.lt_met.trans_le h.met
  cases stage with
  | opened b => exact ⟨hlt, h.same ▸ hs.2.1, h.absent hs.2.2⟩
  | prepared b =>
    cases b with
    | false => exact ⟨hlt, h.absent hs.2⟩
    | true =>
      obtain ⟨-, e, he, hu, ho⟩ := hs
      obtain ⟨he', hu', ho'⟩ := h.waiting he hu
      exact ⟨hlt, e, he', hu', by rw [ho', ho, h.position, h.same]⟩
  | decided =>
    refine ⟨hlt, fun e he => ?_⟩
    rw [queued?, h.same] at he
    obtain ⟨he, hr⟩ := h.queue.found e he
    exact hr (hs.2 e he)

theorem Spares.fits (hs : s.Holds m (.prepared b)) (hf : s.Fits m v) : t.Fits m v := by
  intro e he
  cases b with
  | false =>
    rw [h.absent hs.2] at he
    cases he
  | true =>
    obtain ⟨-, e', he', hu, -⟩ := hs
    obtain ⟨he'', -, ho⟩ := h.waiting he' hu
    obtain rfl : e = e' := Option.some.inj (he.symm.trans he'')
    rw [ho, h.position]
    exact hf e he'

end Spares

section Edit

theorem transaction_edit (hk : k < s.met) :
    (s.edit m f).transaction k = if k = m then f (s.transaction k) else s.transaction k :=
  Transactions.get_update hk

theorem met_edit : (s.edit m f).met = s.met := Transactions.size_update

theorem id_edit (hf : ∀ t, (f t).id = t.id) (hk : k < s.met) :
    ((s.edit m f).transaction k).id = (s.transaction k).id := by
  rw [transaction_edit hk]
  split
  · exact hf _
  · rfl

theorem Named.congr (h : s.Named next) (hm : t.met = s.met)
    (hi : ∀ k < s.met, (t.transaction k).id = (s.transaction k).id)
    (ho : ∀ e ∈ t.queue.line, (t.queue.entry e).tx < s.met ∧
      (s.transaction (t.queue.entry e).tx).id = (t.queue.entry e).id) : t.Named next := by
  refine ⟨fun k hk => ?_, fun k hk m hm' he => ?_, fun e he => ?_⟩
  · rw [hi k (hm ▸ hk)]
    exact h.drawn k (hm ▸ hk)
  · rw [hi k (hm ▸ hk), hi m (hm ▸ hm')] at he
    exact h.distinct k (hm ▸ hk) m (hm ▸ hm') he
  · obtain ⟨ht, hid⟩ := ho e he
    exact ⟨hm ▸ ht, (hi _ ht).trans hid⟩

theorem Named.within (h : s.Named next) (hq : s.queue.Within q) :
    ∀ e ∈ q.line, (q.entry e).tx < s.met ∧ (s.transaction (q.entry e).tx).id = (q.entry e).id := by
  intro e he
  obtain ⟨he, ht, hi⟩ := hq e he
  rw [ht, hi]
  exact h.owned e he

theorem named_edit (h : s.Named next) (hf : ∀ t, (f t).id = t.id) : (s.edit m f).Named next :=
  h.congr met_edit (fun _ hk => id_edit hf hk) h.owned

theorem spares_edit (hk : k < s.met) (hkm : k ≠ m) : Spares k s (s.edit m f) :=
  ⟨met_edit.ge, rfl, Nat.le_refl _, (transaction_edit hk).trans (if_neg hkm), .refl⟩

theorem queued?_edit (hf : ∀ t, (f t).id = t.id) (hk : k < s.met) :
    (s.edit m f).queued? k = s.queued? k := by
  rw [queued?, id_edit hf hk]
  rfl

theorem holds_write {w : Write} (h : s.Holds m (.opened b)) :
    (s.edit m (·.add w)).Holds m (.opened true) := by
  obtain ⟨hlt, -, hn⟩ := h
  refine ⟨by rwa [met_edit], ?_, ?_⟩
  · rw [transaction_edit hlt, if_pos rfl]
    simp [Transaction.modifies, Transaction.add]
  · rwa [queued?_edit (f := (·.add w)) (fun _ => rfl) hlt]

theorem holds_prepareReadOnly (h : s.Holds m (.opened false)) :
    (s.edit m (·.stamp v)).Holds m (.prepared false) := by
  refine ⟨?_, ?_⟩
  · rw [met_edit]
    exact h.1
  · rw [queued?_edit (f := (·.stamp v)) (fun _ => rfl) h.1]
    exact h.2.2

end Edit

section Begin

theorem met_begin : (s.begin g).2.met = s.met + 1 := Array.size_push ..

theorem transaction_begin : (s.begin g).2.transaction k =
    if k = s.met then .start g s.log.current else s.transaction k := Transactions.get_push_eq

theorem transaction_begin_of_lt (hk : k < s.met) :
    (s.begin g).2.transaction k = s.transaction k := by
  rw [transaction_begin, if_neg hk.ne]

theorem Named.ne (h : s.Named next) (hg : g.sequence = next) (hk : k < s.met) :
    (s.transaction k).id ≠ g := by
  rintro rfl
  exact (h.drawn k hk).ne hg

theorem named_begin (h : s.Named next) (hg : g.sequence = next) :
    (s.begin g).2.Named (next + 1) := by
  have new : ((s.begin g).2.transaction s.met).id = g := by
    rw [transaction_begin, if_pos rfl]
    rfl
  have cases_lt {k} (hk : k < (s.begin g).2.met) : k < s.met ∨ k = s.met := by
    rw [met_begin] at hk
    omega
  refine ⟨fun k hk => ?_, fun k hk m hm he => ?_, fun e he => ?_⟩
  · rcases cases_lt hk with hk | rfl
    · rw [transaction_begin_of_lt hk]
      exact (h.drawn k hk).trans (Nat.lt_succ_self _)
    · rw [new, hg]
      exact Nat.lt_succ_self _
  · rcases cases_lt hk with hk | rfl <;> rcases cases_lt hm with hm | rfl
    · rw [transaction_begin_of_lt hk, transaction_begin_of_lt hm] at he
      exact h.distinct k hk m hm he
    · rw [transaction_begin_of_lt hk, new] at he
      exact absurd he (h.ne hg hk)
    · rw [transaction_begin_of_lt hm, new] at he
      exact absurd he.symm (h.ne hg hm)
    · rfl
  · obtain ⟨ht, hi⟩ := h.owned e he
    refine ⟨ht.trans (by rw [met_begin]; exact Nat.lt_succ_self _), ?_⟩
    exact (congrArg Transaction.id (transaction_begin_of_lt ht)).trans hi

theorem spares_begin (hk : k < s.met) : Spares k s (s.begin g).2 :=
  ⟨by rw [met_begin]; exact Nat.le_succ _, rfl, Nat.le_refl _, transaction_begin_of_lt hk, .refl⟩

theorem holds_begin (h : s.Named next) (hv : s.queue.Valid) (hg : g.sequence = next) :
    (s.begin g).2.Holds s.met (.opened false) := by
  have new : (s.begin g).2.transaction s.met = .start g s.log.current := by
    rw [transaction_begin, if_pos rfl]
  refine ⟨by rw [met_begin]; exact Nat.lt_succ_self _, by rw [new]; rfl, ?_⟩
  rw [queued?, new]
  refine hv.find?_eq_none_iff.mpr fun e he => ?_
  obtain ⟨ht, hi⟩ := h.owned e he
  rw [← hi]
  exact h.ne hg ht

end Begin

section Prepare

theorem met_prepare : (s.prepare m now).1.met = s.met := met_edit

theorem transaction_prepare (hk : k < s.met) : (s.prepare m now).1.transaction k =
    if k = m then (s.transaction k).stamp (s.position.stamp s.log.current s.nextSequence)
    else s.transaction k := transaction_edit hk

theorem id_prepare (hk : k < s.met) :
    ((s.prepare m now).1.transaction k).id = (s.transaction k).id :=
  id_edit (f := (·.stamp _)) (fun _ => rfl) hk

section Queued

variable (hv : s.queue.Valid) (hm : m < s.met) (hn : s.queued? m = none)
include hv hm hn

theorem enqueued_prepare (now : Time) :
    s.queue.Enqueued (Queue.tentative m (s.transaction m).id
      (s.position.stamp s.log.current s.nextSequence) s.nextSequence s.visible now)
      (s.prepare m now).1.queue := by
  rw [queue_prepare hm]
  exact hv.prepare_none m _ _ _ now hn

theorem named_prepare (h : s.Named next) : (s.prepare m now).1.Named next := by
  have hr := enqueued_prepare hv hm hn now
  refine h.congr met_prepare (fun _ hk => id_prepare hk) fun e he => ?_
  rcases (hr.line e).mp he with rfl | he
  · rw [hr.fresh]
    exact ⟨hm, rfl⟩
  · rw [hr.kept_line hv he]
    exact h.owned e he

theorem spares_prepare (h : s.Named next) (hk : k < s.met) (hkm : k ≠ m) :
    Spares k s (s.prepare m now).1 := by
  refine ⟨met_prepare.ge, rfl, lastPrepared_lt_next.le, ?_, ?_⟩
  · rw [transaction_prepare hk, if_neg hkm]
  · rw [queue_prepare hm]
    exact hv.prepare_bypasses hn fun he => hkm (h.distinct k hk m hm he.symm)

theorem holds_prepare : (s.prepare m now).1.Holds m (.prepared true) := by
  have hr := enqueued_prepare hv hm hn now
  refine ⟨by rwa [met_prepare], s.queue.entries.size, ?_, ?_, ?_⟩
  · rw [queued?, id_prepare hm, hr.valid.find?_eq_some_iff, hr.fresh]
    exact ⟨(hr.line _).mpr (.inl rfl), rfl⟩
  · rw [hr.fresh]
    rfl
  · rw [Queue.order, hr.fresh, transaction_prepare hm, if_pos rfl]
    exact (Position.seq_stamp ..).symm

end Queued

end Prepare

section Rollback

variable (hv : s.queue.Valid)
include hv

theorem met_rollback : (s.rollback g now).1.met = s.met := by
  rw [rollback_eq hv]
  rfl

theorem transaction_rollback : (s.rollback g now).1.transaction k = s.transaction k := by
  rw [rollback_eq hv]
  rfl

theorem named_rollback (h : s.Named next) : (s.rollback g now).1.Named next := by
  refine h.congr (met_rollback hv) (fun k _ => congrArg _ (transaction_rollback hv)) ?_
  rw [queue_rollback hv]
  exact h.within hv.rollback_within

theorem spares_rollback (hg : (s.transaction k).id ≠ g) : Spares k s (s.rollback g now).1 := by
  refine ⟨(met_rollback hv).ge, position_rollback, lastPrepared_rollback.ge,
    transaction_rollback hv, ?_⟩
  rw [queue_rollback hv]
  exact hv.rollback_bypasses hg.symm

theorem holds_rollback (hm : m < s.met) :
    (s.rollback (s.transaction m).id now).1.Holds m .decided := by
  refine ⟨by rwa [met_rollback hv], fun e he => ?_⟩
  have hr : (s.queue.rollback (s.transaction m).id now).1.Valid := hv.rollback
  rw [queued?, transaction_rollback hv, queue_rollback hv, hr.find?_eq_some_iff] at he
  obtain ⟨he, hg⟩ := he
  obtain ⟨hl, -, hi⟩ := hv.rollback_within e he
  have hf : s.queue.find? (s.transaction m).id = some e :=
    hv.find?_eq_some_iff.mpr ⟨hl, hi ▸ hg⟩
  obtain ⟨-, r, hrem, eq⟩ := hv.rollback_some now hf
  rw [eq, Queue.line_grantReady, hrem.line] at he
  exact absurd rfl he.2

end Rollback

section Settle

variable (hv : s.queue.Valid)
include hv

theorem settle_found {e : Nat} (hf : s.queue.find? g = some e) : (s.settle g v now).1 =
    { s with inFlight := ⟨s.inFlight.transactions.stamp (s.queue.entry e).tx v,
      (s.queue.commit g v (s.position.seq v) now).1⟩ } := by
  obtain ⟨hn, -⟩ := hv.commit_some v (s.position.seq v) now hf
  obtain ⟨hl, -⟩ := hv.find?_eq_some_iff.mp hf
  have hwithin : s.queue.Within (s.queue.commit g v (s.position.seq v) now).1 := hv.commit_within
  obtain ⟨-, ht, -⟩ := hwithin e (hv.mem_commit hl)
  obtain ⟨⟨q, o, ns⟩, hc⟩ : ∃ c, s.inFlight.queue.commit g v (s.position.seq v) now = c := ⟨_, rfl⟩
  obtain rfl : o = some e := by
    rw [queue, hc] at hn
    exact hn
  rw [queue, hc] at ht
  simp only [settle, InFlight.commit, queue, hc, ht]

theorem met_settle : (s.settle g v now).1.met = s.met := by
  cases hf : s.queue.find? g with
  | none =>
    rw [settle_none hf]
    rfl
  | some e =>
    rw [settle_found hv hf]
    exact Transactions.size_update

theorem transaction_settle {e : Nat} (hf : s.queue.find? g = some e) (hk : k < s.met) :
    (s.settle g v now).1.transaction k =
      if k = (s.queue.entry e).tx then (s.transaction k).stamp v else s.transaction k := by
  rw [settle_found hv hf]
  exact Transactions.get_update hk

theorem id_settle (hk : k < s.met) :
    ((s.settle g v now).1.transaction k).id = (s.transaction k).id := by
  cases hf : s.queue.find? g with
  | none =>
    rw [settle_none hf]
    rfl
  | some e =>
    rw [transaction_settle hv hf hk]
    split <;> rfl

theorem named_settle (h : s.Named next) : (s.settle g v now).1.Named next := by
  refine h.congr (met_settle hv) (fun k hk => id_settle hv hk) ?_
  rw [queue_settle hv]
  exact h.within hv.commit_within

theorem spares_settle (h : s.Named next) (hk : k < s.met) (hg : (s.transaction k).id ≠ g) :
    Spares k s (s.settle g v now).1 := by
  refine ⟨(met_settle hv).ge, position_settle, lastPrepared_settle.ge, ?_, ?_⟩
  · cases hf : s.queue.find? g with
    | none =>
      rw [settle_none hf]
      rfl
    | some e =>
      rw [transaction_settle hv hf hk, if_neg]
      rintro rfl
      obtain ⟨hl, hi⟩ := hv.find?_eq_some_iff.mp hf
      exact hg ((h.owned e hl).2.trans hi)
  · rw [queue_settle hv]
    exact hv.commit_bypasses hg.symm

theorem holds_settle (hm : m < s.met) :
    (s.settle (s.transaction m).id v now).1.Holds m .decided := by
  refine ⟨by rwa [met_settle hv], fun e he => ?_⟩
  have hr : (s.queue.commit (s.transaction m).id v (s.position.seq v) now).1.Valid := hv.commit
  rw [queued?, id_settle hv hm, queue_settle hv, hr.find?_eq_some_iff] at he
  obtain ⟨he, hg⟩ := he
  obtain ⟨hl, -, hi⟩ := hv.commit_within e he
  have hf : s.queue.find? (s.transaction m).id = some e :=
    hv.find?_eq_some_iff.mpr ⟨hl, hi ▸ hg⟩
  obtain ⟨-, r, hrec, eq⟩ := hv.commit_some v (s.position.seq v) now hf
  have hcopies : r.Copies ((r.grantReady now).update e Entry.holdBack) :=
    Queue.Copies.grantReady.trans (.update fun _ => Entry.card_holdBack)
  rw [queue_settle hv, eq, hcopies.received_eq, hrec.settled]
  rfl

end Settle

end Multiversion.Sequencer
