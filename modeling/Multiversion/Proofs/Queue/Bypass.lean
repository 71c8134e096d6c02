import Mathlib
import Multiversion.Proofs.Queue.Yields

namespace Multiversion

namespace Entry

variable {e : Entry} {k : Nat} {now : Time}

def card (e : Entry) : Nat × TransactionId × Nat × Bool × Bool :=
  (e.tx, e.id, e.order, e.received, e.isAborted)

theorem card_markReady : (e.markReady k now).card = e.card :=
  markReady_keeps card fun _ _ _ _ => rfl

theorem card_holdBack : e.holdBack.card = e.card := holdBack_keeps card fun _ => rfl

theorem card_markCommitted : (e.markCommitted now).card = e.card := by
  rw [card, card, isAborted_markCommitted, markCommitted_keeps Entry.tx fun _ _ _ => rfl,
    markCommitted_keeps Entry.id fun _ _ _ => rfl,
    markCommitted_keeps Entry.order fun _ _ _ => rfl,
    markCommitted_keeps Entry.received fun _ _ _ => rfl]

end Entry

namespace Queue

variable {q r s : Queue} {f g : TransactionId} {v : Version} {e : Entry}
  {m n tx order clock : Nat} {ns : List Nat} {now : Time}

structure Copies (q r : Queue) : Prop where
  size : r.entries.size = q.entries.size
  line : ∀ n, n ∈ r.line ↔ n ∈ q.line
  card : ∀ n, (r.entry n).card = (q.entry n).card

namespace Copies

theorem trans (h : q.Copies r) (h' : r.Copies s) : q.Copies s :=
  ⟨h'.size.trans h.size, fun n => (h'.line n).trans (h.line n),
    fun n => (h'.card n).trans (h.card n)⟩

theorem grantReady : q.Copies (q.grantReady now) :=
  ⟨size_grantReady, fun _ => by rw [line_grantReady],
    fun _ => grantReady_keeps Entry.card fun _ _ => Entry.card_markReady⟩

theorem update {f : Entry → Entry} (hf : ∀ e, (f e).card = e.card) : q.Copies (q.update m f) :=
  ⟨size_update, fun _ => by rw [line_update], fun _ => update_keeps Entry.card hf⟩

theorem updateAll {f : Entry → Entry} (hf : ∀ e, (f e).card = e.card) :
    q.Copies (q.updateAll f ns) :=
  ⟨size_updateAll, fun _ => by rw [line_updateAll], fun _ => updateAll_keeps Entry.card hf⟩

theorem claimAll : q.Copies (q.claimAll ns).1 := by
  rw [claimAll_fst]
  exact updateAll fun _ => rfl

theorem markAll : q.Copies (q.markAll ns now) := updateAll fun _ => Entry.card_markCommitted

variable (h : q.Copies r)
include h

theorem tx_eq (n : Nat) : (r.entry n).tx = (q.entry n).tx := congrArg (·.1) (h.card n)

theorem id_eq (n : Nat) : (r.entry n).id = (q.entry n).id := congrArg (·.2.1) (h.card n)

theorem order_eq (n : Nat) : r.order n = q.order n := congrArg (·.2.2.1) (h.card n)

theorem received_eq (n : Nat) : (r.entry n).received = (q.entry n).received :=
  congrArg (·.2.2.2.1) (h.card n)

theorem isAborted_eq (n : Nat) : (r.entry n).isAborted = (q.entry n).isAborted :=
  congrArg (·.2.2.2.2) (h.card n)

theorem find?_eq (hq : q.Valid) (hr : r.Valid) : r.find? g = q.find? g := by
  refine Option.ext fun n => ?_
  rw [hr.find?_eq_some_iff, hq.find?_eq_some_iff, h.line, h.id_eq]

end Copies

structure Bypasses (g : TransactionId) (q r : Queue) : Prop where
  found : ∀ n, r.find? g = some n → q.find? g = some n ∧
    ((q.entry n).received = true → (r.entry n).received = true)
  waiting : ∀ n, q.find? g = some n → (q.entry n).received = false →
    r.find? g = some n ∧ (r.entry n).received = false ∧ r.order n = q.order n

namespace Bypasses

theorem refl : Bypasses g q q := ⟨fun _ hn => ⟨hn, fun h => h⟩, fun _ hn hu => ⟨hn, hu, rfl⟩⟩

theorem trans (h : Bypasses g q r) (h' : Bypasses g r s) : Bypasses g q s := by
  refine ⟨fun n hn => ?_, fun n hn hu => ?_⟩
  · obtain ⟨hr, hrec⟩ := h'.found n hn
    obtain ⟨hq, hrec'⟩ := h.found n hr
    exact ⟨hq, fun hd => hrec (hrec' hd)⟩
  · obtain ⟨hr, hru, hro⟩ := h.waiting n hn hu
    obtain ⟨hs, hsu, hso⟩ := h'.waiting n hr hru
    exact ⟨hs, hsu, hso.trans hro⟩

variable (hq : q.Valid) (hr : r.Valid)
include hq hr

theorem of_copies (h : q.Copies r) : Bypasses g q r := by
  refine ⟨fun n hn => ?_, fun n hn hu => ?_⟩
  · rw [h.find?_eq hq hr] at hn
    exact ⟨hn, fun hd => (h.received_eq n).trans hd⟩
  · exact ⟨(h.find?_eq hq hr).trans hn, (h.received_eq n).trans hu, h.order_eq n⟩

theorem of_kept
    (hl : ∀ n, n ∈ r.line ∧ (r.entry n).id = g ↔ n ∈ q.line ∧ (q.entry n).id = g)
    (he : ∀ n ∈ q.line, (q.entry n).id = g → r.entry n = q.entry n) : Bypasses g q r := by
  have hfind : r.find? g = q.find? g := by
    refine Option.ext fun n => ?_
    rw [hr.find?_eq_some_iff, hq.find?_eq_some_iff, hl]
  refine ⟨fun n hn => ?_, fun n hn hu => ?_⟩
  · rw [hfind] at hn
    obtain ⟨hnl, hg⟩ := hq.find?_eq_some_iff.mp hn
    exact ⟨hn, fun hd => he n hnl hg ▸ hd⟩
  · obtain ⟨hnl, hg⟩ := hq.find?_eq_some_iff.mp hn
    have hk := he n hnl hg
    exact ⟨hfind.trans hn, hk ▸ hu, congrArg Entry.order hk⟩

end Bypasses

def Within (q r : Queue) : Prop :=
  ∀ n ∈ r.line, n ∈ q.line ∧ (r.entry n).tx = (q.entry n).tx ∧ (r.entry n).id = (q.entry n).id

namespace Within

theorem refl : q.Within q := fun _ hn => ⟨hn, rfl, rfl⟩

theorem trans (h : q.Within r) (h' : r.Within s) : q.Within s := by
  intro n hn
  obtain ⟨hr, ht, hi⟩ := h' n hn
  obtain ⟨hq, ht', hi'⟩ := h n hr
  exact ⟨hq, ht.trans ht', hi.trans hi'⟩

theorem of_copies (h : q.Copies r) : q.Within r :=
  fun n hn => ⟨(h.line n).mp hn, h.tx_eq n, h.id_eq n⟩

end Within

section Calls

variable (hv : q.Valid)
include hv

theorem Valid.prepare_bypasses (hf : q.find? g = none) (hg : g ≠ f) :
    Bypasses f q (q.prepare tx g v order clock now).1 := by
  have hr := hv.prepare_none tx v order clock now hf
  refine .of_kept hv hr.valid (fun n => ⟨fun ⟨hn, hi⟩ => ?_, fun ⟨hn, hi⟩ => ?_⟩) fun n hn _ => ?_
  · rcases (hr.line n).mp hn with rfl | hn
    · rw [hr.fresh] at hi
      exact absurd hi hg
    · exact ⟨hn, hr.kept_line hv hn ▸ hi⟩
  · exact ⟨(hr.line n).mpr (.inr hn), (hr.kept_line hv hn).symm ▸ hi⟩
  · exact hr.kept_line hv hn

theorem Valid.commit_bypasses (hg : g ≠ f) : Bypasses f q (q.commit g v order now).1 := by
  cases hf : q.find? g with
  | none =>
    rw [Valid.commit_none hf]
    exact .refl
  | some m =>
    obtain ⟨-, r, hr, e⟩ := hv.commit_some v order now hf
    have hm : (q.entry m).id = g := (hv.find?_eq_some_iff.mp hf).2
    have other {n} (hn : (q.entry n).id = f) : n ≠ m := by
      rintro rfl
      exact hg (hm.symm.trans hn)
    have hi (n) : (r.entry n).id = (q.entry n).id := hr.keeps Entry.id fun _ => rfl
    have hkept : Bypasses f q r := by
      refine .of_kept hv hr.valid (fun n => ?_) fun n _ hn => hr.kept n (other hn)
      rw [hr.line, hi]
    have hgrant : (r.grantReady now).Valid := hr.valid.grantReady
    have hcopies : r.Copies ((r.grantReady now).update m Entry.holdBack) :=
      Copies.grantReady.trans (.update fun _ => Entry.card_holdBack)
    rw [e]
    refine hkept.trans (.of_copies hr.valid (hgrant.update ?_ ?_ ?_) hcopies)
    · exact fun e => Entry.holdBack_keeps Entry.admission fun _ => rfl
    · exact fun e => Entry.holdBack_keeps Entry.id fun _ => rfl
    · exact fun e => Entry.holdBack_keeps Entry.order fun _ => rfl

theorem Valid.rollback_bypasses (hg : g ≠ f) : Bypasses f q (q.rollback g now).1 := by
  cases hf : q.find? g with
  | none =>
    rw [Valid.rollback_none hf]
    exact .refl
  | some m =>
    obtain ⟨-, r, hr, e⟩ := hv.rollback_some now hf
    have hm : (q.entry m).id = g := (hv.find?_eq_some_iff.mp hf).2
    have other {n} (hn : (q.entry n).id = f) : n ≠ m := by
      rintro rfl
      exact hg (hm.symm.trans hn)
    have hi (n) : (r.entry n).id = (q.entry n).id := hr.keeps Entry.id fun _ => rfl
    have hkept : Bypasses f q r := by
      refine .of_kept hv hr.valid (fun n => ?_) fun n _ hn => hr.kept n (other hn)
      rw [hr.line, hi]
      exact ⟨fun ⟨hn, hi⟩ => ⟨hn.1, hi⟩, fun ⟨hn, hi⟩ => ⟨⟨hn, other hi⟩, hi⟩⟩
    rw [e]
    exact hkept.trans (.of_copies hr.valid hr.valid.grantReady .grantReady)

theorem Valid.detach_bypasses
    (hc : ∀ n ∈ q.line, (q.entry n).committed = true → (q.entry n).received = true) :
    Bypasses f q (q.detach now).1 := by
  obtain ⟨r, hr, e⟩ := hv.detach now
  have hsub {n} (hn : n ∈ r.line) : n ∈ q.line :=
    (List.dropWhile_sublist _).subset (hr.line ▸ hn)
  have hkept : Bypasses f q r := by
    refine ⟨fun n hn => ?_, fun n hn hu => ?_⟩
    · obtain ⟨hn, hg⟩ := hr.valid.find?_eq_some_iff.mp hn
      rw [hr.kept] at hg ⊢
      exact ⟨hv.find?_eq_some_iff.mpr ⟨hsub hn, hg⟩, fun hd => hd⟩
    · obtain ⟨hnl, hg⟩ := hv.find?_eq_some_iff.mp hn
      have hnr : n ∈ (q.detach now).1.line := by
        by_contra hnr
        rw [hc n hnl (hv.committed_of_notMem_detach hnl hnr)] at hu
        cases hu
      rw [e, line_grantReady] at hnr
      rw [Queue.order, hr.kept]
      exact ⟨hr.valid.find?_eq_some_iff.mpr ⟨hnr, hr.kept n ▸ hg⟩, hu, rfl⟩
  rw [e]
  exact hkept.trans (.of_copies hr.valid hr.valid.grantReady .grantReady)

theorem Valid.commit_within : q.Within (q.commit g v order now).1 := by
  cases hf : q.find? g with
  | none =>
    rw [Valid.commit_none hf]
    exact .refl
  | some m =>
    obtain ⟨-, r, hr, e⟩ := hv.commit_some v order now hf
    have hreceived : q.Within r := fun n hn =>
      ⟨(hr.line n).mp hn, hr.keeps Entry.tx fun _ => rfl, hr.keeps Entry.id fun _ => rfl⟩
    rw [e]
    exact hreceived.trans (.of_copies (Copies.grantReady.trans
      (.update fun _ => Entry.card_holdBack)))

theorem Valid.rollback_within : q.Within (q.rollback g now).1 := by
  cases hf : q.find? g with
  | none =>
    rw [Valid.rollback_none hf]
    exact .refl
  | some m =>
    obtain ⟨-, r, hr, e⟩ := hv.rollback_some now hf
    have hremoved : q.Within r := by
      intro n hn
      obtain ⟨hn, hnm⟩ := (hr.line n).mp hn
      rw [hr.kept n hnm]
      exact ⟨hn, rfl, rfl⟩
    rw [e]
    exact hremoved.trans (.of_copies .grantReady)

theorem Valid.detach_within : q.Within (q.detach now).1 := by
  obtain ⟨r, hr, e⟩ := hv.detach now
  have hdetached : q.Within r := by
    intro n hn
    rw [hr.kept]
    exact ⟨(List.dropWhile_sublist _).subset (hr.line ▸ hn), rfl, rfl⟩
  rw [e]
  exact hdetached.trans (.of_copies .grantReady)

end Calls

section Settled

def settled (q : Queue) : Nat :=
  (List.range q.entries.size).countP fun n => (q.entry n).received && !(q.entry n).isAborted

theorem countP_range_of_gain {P Q : Nat → Bool} {k : Nat} (hP : P m = false) (hQ : Q m = true)
    (h : ∀ n, n ≠ m → Q n = P n) (hm : m < k) :
    (List.range k).countP Q = (List.range k).countP P + 1 := by
  induction k with
  | zero => exact absurd hm (Nat.not_lt_zero m)
  | succ k ih =>
    rw [List.range_succ, List.countP_append, List.countP_append, List.countP_singleton,
      List.countP_singleton]
    rcases Nat.lt_succ_iff_lt_or_eq.mp hm with hlt | rfl
    · rw [ih hlt, h k hlt.ne']
      omega
    · have hbelow : (List.range m).countP Q = (List.range m).countP P :=
        List.countP_congr fun n hn => by rw [h n (List.mem_range.mp hn).ne]
      rw [hbelow, hP, hQ]
      rfl

theorem Copies.settled_eq (h : q.Copies r) : r.settled = q.settled := by
  unfold settled
  rw [h.size]
  refine List.countP_congr fun n _ => ?_
  rw [h.received_eq, h.isAborted_eq]

variable (hv : q.Valid)
include hv

theorem Valid.settled_prepare (hf : q.find? g = none) :
    (q.prepare tx g v order clock now).1.settled = q.settled := by
  have hr := hv.prepare_none tx v order clock now hf
  unfold settled
  rw [hr.size, List.range_succ, List.countP_append, List.countP_singleton, hr.fresh]
  refine List.countP_congr fun n hn => ?_
  rw [hr.kept n (List.mem_range.mp hn)]

theorem Valid.settled_commit (hf : q.find? g = some n) (hu : (q.entry n).received = false)
    (ha : (q.entry n).isAborted = false) :
    (q.commit g v order now).1.settled = q.settled + 1 := by
  obtain ⟨-, r, hr, e⟩ := hv.commit_some v order now hf
  have hcopies : r.Copies ((r.grantReady now).update n Entry.holdBack) :=
    Copies.grantReady.trans (.update fun _ => Entry.card_holdBack)
  rw [e, hcopies.settled_eq]
  unfold settled
  rw [hr.size]
  refine countP_range_of_gain (m := n) ?_ ?_ (fun m hm => ?_)
    (hv.known (hv.find?_eq_some_iff.mp hf).1)
  · rw [hu]
    rfl
  · have ha' : (r.entry n).isAborted = false := by
      rw [hr.settled]
      exact ha
    rw [ha', hr.settled]
    rfl
  · rw [hr.kept m hm]

theorem Valid.settled_rollback (hu : ∀ n, q.find? g = some n → (q.entry n).received = false) :
    (q.rollback g now).1.settled = q.settled := by
  cases hf : q.find? g with
  | none => rw [Valid.rollback_none hf]
  | some m =>
    obtain ⟨-, r, hr, e⟩ := hv.rollback_some now hf
    rw [e, Copies.grantReady.settled_eq]
    unfold settled
    rw [hr.size]
    refine List.countP_congr fun n _ => ?_
    by_cases hn : n = m
    · have hreceived : (r.entry n).received = (q.entry n).received :=
        hr.keeps Entry.received fun _ => rfl
      rw [hreceived, hn, hu m hf]
      rfl
    · rw [hr.kept n hn]

theorem Valid.settled_detach : (q.detach now).1.settled = q.settled := by
  obtain ⟨r, hr, e⟩ := hv.detach now
  rw [e, Copies.grantReady.settled_eq]
  unfold settled
  rw [hr.size]
  exact List.countP_congr fun n _ => by rw [hr.kept]

end Settled

end Queue

end Multiversion
