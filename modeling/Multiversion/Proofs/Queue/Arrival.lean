import Mathlib
import Multiversion.Proofs.Queue.Progress
import Multiversion.Proofs.Queue.Roster

namespace Multiversion

/-- A transaction with the decision that it will receive; none rolls it back. -/
structure Planned where
  tx : Nat
  id : TransactionId
  tentative : Version
  clock : Nat
  preparedAt : Time
  final : Option Version
  deriving DecidableEq, Repr

namespace Planned

def prepare (x : Planned) : Queue.Call :=
  .prepare x.tx x.id x.tentative x.clock x.preparedAt

def decision (x : Planned) (now : Time) : Queue.Call :=
  match x.final with
  | some v => .commit x.id v now
  | none => .rollback x.id now

def final? (plan : List Planned) (n : Nat) : Option Version := plan[n]?.bind final

def named (plan : List Planned) (n : Nat) : Option (TransactionId × Version) :=
  plan[n]?.bind fun x => x.final.map (x.id, ·)

def sequence (p : Position) (plan : List Planned) (n : Nat) : Nat := (final? plan n).elim 0 p.seq

def outcome (p : Position) (plan : List Planned) : List Nat :=
  ((List.range plan.length).filter fun n => (final? plan n).isSome).insertionSort
    (NotAfter (sequence p plan))

section

variable {p : Position} {plan : List Planned} {n : Nat}

theorem mem_outcome :
    n ∈ outcome p plan ↔ ∃ x v, plan[n]? = some x ∧ x.final = some v := by
  rw [outcome, (List.perm_insertionSort ..).mem_iff]
  simp only [List.mem_filter, List.mem_range, Option.isSome_iff_exists, final?,
    Option.bind_eq_some_iff]
  constructor
  · rintro ⟨-, v, x, hx, hv⟩
    exact ⟨x, v, hx, hv⟩
  · rintro ⟨x, v, hx, hv⟩
    exact ⟨(List.getElem?_eq_some_iff.mp hx).1, v, x, hx, hv⟩

theorem outcome_nodup : (outcome p plan).Nodup :=
  (List.perm_insertionSort ..).nodup_iff.mpr (List.nodup_range.filter _)

theorem outcome_sorted : (outcome p plan).Pairwise (NotAfter (sequence p plan)) :=
  List.pairwise_insertionSort _ _

end

end Planned

def Entry.decision (e : Entry) : Bool × Version × Nat := (e.received, e.version, e.order)

namespace Queue

open Planned

variable {p : Position} {q r : Queue} {plan pending : List Planned} {x : Planned}
  {ds : List (Planned × Time)} {n order : Nat} {v : Version} {now : Time}

def prepared (p : Position) (tracking : Bool) (plan : List Planned) : Queue :=
  (Call.run call p { tracking } (plan.map Planned.prepare)).1

def arrived (p : Position) (tracking : Bool) (plan : List Planned) (ds : List (Planned × Time)) :
    Queue :=
  (Call.run call p (prepared p tracking plan) (ds.map fun d => d.1.decision d.2)).1

structure Awaiting (p : Position) (plan pending : List Planned) (q : Queue) : Prop where
  settled : q.Settled
  size : q.entries.size = plan.length
  id : ∀ {n x}, plan[n]? = some x → (q.entry n).id = x.id
  line : ∀ {n x}, plan[n]? = some x → (n ∈ q.line ↔ x ∈ pending ∨ x.final.isSome = true)
  final : ∀ {n x v}, plan[n]? = some x → x ∉ pending → x.final = some v →
    (q.entry n).decision = (true, v, p.seq v)

namespace Awaiting

theorem empty {tracking : Bool} : Awaiting p [] [] { tracking } where
  settled := .empty
  size := rfl
  id h := by simp at h
  line h := by simp at h
  final h := by simp at h

theorem congr {pending' : List Planned} (h : Awaiting p plan pending q)
    (hp : ∀ x, x ∈ pending ↔ x ∈ pending') : Awaiting p plan pending' q where
  settled := h.settled
  size := h.size
  id := h.id
  line hx := by rw [h.line hx, hp]
  final hx hu hv := h.final hx (mt (hp _).mp hu) hv

section

variable (h : Awaiting p plan pending q)
include h

theorem exists_planned (hn : n ∈ q.line) : ∃ x, plan[n]? = some x := by
  have hlt : n < plan.length := h.size ▸ h.settled.valid.known hn
  exact ⟨_, List.getElem?_eq_getElem hlt⟩

theorem find?_of_planned (hx : plan[n]? = some x) (hl : n ∈ q.line) : q.find? x.id = some n :=
  h.settled.valid.find?_eq_some_iff.mpr ⟨hl, h.id hx⟩

theorem find?_eq_none (hx : x.id ∉ plan.map Planned.id) : q.find? x.id = none := by
  refine h.settled.valid.find?_eq_none_iff.mpr fun n hn he => ?_
  obtain ⟨y, hy⟩ := h.exists_planned hn
  exact hx (List.mem_map.mpr ⟨y, List.mem_of_getElem? hy, (h.id hy).symm.trans he⟩)

end

theorem prepare (h : Awaiting p plan plan q) (hx : x.id ∉ plan.map Planned.id) :
    Awaiting p (plan ++ [x]) (plan ++ [x]) (q.call p x.prepare).1 := by
  have hr := h.settled.valid.prepare_none x.tx x.tentative (p.seq x.tentative) x.clock x.preparedAt
    (h.find?_eq_none hx)
  have split {n y} (hy : (plan ++ [x])[n]? = some y) :
      plan[n]? = some y ∨ n = q.entries.size ∧ y = x := by
    have := h.size
    grind
  refine ⟨h.settled.call.settled, ?_, ?_, ?_, ?_⟩
  · rw [List.length_append, ← h.size]
    exact hr.size
  · intro n y hy
    rcases split hy with hy | ⟨rfl, rfl⟩
    · have hn : n ∈ q.line := (h.line hy).mpr (.inl (List.mem_of_getElem? hy))
      exact (congrArg Entry.id (hr.kept_line h.settled.valid hn)).trans (h.id hy)
    · exact congrArg Entry.id hr.fresh
  · intro n y hy
    refine iff_of_true ((hr.line n).mpr ?_) (.inl (List.mem_of_getElem? hy))
    rcases split hy with hy | ⟨rfl, -⟩
    · exact .inr ((h.line hy).mpr (.inl (List.mem_of_getElem? hy)))
    · exact .inl rfl
  · intro n y v hy hu
    exact absurd (List.mem_of_getElem? hy) hu

theorem resolve (h : Awaiting p plan (x :: pending) q) (hid : (plan.map Planned.id).Nodup)
    (hx : plan[n]? = some x) (hp : x ∉ pending) (hr : r.Settled)
    (hz : r.entries.size = q.entries.size) (hg : ∀ m, (r.entry m).id = (q.entry m).id)
    (hl : ∀ m, m ∈ r.line ↔ m ∈ q.line ∧ (m = n → x.final.isSome = true))
    (hk : ∀ m, m ≠ n → (r.entry m).decision = (q.entry m).decision)
    (hd : ∀ v, x.final = some v → (r.entry n).decision = (true, v, p.seq v)) :
    Awaiting p plan pending r := by
  have same {y} (hy : plan[n]? = some y) : x = y := Option.some.inj (hx.symm.trans hy)
  have rest {m y} (hy : plan[m]? = some y) (hm : m ≠ n) : y ∈ x :: pending ↔ y ∈ pending := by
    obtain ⟨hlt, -⟩ := List.getElem?_eq_some_iff.mp hx
    have hne : y ≠ x := by
      rintro rfl
      exact hm ((List.getElem?_inj hlt hid.of_map).mp (hx.trans hy.symm)).symm
    simp [hne]
  refine ⟨hr, hz.trans h.size, fun hy => (hg _).trans (h.id hy), fun {m y} hy => ?_,
    fun {m y v} hy hu hv => ?_⟩
  · rw [hl, h.line hy]
    by_cases hm : m = n
    · subst hm
      simp [← same hy, hp]
    · simp [rest hy hm, hm]
  · by_cases hm : m = n
    · subst hm
      exact hd v (same hy ▸ hv)
    · rw [hk m hm]
      exact h.final hy (mt (rest hy hm).mp hu) hv

theorem decide (h : Awaiting p plan (x :: pending) q) (hid : (plan.map Planned.id).Nodup)
    (hm : x ∈ plan) (hp : x ∉ pending) :
    Awaiting p plan pending (q.call p (x.decision now)).1 := by
  obtain ⟨n, hx⟩ := List.mem_iff_getElem?.mp hm
  have hf := h.find?_of_planned hx ((h.line hx).mpr (.inl (List.mem_cons_self ..)))
  have hs := (h.settled.call (p := p) (c := x.decision now)).settled
  cases hd : x.final with
  | none =>
    obtain ⟨-, r, hr, e⟩ := h.settled.valid.rollback_some now hf
    simp only [Planned.decision, hd, call, e] at hs ⊢
    refine h.resolve hid hx hp hs ?_ (fun m => ?_) (fun m => ?_) (fun m hm => ?_) ?_
    · rw [size_grantReady, hr.size]
    · rw [grantReady_keeps Entry.id fun _ _ => Entry.id_markReady, hr.keeps Entry.id fun _ => rfl]
    · simp [hr.line, hd]
    · rw [grantReady_keeps Entry.decision fun _ _ => by simp [Entry.decision], hr.kept m hm]
    · simp [hd]
  | some v =>
    obtain ⟨-, r, hr, e⟩ := h.settled.valid.commit_some v (p.seq v) now hf
    simp only [Planned.decision, hd, call, e] at hs ⊢
    have keeps {α : Type} (φ : Entry → α) (h1 : ∀ e k, φ (e.markReady k now) = φ e)
        (h2 : ∀ e, φ (Entry.holdBack e) = φ e) {m} :
        φ (((r.grantReady now).update n Entry.holdBack).entry m) = φ (r.entry m) :=
      (update_keeps φ h2).trans (grantReady_keeps φ h1)
    have decided {m} := keeps (m := m) Entry.decision (fun _ _ => by simp [Entry.decision])
      fun _ => Entry.holdBack_keeps _ fun _ => rfl
    refine h.resolve hid hx hp hs ?_ (fun m => ?_) (fun m => ?_) (fun m hm => ?_) fun w hw => ?_
    · rw [size_update, size_grantReady, hr.size]
    · rw [keeps Entry.id (fun _ _ => Entry.id_markReady) fun _ =>
        Entry.holdBack_keeps _ fun _ => rfl]
      exact hr.keeps Entry.id fun _ => rfl
    · simp [hr.line, hd]
    · rw [decided, hr.kept m hm]
    · obtain rfl : v = w := Option.some.inj (hd.symm.trans hw)
      rw [decided, hr.settled]
      rfl

theorem prepare_all (h : Awaiting p plan plan q) {xs : List Planned}
    (hid : ((plan ++ xs).map Planned.id).Nodup) :
    Awaiting p (plan ++ xs) (plan ++ xs) (Call.run call p q (xs.map Planned.prepare)).1 := by
  induction xs generalizing plan q with
  | nil =>
    rw [List.append_nil]
    exact h
  | cons x xs ih =>
    have hx : x.id ∉ plan.map Planned.id := by
      rw [List.map_append, List.nodup_append] at hid
      intro hm
      exact hid.2.2 _ hm _ (by simp) rfl
    rw [List.append_cons] at hid ⊢
    exact ih (h.prepare hx) hid

theorem decide_all (h : Awaiting p plan (ds.map Prod.fst) q) (hid : (plan.map Planned.id).Nodup)
    (hm : ∀ d ∈ ds, d.1 ∈ plan) (hd : (ds.map Prod.fst).Nodup) :
    Awaiting p plan [] (Call.run call p q (ds.map fun d => d.1.decision d.2)).1 := by
  induction ds generalizing q with
  | nil => exact h
  | cons d ds ih =>
    obtain ⟨hp, hd⟩ := List.nodup_cons.mp hd
    have hc : (d.1.decision d.2).position p = p := by
      unfold Planned.decision
      split <;> rfl
    simp only [List.map_cons, Call.run, hc]
    exact ih (h.decide hid (hm d (by simp)) hp) (fun e he => hm e (by simp [he])) hd

section Decided

variable (h : Awaiting p plan [] q)
include h

theorem decision_eq (hn : n ∈ outcome p plan) : ∃ x v, plan[n]? = some x ∧ x.final = some v ∧
    (q.entry n).id = x.id ∧ (q.entry n).decision = (true, v, p.seq v) := by
  obtain ⟨x, v, hx, hv⟩ := mem_outcome.mp hn
  exact ⟨x, v, hx, hv, h.id hx, h.final hx List.not_mem_nil hv⟩

theorem mem_line : n ∈ q.line ↔ n ∈ outcome p plan := by
  rw [mem_outcome]
  constructor
  · intro hn
    obtain ⟨x, hx⟩ := h.exists_planned hn
    obtain ⟨v, hv⟩ := Option.isSome_iff_exists.mp (by simpa using (h.line hx).mp hn)
    exact ⟨x, v, hx, hv⟩
  · rintro ⟨x, v, hx, hv⟩
    exact (h.line hx).mpr (.inr (by simp [hv]))

theorem order_eq (hn : n ∈ outcome p plan) : q.order n = sequence p plan n := by
  obtain ⟨x, v, hx, hv, -, hd⟩ := h.decision_eq hn
  have hs : Planned.sequence p plan n = p.seq v := by simp [Planned.sequence, final?, hx, hv]
  rw [hs]
  exact congrArg (·.2.2) hd

theorem line_eq : q.line = outcome p plan := by
  refine h.settled.valid.line_eq_of_mem ?_ outcome_nodup fun n => h.mem_line
  refine outcome_sorted.imp_of_mem fun {m n} hm hn hmn => ?_
  rwa [NotAfter, h.order_eq hm, h.order_eq hn]

theorem ready (hn : n ∈ q.line) : (q.entry n).ready = true := by
  refine h.settled.ready n hn fun m hm _ => ?_
  obtain ⟨x, v, -, -, -, hd⟩ := h.decision_eq (h.mem_line.mp hm)
  exact congrArg Prod.fst hd

theorem readyPrefix_eq : q.readyPrefix = q.line :=
  List.takeWhile_eq_self_iff.mpr fun _ hn => h.ready hn

theorem toList_named :
    q.toList.map (fun e => (e.id, e.version)) = (outcome p plan).filterMap (named plan) := by
  change (q.line.map q.entry).map _ = _
  rw [h.line_eq, List.map_map, ← List.filterMap_eq_map]
  refine List.filterMap_congr fun n hn => ?_
  obtain ⟨x, v, hx, hv, hid, hd⟩ := h.decision_eq hn
  simp only [Entry.decision, Prod.mk.injEq] at hd
  simp [named, hx, hv, hid, hd.2.1]

end Decided

end Awaiting

theorem awaiting_arrived (p : Position) (tracking : Bool) (hid : (plan.map Planned.id).Nodup)
    (hd : (ds.map Prod.fst).Perm plan) : Awaiting p plan [] (arrived p tracking plan ds) := by
  have h : Awaiting p plan plan (prepared p tracking plan) := Awaiting.empty.prepare_all hid
  refine (h.congr fun x => hd.mem_iff.symm).decide_all hid (fun d hm => ?_) ?_
  · exact hd.mem_iff.mp (List.mem_map_of_mem hm)
  · exact hd.nodup_iff.mpr hid.of_map

/-- What is committed is ready and stands by final sequence and admission, however the decisions
    arrive. -/
theorem outcome_of_any_arrival (p : Position) (tracking : Bool) (plan : List Planned)
    (ds es : List (Planned × Time)) (hid : (plan.map Planned.id).Nodup)
    (hd : (ds.map Prod.fst).Perm plan) (he : (es.map Prod.fst).Perm plan) :
    let q := arrived p tracking plan ds
    let r := arrived p tracking plan es
    q.toList.map (fun e => (e.id, e.version)) = (outcome p plan).filterMap (named plan) ∧
    r.toList.map (fun e => (e.id, e.version)) = q.toList.map (fun e => (e.id, e.version)) ∧
    q.line = outcome p plan ∧ r.line = q.line ∧
    (∀ n ∈ q.line, (q.entry n).ready = true ∧ (r.entry n).ready = true) ∧
    q.readyPrefix = q.line ∧ r.readyPrefix = q.line := by
  intro q r
  have hq : Awaiting p plan [] q := awaiting_arrived p tracking hid hd
  have hr : Awaiting p plan [] r := awaiting_arrived p tracking hid he
  have line_eq : r.line = q.line := hr.line_eq.trans hq.line_eq.symm
  refine ⟨hq.toList_named, hr.toList_named.trans hq.toList_named.symm, hq.line_eq, line_eq,
    fun n hn => ⟨hq.ready hn, hr.ready (line_eq ▸ hn)⟩, hq.readyPrefix_eq, ?_⟩
  rw [hr.readyPrefix_eq, line_eq]

def booked : List Planned :=
  [⟨0, ⟨default, 1⟩, ⟨1, 0, [10]⟩, 0, 0, some ⟨1, 0, [20]⟩⟩,
    ⟨1, ⟨default, 2⟩, ⟨1, 0, [11]⟩, 0, 0, none⟩,
    ⟨2, ⟨default, 3⟩, ⟨1, 0, [12]⟩, 0, 0, some ⟨1, 0, [15]⟩⟩,
    ⟨3, ⟨default, 4⟩, ⟨1, 0, [13]⟩, 0, 0, some ⟨1, 0, [20]⟩⟩]

def booking (ns : List Nat) : List (Planned × Time) :=
  ns.filterMap fun n => booked[n]?.map (·, n)

theorem outcome_of_any_arrival_booked :
    let q := arrived (.of 0 1 1) false booked (booking [3, 0, 2, 1])
    let r := arrived (.of 0 1 1) false booked (booking [1, 2, 3, 0])
    (booked.map Planned.id).Nodup ∧ ((booking [3, 0, 2, 1]).map Prod.fst).Perm booked ∧
    ((booking [1, 2, 3, 0]).map Prod.fst).Perm booked ∧
    q.line = [2, 0, 3] ∧ r.line = [2, 0, 3] ∧ q.readyPrefix = [2, 0, 3] ∧
    r.readyPrefix = [2, 0, 3] := by
  have hid : (booked.map Planned.id).Nodup := by decide +kernel
  have hd : ((booking [3, 0, 2, 1]).map Prod.fst).Perm booked := by decide +kernel
  have he : ((booking [1, 2, 3, 0]).map Prod.fst).Perm booked := by decide +kernel
  have ho : outcome (.of 0 1 1) booked = [2, 0, 3] := by decide +kernel
  obtain ⟨-, -, hq, hr, -, hqp, hrp⟩ :=
    outcome_of_any_arrival (.of 0 1 1) false booked _ _ hid hd he
  rw [ho] at hq
  rw [hq] at hr hqp hrp
  exact ⟨hid, hd, he, hq, hr, hqp, hrp⟩

end Queue

end Multiversion
