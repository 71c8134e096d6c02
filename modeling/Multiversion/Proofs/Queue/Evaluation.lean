import Mathlib
import Multiversion.Proofs.Queue.Scan

/-!
The evaluation of readiness as it is made: it marks a batch before it looks at the one behind.
-/

namespace Multiversion

namespace Readiness

def Run.of (run : Option Run) (es : List Entry) : Option Run :=
  es.foldl (fun run e => some (Run.extend run e.order)) run

variable {es : List Entry} {run : Option Run}

theorem passReady_fst : (passReady run es).1 = Run.of run (es.takeWhile (·.ready)) := by
  induction es generalizing run with
  | nil => rfl
  | cons e es ih =>
    cases he : e.ready with
    | true => simp [passReady, he, ih, Run.of]
    | false => simp [passReady, he, Run.of]

end Readiness

namespace Queue

open Readiness

def Meets (q : Queue) (P : Entry → Bool) (i : Nat) : Prop :=
  ∃ n, q.arena.content i = .entry n ∧ P (q.entry n) = true

/-- Goes on while the links lead to entries that `P` accepts; it finds the entries in the list and
    stops at the last slot. -/
def Walk (q : Queue) (P : Entry → Bool) (i : Nat) (ns : List Nat) (j : Nat) : Prop :=
  ∃ is, q.arena.Scan (q.Meets P) q.arena.next i is j ∧ is.map q.arena.content = ns.map .entry

inductive Completes (now : Time) : Queue → Option Run → Nat → Queue → Prop
  | done {q : Queue} {run : Option Run} {i : Nat} :
      q.arena.content i ≠ .vacant → (∀ n, q.arena.content i ≠ .entry n) → Completes now q run i q
  | held {q : Queue} {run : Option Run} {i j n : Nat} {ns : List Nat} :
      q.arena.content i = .entry n → q.Walk (·.order = q.order n) i ns j →
      (∃ m ∈ ns, (q.entry m).received = false) → Completes now q run i q
  | granted {q r : Queue} {run : Option Run} {i j n : Nat} {ns : List Nat} :
      q.arena.content i = .entry n → q.Walk (·.order = q.order n) i ns j →
      (∀ m ∈ ns, (q.entry m).received = true) →
      Completes now
        (q.grantAll now (number (Run.offset run (q.order n)) (ns.map q.entry))) none j r →
      Completes now q run i r

def Evaluates (now : Time) (q r : Queue) : Prop :=
  ∃ ns j, q.Walk (·.ready) (q.arena.next Arena.head) ns j ∧
    Completes now q (Run.of none (ns.map q.entry)) j r

variable {q r s : Queue} {P : Entry → Bool} {run : Option Run} {i j k n : Nat} {ms ns : List Nat}
  {c : Cell} {cs us vs : List Cell} {gs hs : List Grant} {now : Time}

theorem Walk.unique (h : q.Walk P i ns j) (h' : q.Walk P i ms k) : ns = ms ∧ j = k := by
  obtain ⟨is, hs, hi⟩ := h
  obtain ⟨js, hs', hj⟩ := h'
  obtain ⟨rfl, rfl⟩ := hs.unique hs'
  refine ⟨List.map_injective_iff.mpr (fun m n e => ?_) (hi.symm.trans hj), rfl⟩
  exact Content.entry.inj e

theorem not_all_received (h : ∃ m ∈ ns, (q.entry m).received = false) :
    ¬ ∀ m ∈ ns, (q.entry m).received = true := by
  obtain ⟨m, hm, hf⟩ := h
  intro hr
  rw [hr m hm] at hf
  cases hf

theorem Completes.unique (h : Completes now q run i r) (h' : Completes now q run i s) : r = s := by
  induction h generalizing s with
  | done _ hn =>
    cases h' with
    | done => rfl
    | held he => exact absurd he (hn _)
    | granted he => exact absurd he (hn _)
  | held he hw hu =>
    cases h' with
    | done _ hn => exact absurd he (hn _)
    | held => rfl
    | granted he' hw' hr =>
      obtain rfl := Content.entry.inj (he.symm.trans he')
      obtain ⟨rfl, -⟩ := hw.unique hw'
      exact absurd hr (not_all_received hu)
  | granted he hw hr _ ih =>
    cases h' with
    | done _ hn => exact absurd he (hn _)
    | held he' hw' hu =>
      obtain rfl := Content.entry.inj (he.symm.trans he')
      obtain ⟨rfl, -⟩ := hw.unique hw'
      exact absurd hr (not_all_received hu)
    | granted he' hw' _ h' =>
      obtain rfl := Content.entry.inj (he.symm.trans he')
      obtain ⟨rfl, rfl⟩ := hw.unique hw'
      exact ih h'

def along (q : Queue) (cs : List Cell) : List Entry := (cs.map Cell.admission).map q.entry

def joins (q : Queue) (c d : Cell) : Bool := (q.entry d.admission).order = q.order c.admission

theorem grantBatches_along (q : Queue) (run : Option Run) (c : Cell) (vs : List Cell) :
    grantBatches run (q.along (c :: vs)) =
      if ∀ m ∈ (c :: vs.takeWhile (q.joins c)).map Cell.admission, (q.entry m).received = true then
        number (Run.offset run (q.order c.admission)) (q.along (c :: vs.takeWhile (q.joins c))) ++
          grantBatches none (q.along (vs.dropWhile (q.joins c)))
      else [] := by
  have hbatch : q.entry c.admission ::
      (q.along vs).takeWhile (·.order = (q.entry c.admission).order) =
      q.along (c :: vs.takeWhile (q.joins c)) := by
    rw [along, List.takeWhile_map, List.takeWhile_map]
    rfl
  have hrest : (q.along vs).dropWhile (·.order = (q.entry c.admission).order) =
      q.along (vs.dropWhile (q.joins c)) := by
    rw [along, List.dropWhile_map, List.dropWhile_map]
    rfl
  have hcons : q.along (c :: vs) = q.entry c.admission :: q.along vs := rfl
  rw [hcons, grantBatches, hbatch, hrest]
  refine if_congr ?_ rfl rfl
  rw [along, List.all_map, List.all_eq_true]
  rfl

theorem grantAll_append :
    q.grantAll now (gs ++ hs) = (q.grantAll now gs).grantAll now hs := List.foldl_append

namespace Holds

theorem walk (h : q.Holds (us ++ vs)) (P : Entry → Bool) :
    q.Walk P (Arena.firstSlot vs)
      ((vs.takeWhile fun c => P (q.entry c.admission)).map Cell.admission)
      (Arena.firstSlot (vs.dropWhile fun c => P (q.entry c.admission))) := by
  let p (c : Cell) : Bool := P (q.entry c.admission)
  have hsplit := List.takeWhile_append_dropWhile (p := p) (l := vs)
  have filled {c} (hc : c ∈ vs) : q.arena.content c.slot = .entry c.admission :=
    h.line.filled c (List.mem_append_right us hc)
  have hline : q.arena.Line (us ++ vs.takeWhile p ++ vs.dropWhile p) := by
    rw [List.append_assoc, hsplit]
    exact h.line
  have hgo : ∀ c ∈ vs.takeWhile p, q.Meets P c.slot := fun c hc =>
    ⟨_, filled ((List.takeWhile_sublist p).subset hc), List.mem_takeWhile_imp (p := p) hc⟩
  have hstop : ¬ q.Meets P (Arena.firstSlot (vs.dropWhile p)) := by
    rintro ⟨n, hn, hp⟩
    cases hd : vs.dropWhile p with
    | nil =>
      rw [hd, Arena.firstSlot, List.map_nil, List.headD_nil, h.line.tailed] at hn
      cases hn
    | cons c cs =>
      have hc : c ∈ vs := (List.dropWhile_sublist p).subset (hd ▸ List.mem_cons_self ..)
      have hf : Arena.firstSlot (c :: cs) = c.slot := rfl
      rw [hd, hf, filled hc] at hn
      cases hn
      have hneg := List.head_dropWhile_not p (l := vs) (by simp [hd])
      simp only [hd, List.head_cons] at hneg
      simp [p, hp] at hneg
  have hscan := hline.scanOn hgo hstop
  rw [hsplit] at hscan
  refine ⟨_, hscan, ?_⟩
  rw [List.map_map, List.map_map]
  exact List.map_congr_left fun c hc => filled ((List.takeWhile_sublist p).subset hc)

theorem along_apart (h : q.Holds (us ++ cs ++ vs)) (k : Nat) :
    (q.grantAll now (number k (q.along cs))).along vs = q.along vs := by
  have hadm : (number k (q.along cs)).map (·.admission) = cs.map Cell.admission := by
    rw [Readiness.number_admissions, along, List.map_map, List.map_map]
    exact List.map_congr_left fun c hc => h.numbered _ (h.known c (by simp [hc]))
  have hd := h.admission_nodup
  rw [List.map_append, List.map_append, List.append_assoc] at hd
  have hne := (List.nodup_append.mp (List.nodup_append.mp hd).2.1).2.2
  refine List.map_congr_left fun m hv => entry_grantAll_of_notMem (fun g hg => ?_) fun hm => ?_
  · obtain ⟨c, hc, e⟩ := List.mem_map.mp (hadm ▸ List.mem_map_of_mem hg)
    exact e ▸ h.known c (by simp [hc])
  · rw [hadm] at hm
    exact hne m hm m hv rfl

theorem walk_batch (h : q.Holds (us ++ c :: vs)) :
    q.Walk (·.order = q.order c.admission) c.slot
      ((c :: vs.takeWhile (q.joins c)).map Cell.admission)
      (Arena.firstSlot (vs.dropWhile (q.joins c))) := by
  have hc : q.joins c c = true := decide_eq_true rfl
  have hw := h.walk (·.order = q.order c.admission)
  change q.Walk _ c.slot (((c :: vs).takeWhile (q.joins c)).map Cell.admission)
    (Arena.firstSlot ((c :: vs).dropWhile (q.joins c))) at hw
  rwa [List.takeWhile_cons_of_pos hc, List.dropWhile_cons_of_pos hc] at hw

theorem completes (h : q.Holds (us ++ vs)) (run : Option Run) :
    Completes now q run (Arena.firstSlot vs)
      (q.grantAll now (grantBatches run (q.along vs))) := by
  -- on the number of the cells ahead: each round leaves a whole batch behind
  induction hk : vs.length using Nat.strong_induction_on generalizing q run us vs with
  | h k ih =>
    cases vs with
    | nil =>
      have ht : q.arena.content (Arena.firstSlot []) = .tail := h.line.tailed
      rw [along, List.map_nil, List.map_nil, grantBatches]
      exact .done (by simp [ht]) (by simp [ht])
    | cons c vs =>
      have hfirst : Arena.firstSlot (c :: vs) = c.slot := rfl
      have hc : q.arena.content c.slot = .entry c.admission := h.line.filled c (by simp)
      rw [hfirst, grantBatches_along]
      split
      next hall =>
        have hline : us ++ c :: vs =
            us ++ (c :: vs.takeWhile (q.joins c)) ++ vs.dropWhile (q.joins c) := by simp
        have hq := h
        rw [hline] at hq
        have hlt : (vs.dropWhile (q.joins c)).length < k := by
          have := (List.dropWhile_sublist (q.joins c) (l := vs)).length_le
          simp at hk
          omega
        have hmarked : (q.grantAll now (number (Run.offset run (q.order c.admission))
            (q.along (c :: vs.takeWhile (q.joins c))))).Holds _ := hq.grantAll
        have hnext := ih _ hlt hmarked none rfl
        rw [hq.along_apart] at hnext
        rw [grantAll_append]
        exact .granted hc h.walk_batch hall hnext
      next hall =>
        push Not at hall
        obtain ⟨m, hm, hu⟩ := hall
        exact .held hc h.walk_batch ⟨m, hm, by simpa using hu⟩

end Holds

theorem Holds.evaluates_iff (h : q.Holds cs) : Evaluates now q r ↔ r = q.grantReady now := by
  let p (c : Cell) : Bool := (q.entry c.admission).ready
  have hall : q.Holds ([] ++ cs) := h
  have hw : q.Walk (·.ready) (q.arena.next Arena.head) ((cs.takeWhile p).map Cell.admission)
      (Arena.firstSlot (cs.dropWhile p)) := by
    rw [h.line.next_head]
    exact hall.walk _
  have hq : q.Holds (cs.takeWhile p ++ cs.dropWhile p) := by
    rw [List.takeWhile_append_dropWhile]
    exact h
  have hc : Completes now q _ _ _ := hq.completes (Run.of none (q.along (cs.takeWhile p)))
  have hgrants : grants q.toList =
      grantBatches (Run.of none (q.along (cs.takeWhile p))) (q.along (cs.dropWhile p)) := by
    change grantBatches (passReady none q.toList).1 (passReady none q.toList).2 = _
    have hl : q.toList = q.along cs := congrArg (·.map q.entry) h.line_eq
    rw [passReady_fst, passReady_snd, hl, along, List.takeWhile_map, List.takeWhile_map,
      List.dropWhile_map, List.dropWhile_map]
    rfl
  rw [← hgrants, ← grantReady_eq] at hc
  constructor
  · rintro ⟨ns, j, hw', hc'⟩
    obtain ⟨rfl, rfl⟩ := hw.unique hw'
    exact hc'.unique hc
  · rintro rfl
    exact ⟨_, _, hw, hc⟩

end Queue

end Multiversion
