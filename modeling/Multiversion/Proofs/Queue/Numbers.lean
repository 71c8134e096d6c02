import Mathlib
import Multiversion.Proofs.Queue.Exact

/-!
Sub-versions. A grant numbers a batch from what its ready members at the head of the line have
taken, so the numbers of a batch stay apart as long as no entry joins it ahead of them or after one
of them has left.
-/

namespace Multiversion

namespace Readiness

variable {es : List Entry} {e : Entry} {g : Grant} {run : Option Run} {k order : Nat}

theorem offset_extend (hr : ∀ r ∈ run, r.order ≤ order) (hk : order ≤ k) :
    Run.offset (some (Run.extend run order)) k =
      Run.offset run k + if order = k then 1 else 0 := by
  cases run with
  | none =>
    by_cases ho : order = k <;> simp [Run.extend, Run.offset, ho]
  | some r =>
    have hr := hr r rfl
    by_cases ho : r.order = order
    · by_cases hk' : order = k <;> simp [Run.extend, Run.offset, ho, hk']
    · have hrk : r.order ≠ k := by omega
      by_cases hk' : order = k <;> simp [Run.extend, Run.offset, ho, hk', hrk]

theorem order_extend : (Run.extend run order).order = order := by
  unfold Run.extend
  split
  · split <;> rfl
  · rfl

theorem run_le_of_passReady (hs : es.Pairwise (·.order ≤ ·.order))
    (hr : ∀ r ∈ run, ∀ e ∈ es, r.order ≤ e.order) :
    ∀ r ∈ (passReady run es).1, ∀ e ∈ (passReady run es).2, r.order ≤ e.order := by
  induction es generalizing run with
  | nil => exact fun _ _ e he => absurd he List.not_mem_nil
  | cons d es ih =>
    obtain ⟨hd, hs⟩ := List.pairwise_cons.mp hs
    cases hu : d.ready with
    | false =>
      simp only [passReady, hu, Bool.false_eq_true, if_false]
      exact hr
    | true =>
      simp only [passReady, hu, if_true]
      refine ih hs ?_
      rintro _ ⟨⟩ e he
      rw [order_extend]
      exact hd e he

theorem offset_passReady (hs : es.Pairwise (·.order ≤ ·.order))
    (hr : ∀ r ∈ run, ∀ e ∈ es, r.order ≤ e.order) (he : e ∈ (passReady run es).2) :
    Run.offset (passReady run es).1 e.order =
      Run.offset run e.order + (es.takeWhile (·.ready)).countP (·.order = e.order) := by
  induction es generalizing run with
  | nil => exact absurd he List.not_mem_nil
  | cons d es ih =>
    obtain ⟨hd, hs⟩ := List.pairwise_cons.mp hs
    cases hu : d.ready with
    | false => simp [passReady, hu]
    | true =>
      simp only [passReady, hu, if_true] at he ⊢
      have hde : d.order ≤ e.order := by
        rw [passReady_snd] at he
        exact hd e ((List.dropWhile_sublist _).subset he)
      have hrun : ∀ r ∈ some (Run.extend run d.order), ∀ e ∈ es, r.order ≤ e.order := by
        rintro _ ⟨⟩ e he
        rw [order_extend]
        exact hd e he
      rw [ih hs hrun he, offset_extend (fun r hm => hr r hm d (by simp)) hde]
      simp [hu, List.countP_cons]
      omega

theorem mem_number_bounds {offset : Nat} (h : g ∈ number offset es) :
    ∃ e ∈ es, e.admission = g.admission ∧ offset ≤ g.sub ∧ g.sub < offset + es.length := by
  induction es generalizing offset with
  | nil => simp [number] at h
  | cons d es ih =>
    rw [number_cons, List.mem_cons] at h
    rcases h with rfl | h
    · exact ⟨d, by simp, rfl, Nat.le_refl _, by simp⟩
    · obtain ⟨e, he, ha, h1, h2⟩ := ih h
      refine ⟨e, by simp [he], ha, by omega, ?_⟩
      rw [List.length_cons]
      omega

theorem mem_grantBatches_bounds (hs : es.Pairwise (·.order ≤ ·.order))
    (hr : ∀ r ∈ run, ∀ e ∈ es, r.order ≤ e.order) (hg : g ∈ grantBatches run es) :
    ∃ e ∈ es, e.admission = g.admission ∧ Run.offset run e.order ≤ g.sub ∧
      g.sub < Run.offset run e.order + es.countP (·.order = e.order) := by
  induction run, es using grantBatches.induct with
  | case1 => simp [grantBatches] at hg
  | case2 run e es batch hall ih =>
    have hsplit : e :: es = batch ++ es.dropWhile (·.order = e.order) := cons_eq_batch_append e es
    rw [grantBatches, if_pos hall, List.mem_append] at hg
    rcases hg with hg | hg
    · have hg : g ∈ number (Run.offset run e.order) batch := hg
      obtain ⟨f, hf, ha, h1, h2⟩ := mem_number_bounds hg
      have ho : f.order = e.order := order_of_mem_batch hf
      have hlen : batch.length ≤ (e :: es).countP (·.order = e.order) := by
        have hb : batch.countP (·.order = e.order) = batch.length :=
          List.countP_eq_length.mpr fun d hd => decide_eq_true (order_of_mem_batch hd)
        have hsub : batch.Sublist (e :: es) := hsplit ▸ List.sublist_append_left _ _
        rw [← hb]
        exact hsub.countP_le
      refine ⟨f, hsplit ▸ List.mem_append_left _ hf, ha, ?_, ?_⟩
      · rwa [ho]
      · rw [ho]
        omega
    · have hsub : (es.dropWhile (·.order = e.order)).Sublist (e :: es) :=
        hsplit ▸ List.sublist_append_right _ _
      obtain ⟨f, hf, ha, -, h2⟩ := ih (hs.sublist hsub) (by simp) hg
      have hlt := lt_of_mem_dropWhile hs hf
      have hzero : Run.offset run f.order = 0 := by
        cases run with
        | none => rfl
        | some r =>
          have hre := hr r rfl e (by simp)
          exact if_neg (by omega)
      refine ⟨f, hsub.subset hf, ha, by omega, ?_⟩
      rw [hzero]
      exact h2.trans_le (Nat.add_le_add_left hsub.countP_le 0)
  | case3 run e es batch hall =>
    rw [grantBatches, if_neg hall] at hg
    cases hg

theorem mem_grants_bounds (hs : es.Pairwise (·.order ≤ ·.order)) (hg : g ∈ grants es) :
    ∃ e ∈ es, e.admission = g.admission ∧
      (es.takeWhile (·.ready)).countP (·.order = e.order) ≤ g.sub ∧
      g.sub < es.countP (·.order = e.order) := by
  have hr : ∀ r ∈ (none : Option Run), ∀ e ∈ es, r.order ≤ e.order := by simp
  change g ∈ grantBatches (passReady none es).1 (passReady none es).2 at hg
  have hrest : (passReady none es).2.Pairwise (·.order ≤ ·.order) := by
    rw [passReady_snd]
    exact sorted_dropWhile hs
  obtain ⟨e, he, ha, h1, h2⟩ := mem_grantBatches_bounds hrest (run_le_of_passReady hs hr) hg
  rw [offset_passReady hs hr he] at h1 h2
  rw [passReady_snd] at he h2
  refine ⟨e, (List.dropWhile_sublist _).subset he, ha, ?_, ?_⟩
  · simpa [Run.offset] using h1
  · have hcount : es.countP (·.order = e.order) = _ :=
      congrArg _ (List.takeWhile_append_dropWhile (p := (·.ready)) (l := es)).symm
    rw [List.countP_append] at hcount
    simp only [Run.offset] at h2
    omega

end Readiness

namespace Queue

variable {q r : Queue} {v : Version} {e : Entry} {k m n order : Nat} {now : Time}

def readyCount (q : Queue) (k : Nat) : Nat :=
  q.line.countP fun n => (q.entry n).ready && q.order n = k

structure Numbered (q : Queue) : Prop where
  above : ∀ m, (q.entry m).ready = true → ∀ n ∈ q.line, (q.entry n).received = false →
    q.order m < q.order n
  ascending : ∀ m n, (q.entry m).ready = true → (q.entry n).ready = true →
    q.order m = q.order n → m < n → (q.entry m).sub < (q.entry n).sub
  -- a batch that no ready entry has left is numbered without gaps
  bounded : ∀ k, (∀ m, (q.entry m).ready = true → q.order m = k → m ∈ q.line) →
    ∀ m, (q.entry m).ready = true → q.order m = k → (q.entry m).sub < q.readyCount k

/-- What is granted joins its batch behind all of the ready members, with nothing unready between.
    -/
def Joins (q : Queue) : Prop :=
  ∀ m, (q.entry m).ready = true → ∀ n ∈ q.line, (q.entry n).ready = false →
    q.order m = q.order n →
      m ∈ q.line ∧ m < n ∧ ∀ k ∈ q.line, Before q.order k n → (q.entry k).ready = true

theorem Valid.sub_grantReady (h : q.Valid)
    (hr : ∀ n ∈ q.line, (q.entry n).ready = true → (q.entry n).received = true)
    (hn : n ∈ q.line) (hu : (q.entry n).ready = false) (hd : q.Decided n) :
    q.readyPrefix.countP (q.order · = q.order n) ≤ ((q.grantReady now).entry n).sub ∧
    ((q.grantReady now).entry n).sub < q.line.countP (q.order · = q.order n) := by
  obtain ⟨g, hg, rfl⟩ := List.mem_map.mp (mem_grants h hr hn hd hu)
  rw [grantReady_eq, entry_grantAll_of_mem (fun _ => known_of_mem_grants h hr)
    (h.nodup.sublist (grants_sublist h hr)) hg, Entry.sub_markReady hu]
  obtain ⟨e, he, ha, h1, h2⟩ := Readiness.mem_grants_bounds h.toList_sorted hg
  obtain ⟨k, hk, rfl⟩ := List.mem_map.mp he
  rw [h.admission_eq (h.known hk)] at ha
  subst ha
  rw [toList, List.takeWhile_map, List.countP_map] at h1
  rw [toList, List.countP_map] at h2
  exact ⟨h1, h2⟩

namespace Numbered

theorem empty {tracking : Bool} : Numbered { tracking } := by
  have unready (m) : (Queue.entry { tracking } m).ready = false := by
    rw [entry_of_le (Nat.zero_le m)]
    rfl
  refine ⟨fun m hm => ?_, fun m _ hm => ?_, fun _ _ m hm => ?_⟩
  all_goals
    rw [unready] at hm
    cases hm

variable (h : q.Numbered)
include h

theorem of_keep (hd : q.line.Nodup)
    (hk : ∀ m, (r.entry m).ready = true → (q.entry m).ready = true)
    (hs : ∀ m, (q.entry m).ready = true → (r.entry m).ready = true ∧
      r.order m = q.order m ∧ (r.entry m).sub = (q.entry m).sub)
    (hl : ∀ m ∈ r.line, (r.entry m).ready = true → m ∈ q.line)
    (ha : ∀ m, (r.entry m).ready = true → ∀ n ∈ r.line, (r.entry n).received = false →
      r.order m < r.order n) : r.Numbered := by
  refine ⟨ha, ?_, ?_⟩
  · intro m n hm hn ho hlt
    obtain ⟨-, hmo, hms⟩ := hs m (hk m hm)
    obtain ⟨-, hno, hns⟩ := hs n (hk n hn)
    rw [hmo, hno] at ho
    rw [hms, hns]
    exact h.ascending m n (hk m hm) (hk n hn) ho hlt
  · intro k hall m hm ho
    have hin (m) (hm : (q.entry m).ready = true) (ho : q.order m = k) : m ∈ r.line := by
      obtain ⟨hmr, hmo, -⟩ := hs m hm
      exact hall m hmr (hmo.trans ho)
    have hq (m) (hm : (q.entry m).ready = true) (ho : q.order m = k) : m ∈ q.line :=
      hl m (hin m hm ho) (hs m hm).1
    obtain ⟨-, hmo, hms⟩ := hs m (hk m hm)
    rw [hms]
    refine (h.bounded k hq m (hk m hm) (hmo ▸ ho)).trans_le (countP_le_countP hd ?_)
    intro x hx hp
    simp only [Bool.and_eq_true, decide_eq_true_eq] at hp ⊢
    obtain ⟨hxr, hxo, -⟩ := hs x hp.1
    exact ⟨hin x hp.1 hp.2, hxr, hxo.trans hp.2⟩

theorem removed (hd : q.line.Nodup) (hr : q.Removed n r) : r.Numbered := by
  have ready (m) : (r.entry m).ready = (q.entry m).ready := hr.keeps Entry.ready fun _ => rfl
  have order (m) : r.order m = q.order m := hr.keeps Entry.order fun _ => rfl
  refine h.of_keep hd (fun m hm => ready m ▸ hm) ?_ (fun m hm _ => ((hr.line m).mp hm).1) ?_
  · intro m hm
    exact ⟨(ready m).trans hm, order m, hr.keeps Entry.sub fun _ => rfl⟩
  · intro m hm k hk hu
    rw [order, order]
    rw [hr.keeps Entry.received fun _ => rfl] at hu
    exact h.above m (ready m ▸ hm) k ((hr.line k).mp hk).1 hu

theorem enqueued (hv : q.Valid) (hr : q.Enqueued e r) (hu : e.ready = false)
    (ho : ∀ m, (q.entry m).ready = true → q.order m < e.order) : r.Numbered := by
  refine h.of_keep hv.nodup (fun m hm => (hr.of_ready hu hm).1) ?_ ?_ ?_
  · intro m hm
    rw [Queue.order, hr.kept m (lt_of_ready hm), Queue.order]
    exact ⟨hm, rfl, rfl⟩
  · intro m hm hmr
    refine ((hr.line m).mp hm).resolve_left ?_
    rintro rfl
    exact Nat.lt_irrefl _ (lt_of_ready (hr.of_ready hu hmr).1)
  · intro m hm k hk hku
    obtain ⟨hm, he⟩ := hr.of_ready hu hm
    rw [Queue.order, he]
    rcases (hr.line k).mp hk with rfl | hk
    · rw [Queue.order, hr.fresh]
      exact ho m hm
    · rw [hr.kept_line hv hk] at hku
      rw [Queue.order, hr.kept_line hv hk]
      exact h.above m hm k hk hku

theorem received (hd : q.line.Nodup) (hr : q.Received n v order now r)
    (hu : (q.entry n).ready = false) : r.Numbered := by
  refine h.of_keep hd (fun m hm => (hr.of_ready hu hm).2.1) ?_
    (fun m hm _ => (hr.line m).mp hm) ?_
  · intro m hm
    have hmn : m ≠ n := by
      rintro rfl
      rw [hu] at hm
      cases hm
    rw [Queue.order, hr.kept m hmn, Queue.order]
    exact ⟨hm, rfl, rfl⟩
  · intro m hm k hk hku
    obtain ⟨-, hm, he⟩ := hr.of_ready hu hm
    have hkn : k ≠ n := by
      rintro rfl
      rw [hr.settled] at hku
      cases hku
    rw [hr.kept k hkn] at hku
    rw [Queue.order, Queue.order, he, hr.kept k hkn]
    exact h.above m hm k ((hr.line k).mp hk) hku

theorem detached (hd : q.line.Nodup) (hr : q.Detached r) : r.Numbered := by
  have hsub : r.line ⊆ q.line := hr.line ▸ (List.dropWhile_sublist _).subset
  refine h.of_keep hd (fun m hm => hr.kept m ▸ hm) ?_ (fun m hm _ => hsub hm) ?_
  · intro m hm
    rw [Queue.order, hr.kept, Queue.order]
    exact ⟨hm, rfl, rfl⟩
  · intro m hm k hk hu
    rw [Queue.order, Queue.order, hr.kept, hr.kept]
    rw [hr.kept] at hm hu
    exact h.above m hm k (hsub hk) hu

theorem update {f : Entry → Entry} (hd : q.line.Nodup) (ho : ∀ e, (f e).order = e.order)
    (hr : ∀ e, (f e).ready = e.ready) (hc : ∀ e, (f e).received = e.received)
    (hs : ∀ e, (f e).sub = e.sub) : (q.update n f).Numbered := by
  refine h.of_keep hd (fun m => ?_) (fun m => ?_) (fun m hm _ => hm) fun m => ?_
  · rw [update_keeps Entry.ready hr]
    exact id
  · rw [update_keeps Entry.ready hr, update_keeps Entry.sub hs, Queue.order,
      update_keeps Entry.order ho]
    exact fun hm => ⟨hm, rfl, rfl⟩
  · simp only [Queue.order, update_keeps Entry.ready hr, update_keeps Entry.received hc,
      update_keeps Entry.order ho]
    exact h.above m

section Grant

variable (hv : q.Valid) (hs : q.Sound)
include hv hs

omit h in
theorem ready_grantReady_cases (hm : ((q.grantReady now).entry m).ready = true) :
    (q.entry m).ready = true ∨ m ∈ q.line ∧ (q.entry m).ready = false ∧ q.Decided m := by
  have hr (n) (hn : n ∈ q.line) : (q.entry n).ready = true → (q.entry n).received = true :=
    hs.received hn
  by_cases hu : (q.entry m).ready = true
  · exact .inl hu
  · have hl : m ∈ q.line := by
      by_contra hl
      rw [entry_grantReady_of_notMem hv hr hl] at hm
      exact hu hm
    exact .inr ⟨hl, by simpa using hu, ((ready_grantReady hv hr hl).mp hm).resolve_left hu⟩

theorem above_grantReady (hm : ((q.grantReady now).entry m).ready = true) (hn : n ∈ q.line)
    (hu : (q.entry n).received = false) : q.order m < q.order n := by
  rcases ready_grantReady_cases hv hs hm with hm | ⟨-, -, hd⟩
  · exact h.above m hm n hn hu
  · by_contra hle
    rw [hd n hn (Nat.not_lt.mp hle)] at hu
    cases hu

theorem sub_lt_of_joins (hj : q.Joins) (hm : (q.entry m).ready = true) (hn : n ∈ q.line)
    (hu : (q.entry n).ready = false) (hd : q.Decided n) (ho : q.order m = q.order n) :
    (q.entry m).sub < ((q.grantReady now).entry n).sub := by
  have hr (n) (hn : n ∈ q.line) : (q.entry n).ready = true → (q.entry n).received = true :=
    hs.received hn
  have hin (k) (hk : (q.entry k).ready = true) (hko : q.order k = q.order n) : k ∈ q.line :=
    (hj k hk n hn hu hko).1
  have hbefore := (hj m hm n hn hu ho).2.2
  have hcount : q.readyCount (q.order n) ≤ q.readyPrefix.countP (q.order · = q.order n) := by
    refine countP_le_countP hv.nodup fun x hx hp => ?_
    simp only [Bool.and_eq_true, decide_eq_true_eq] at hp ⊢
    have hxn : Before q.order x n := .inr ⟨hp.2, (hj x hp.1 n hn hu hp.2).2.1⟩
    refine ⟨mem_takeWhile_of_pairwise hv.sorted hx hp.1 fun k hk hkx => ?_, hp.2⟩
    exact hbefore k hk (hkx.trans hxn)
  exact (h.bounded _ hin m hm ho).trans_le (hcount.trans (hv.sub_grantReady hr hn hu hd).1)

theorem ascending_grantReady (hj : q.Joins) (hm : ((q.grantReady now).entry m).ready = true)
    (hn : ((q.grantReady now).entry n).ready = true) (ho : q.order m = q.order n) (hlt : m < n) :
    ((q.grantReady now).entry m).sub < ((q.grantReady now).entry n).sub := by
  have hr (n) (hn : n ∈ q.line) : (q.entry n).ready = true → (q.entry n).received = true :=
    hs.received hn
  rcases ready_grantReady_cases hv hs hm with hmr | ⟨hml, hmu, hmd⟩
  · rw [entry_grantReady_of_ready hv hr hmr]
    rcases ready_grantReady_cases hv hs hn with hnr | ⟨hnl, hnu, hnd⟩
    · rw [entry_grantReady_of_ready hv hr hnr]
      exact h.ascending m n hmr hnr ho hlt
    · exact h.sub_lt_of_joins hv hs hj hmr hnl hnu hnd ho
  · rcases ready_grantReady_cases hv hs hn with hnr | ⟨hnl, hnu, hnd⟩
    · exact absurd (hj n hnr m hml hmu ho.symm).2.1 hlt.asymm
    · exact sub_lt_sub_grantReady hv hr hml hnl hmu hnu hmd hnd ho hlt

theorem bounded_grantReady
    (hall : ∀ m, ((q.grantReady now).entry m).ready = true → q.order m = k → m ∈ q.line)
    (hm : ((q.grantReady now).entry m).ready = true) (ho : q.order m = k) :
    ((q.grantReady now).entry m).sub < (q.grantReady now).readyCount k := by
  have hr (n) (hn : n ∈ q.line) : (q.entry n).ready = true → (q.entry n).received = true :=
    hs.received hn
  have old {m} (hm : (q.entry m).ready = true) : (q.grantReady now).entry m = q.entry m :=
    entry_grantReady_of_ready hv hr hm
  rcases ready_grantReady_cases hv hs hm with hmr | ⟨hml, hmu, hmd⟩
  · rw [old hmr]
    refine (h.bounded k (fun x hx => hall x ((old hx).symm ▸ hx)) m hmr ho).trans_le
      (countP_le_countP hv.nodup fun x hx hp => ?_)
    simp only [Bool.and_eq_true, decide_eq_true_eq, line_grantReady, order_grantReady] at hp ⊢
    rw [old hp.1]
    exact ⟨hx, hp⟩
  · refine (hv.sub_grantReady hr hml hmu hmd).2.trans_le
      (countP_le_countP hv.nodup fun x hx hp => ?_)
    simp only [Bool.and_eq_true, decide_eq_true_eq, line_grantReady, order_grantReady] at hp ⊢
    exact ⟨hx, (ready_grantReady hv hr hx).mpr (.inr (hmd.of_le hp.le)), hp.trans ho⟩

theorem grantReady (hj : q.Joins) : (q.grantReady now).Numbered := by
  refine ⟨?_, ?_, ?_⟩
  · intro m hm n hn hu
    rw [line_grantReady] at hn
    rw [grantReady_keeps Entry.received fun _ _ => Entry.received_markReady] at hu
    rw [order_grantReady]
    exact h.above_grantReady hv hs hm hn hu
  · intro m n hm hn ho
    rw [order_grantReady] at ho
    exact h.ascending_grantReady hv hs hj hm hn ho
  · intro k hall m hm ho
    rw [order_grantReady] at ho hall
    rw [line_grantReady] at hall
    exact h.bounded_grantReady hv hs hall hm ho

end Grant

end Numbered

def Apart (q : Queue) : Prop :=
  ∀ m, (q.entry m).ready = true → ∀ n ∈ q.line, (q.entry n).ready = false → q.order m < q.order n

theorem Numbered.apart (h : q.Numbered) (hx : q.Exact) : q.Apart := by
  intro m hm n hn hu
  obtain ⟨k, hk, hle, hr⟩ := hx.exists_undecided hn hu
  exact (h.above m hm k hk hr).trans_le hle

theorem Numbered.grantReady_apart (h : q.Numbered) (hv : q.Valid) (hs : q.Sound) (ha : q.Apart) :
    (q.grantReady now).Numbered :=
  h.grantReady hv hs fun m hm n hn hu ho => absurd ho (ha m hm n hn hu).ne

theorem Removed.apart (hr : q.Removed n r) (h : q.Apart) : r.Apart := by
  intro m hm k hk hu
  rw [hr.keeps Entry.ready fun _ => rfl] at hm hu
  rw [Queue.order, Queue.order, hr.keeps Entry.order fun _ => rfl,
    hr.keeps Entry.order fun _ => rfl]
  exact h m hm k ((hr.line k).mp hk).1 hu

theorem Enqueued.apart (hr : q.Enqueued e r) (hv : q.Valid) (hu : e.ready = false)
    (ho : ∀ m, (q.entry m).ready = true → q.order m < e.order) (h : q.Apart) : r.Apart := by
  intro m hm k hk hku
  obtain ⟨hm, he⟩ := hr.of_ready hu hm
  rw [Queue.order, he]
  rcases (hr.line k).mp hk with rfl | hk
  · rw [Queue.order, hr.fresh]
    exact ho m hm
  · rw [hr.kept_line hv hk] at hku
    rw [Queue.order, hr.kept_line hv hk]
    exact h m hm k hk hku

section Calls

variable {g : TransactionId} {tx clock : Nat} (h : q.Numbered) (hv : q.Valid) (hx : q.Exact)
include h hv hx

theorem Numbered.prepare (ho : ∀ m < q.entries.size, q.order m < order) :
    (q.prepare tx g v order clock now).1.Numbered := by
  refine hv.prepare_cases
    (fun r hr => h.enqueued hv hr rfl fun m hm => ho m (lt_of_ready hm)) fun n r s _ hr hs => ?_
  have hro (m) (hm : m < r.entries.size) : r.order m < order := by
    rw [Queue.order, hr.keeps Entry.order fun _ => rfl]
    exact ho m (hr.size ▸ hm)
  have hready (m) (hm : (r.entry m).ready = true) : r.order m < order := hro m (lt_of_ready hm)
  have hss := hs.sound hr.valid (hr.sound hx.sound) rfl fun m hm _ => hro m (hr.valid.known hm)
  exact ((h.removed hv.nodup hr).enqueued hr.valid hs rfl hready).grantReady_apart hs.valid hss
    (hs.apart hr.valid rfl hready (hr.apart (h.apart hx)))

theorem Numbered.rollback : (q.rollback g now).1.Numbered :=
  hv.rollback_cases h fun _ _ _ hr => (h.removed hv.nodup hr).grantReady_apart hr.valid
    (hr.sound hx.sound) (hr.apart (h.apart hx))

theorem Numbered.detach : (q.detach now).1.Numbered := by
  refine hv.detach_cases fun r hr => ?_
  refine (h.detached hv.nodup hr).grantReady_apart hr.valid (hr.sound hx.sound) ?_
  intro m hm k hk hu
  rw [hr.kept] at hm hu
  rw [hr.line] at hk
  rw [Queue.order, Queue.order, hr.kept, hr.kept]
  exact h.apart hx m hm k ((List.dropWhile_sublist _).subset hk) hu

omit h hx in
theorem Valid.commit_settles (v : Version) (order : Nat) (now : Time)
    (hf : q.find? g = some n) :
    ((q.commit g v order now).1.entry n).received = true ∧
    (q.commit g v order now).1.order n = order := by
  obtain ⟨-, r, hr, e⟩ := hv.commit_some v order now hf
  have keeps {α : Type} (φ : Entry → α) (hb : ∀ e : Entry, φ e.holdBack = φ e)
      (hg : ∀ e k, φ (e.markReady k now) = φ e) :
      φ ((q.commit g v order now).1.entry n) = φ ((q.entry n).receive v order now) := by
    rw [e, update_keeps φ hb, grantReady_keeps φ hg, hr.settled]
  constructor
  · exact keeps Entry.received (fun _ => Entry.holdBack_keeps _ fun _ => rfl)
      fun _ _ => Entry.received_markReady
  · exact keeps Entry.order (fun _ => Entry.holdBack_keeps _ fun _ => rfl)
      fun _ _ => Entry.order_markReady

theorem Numbered.commit (hf : q.find? g = some n) (hu : (q.entry n).received = false)
    (hb : ∀ m, (q.entry m).ready = true → q.order m = order → m ∈ q.line ∧ m < n) :
    (q.commit g v order now).1.Numbered := by
  obtain ⟨-, r, hr, e⟩ := hv.commit_some v order now hf
  have hn := (hv.find?_eq_some_iff.mp hf).1
  have hun := hx.sound.unready hn hu
  have hrn := h.received hv.nodup hr hun
  rw [e]
  refine Numbered.update ?_ ?_ (fun _ => Entry.holdBack_keeps _ fun _ => rfl)
    (fun _ => Entry.holdBack_keeps _ fun _ => rfl) (fun _ => Entry.holdBack_keeps _ fun _ => rfl)
    fun _ => Entry.holdBack_keeps _ fun _ => rfl
  · refine hrn.grantReady hr.valid (hr.sound hx.sound (by simp [hun])) ?_
    intro m hm k hk hku ho
    obtain ⟨hmn, hm, he⟩ := hr.of_ready hun hm
    -- apart from the newcomer, what is unready lies above the ready batch
    have far {j} (hj : j ∈ r.line) (hjn : j ≠ n) (hju : (r.entry j).ready = false) :
        r.order m < r.order j := by
      rw [hr.kept j hjn] at hju
      rw [Queue.order, Queue.order, he, hr.kept j hjn]
      exact h.apart hx m hm j ((hr.line j).mp hj) hju
    obtain rfl : k = n := by
      by_contra hkn
      exact absurd ho (far hk hkn hku).ne
    have hro : r.order k = order := by
      rw [Queue.order, hr.settled]
      rfl
    have hmo : q.order m = order := by
      rw [← hro, ← ho, Queue.order, Queue.order, he]
    obtain ⟨hml, hlt⟩ := hb m hm hmo
    refine ⟨(hr.line m).mpr hml, hlt, fun j hj hjk => ?_⟩
    by_contra hju
    have hjn : j ≠ k := by
      rintro rfl
      exact hjk.asymm hjk
    have := far hj hjn (by simpa using hju)
    have := hjk.order_le
    omega
  · exact hr.valid.grantReady.nodup

end Calls

end Queue

end Multiversion
