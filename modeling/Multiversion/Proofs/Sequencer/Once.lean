import Mathlib
import Multiversion.Proofs.Sequencer.Turns

namespace Multiversion

open Relation (ReflTransGen)

namespace Crew

variable {c x y : Crew} {p : Position} {log : CommitLog} {tracking : Bool} {drains n : Nat}
  {before behind : List Drain} {d e : Drain} {now : Time}

theorem keeping_start : (start p log tracking drains).Keeping := by
  have idle {d} (hd : d ∈ (start p log tracking drains).drains) : d = .idle :=
    List.eq_of_mem_replicate hd
  have none {φ : Drain → List Nat} (hφ : φ .idle = []) :
      (start p log tracking drains).drains.flatMap φ = [] := by
    refine List.flatMap_eq_nil_iff.mpr fun d hd => ?_
    rw [idle hd, hφ]
  have he (n) : (start p log tracking drains).queue.entry n = default :=
    Queue.entry_of_le (Nat.zero_le n)
  refine ⟨.onLog, Queue.tidy_empty, ⟨fun n => ?_, fun n => ?_, fun n => ?_⟩, fun d hd n hn => ?_,
    fun n hn => ?_, fun d hd us n vs hl => ?_, .inr fun n hn => absurd hn List.not_mem_nil⟩
  · rw [none rfl, he]
    rfl
  · rw [none rfl, he]
    rfl
  · rw [none rfl, he]
    rfl
  · rw [idle hd] at hn
    exact absurd hn List.not_mem_nil
  · rw [he] at hn
    cases hn
  · rw [idle hd] at hl
    exact absurd hl (by simp [Drain.listed])

theorem Turn.leave (h : Turn x y) (hx : x.Keeping) (hn : n ∈ x.queue.line)
    (hl : n ∉ y.queue.line) : (x.queue.entry n).committed = true ∨
      ∃ now, y = { x with sequencer := (x.sequencer.rollback (x.queue.entry n).id now).1 } := by
  have hv := hx.exact.valid
  cases h with
  | prepare tx now ht hf =>
    rw [queue, Sequencer.queue_prepare ht] at hl
    exact absurd (hv.mem_prepare hn hf) hl
  | raise v => exact absurd hn hl
  | settle g v now hv' hu =>
    rw [queue, Sequencer.queue_settle hv] at hl
    exact absurd (hv.mem_commit hn) hl
  | rollback g now hu =>
    rw [queue, Sequencer.queue_rollback hv] at hl
    obtain ⟨-, rfl⟩ := hv.id_of_notMem_rollback hn hl
    exact .inr ⟨now, rfl⟩
  | transactions ts live => exact absurd hn hl
  | drain d h hd =>
    cases h with
    | detach before behind now hc => exact .inl (hv.committed_of_notMem_detach hn hl)
    | list | claim | giveUp | win | record | finish | apply | insert | mark => exact absurd hn hl
    | _ => exact absurd rfl hd

namespace Drain

theorem count_applied_le : ∀ d : Drain, d.applied.count n ≤ d.won.count n
  | .idle | .claiming .. | .recording .. => Nat.zero_le _
  | .applying done todo => by simp [applied, won]
  | .marking _ => Nat.le_refl _

theorem count_inserted_le : ∀ d : Drain, d.inserted.count n ≤ d.applied.count n
  | .idle | .claiming .. | .recording .. | .applying .. => Nat.zero_le _
  | .marking _ => Nat.le_refl _

theorem count_flatMap_le {φ ψ : Drain → List Nat} (h : ∀ d, (φ d).count n ≤ (ψ d).count n)
    (ds : List Drain) : (ds.flatMap φ).count n ≤ (ds.flatMap ψ).count n := by
  induction ds with
  | nil => exact Nat.le_refl _
  | cons d ds ih =>
    simp only [List.flatMap_cons, List.count_append]
    exact Nat.add_le_add (h d) ih

end Drain

namespace Keeping

variable (h : c.Keeping)
include h

theorem stored_le : (c.stored.map (·.entry)).count n ≤ (c.queue.entry n).claimed.toNat := by
  have hle := Drain.count_flatMap_le (n := n) Drain.count_applied_le c.drains
  have hw := h.ledger.won n
  have hs := h.ledger.stored n
  omega

theorem logged_le : (c.logged.map (·.entry)).count n ≤ (c.stored.map (·.entry)).count n := by
  have hle := Drain.count_flatMap_le (n := n) Drain.count_inserted_le c.drains
  have hs := h.ledger.stored n
  have hl := h.ledger.logged n
  omega

theorem once : (c.stored.map (·.entry)).count n ≤ 1 ∧ (c.logged.map (·.entry)).count n ≤ 1 := by
  have hs := h.stored_le (n := n)
  have hl := h.logged_le (n := n)
  have hb := Bool.toNat_le (c.queue.entry n).claimed
  omega

theorem once_of_committed (hc : (c.queue.entry n).committed = true) :
    (c.stored.map (·.entry)).count n = 1 ∧ (c.logged.map (·.entry)).count n = 1 := by
  obtain ⟨hs, hl⟩ := h.once (n := n)
  have hs' := h.ledger.stored n
  have hl' := h.ledger.logged n
  rw [hc, Bool.toNat_true] at hs' hl'
  omega

theorem untouched_of_aborted (ha : (c.queue.entry n).isAborted = true) :
    n ∉ c.stored.map (·.entry) ∧ n ∉ c.logged.map (·.entry) := by
  have hc : (c.queue.entry n).claimed = false := by
    by_contra hc
    have hf := (h.claimed n (Bool.eq_true_of_not_eq_false hc)).1.2
    rw [ha] at hf
    cases hf
  have hs := h.stored_le (n := n)
  have hl := h.logged_le (n := n)
  rw [hc, Bool.toNat_false] at hs
  exact ⟨List.count_eq_zero.mp (by omega), List.count_eq_zero.mp (by omega)⟩

theorem uncommitted_of_idle (hi : ∀ d ∈ c.drains, d = .idle) :
    ∀ n ∈ c.queue.line, (c.queue.entry n).committed = false := by
  have claimed_eq (n) : (c.queue.entry n).committed.toNat = (c.queue.entry n).claimed.toNat := by
    have hw : c.drains.flatMap Drain.won = [] := by
      refine List.flatMap_eq_nil_iff.mpr fun d hd => ?_
      rw [hi d hd]
      rfl
    have := h.ledger.won n
    rwa [hw, List.count_nil, Nat.zero_add] at this
  rcases h.blocked with ⟨d, hd, hm⟩ | hb
  · rw [hi d hd] at hm
    cases hm
  · intro n hn
    by_contra hc
    have hc := Bool.eq_true_of_not_eq_false hc
    obtain ⟨m, hm, hmn, hmc⟩ := hb n hn hc
    have hclear := (h.claimed n (h.ledger.claimed_of_committed hc)).2
    have hcl := (hclear hn m hm hmn).resolve_right List.not_mem_nil
    have := claimed_eq m
    rw [hmc, hcl] at this
    cases this

end Keeping

theorem Turns.keeping (h : Turns x y) (hx : x.Keeping) : y.Keeping := by
  induction h with
  | refl => exact hx
  | tail _ hs ih => exact hs.keeping ih

def Tells (c : Crew) (d : Delivery) : Prop := c.queue.Firm d.entry ∧
  d.record.id = (c.queue.entry d.entry).id ∧ d.record.version = (c.queue.entry d.entry).version ∧
  d.record.sub = (c.queue.entry d.entry).sub

theorem Tells.follow {d : Delivery} (h : x.Tells d) (hf : x.queue.Follows y.queue) : y.Tells d := by
  obtain ⟨hr, hg, hv, hs⟩ := h
  have he := hf.face d.entry hr.1
  simp only [Entry.face, Prod.mk.injEq] at he
  exact ⟨hf.firm hr, hg.trans he.1.symm, hv.trans he.2.1.symm, hs.trans he.2.2.1.symm⟩

theorem tells_delivery (hn : c.queue.Firm n) : c.Tells (c.delivery n) := ⟨hn, rfl, rfl, rfl⟩

def Drain.given : Drain → List Delivery
  | applying done _ => done
  | _ => []

def notes (c : Crew) : List Delivery := c.drains.flatMap Drain.noted ++ c.stored

structure Told (p : Position) (log : CommitLog) (c : Crew) : Prop where
  position : c.sequencer.position = p
  data : c.data = c.stored.foldl (fun s d => s.apply p d.record) {}
  history : c.sequencer.log.history = (log.insertAll p (c.logged.map (·.record))).history
  notes : ∀ d ∈ c.notes, c.Tells d
  given : c.drains.flatMap Drain.given ⊆ c.stored
  logged : c.logged ⊆ c.stored

section Notes

variable {l : Delivery} (hx : x.drains = before ++ d :: behind)
  (hy : y.drains = before ++ e :: behind)
include hx hy

theorem notes_goOn (hn : ∀ l ∈ e.noted, l ∈ d.noted ∨ x.Tells l)
    (hs : ∀ l ∈ y.stored, l ∈ x.stored ∨ l ∈ d.noted) : ∀ l ∈ y.notes, l ∈ x.notes ∨ x.Tells l := by
  intro l hl
  have hn := hn l
  have hs := hs l
  simp only [notes, hx, hy, List.flatMap_append, List.flatMap_cons, List.mem_append] at hl ⊢
  tauto

theorem given_goOn (h : x.drains.flatMap Drain.given ⊆ x.stored) (hs : x.stored ⊆ y.stored)
    (he : e.given ⊆ y.stored) : y.drains.flatMap Drain.given ⊆ y.stored := by
  intro l hl
  have h := @h l
  have hs := @hs l
  have he := @he l
  simp only [hx, hy, List.flatMap_append, List.flatMap_cons, List.mem_append] at h hl ⊢
  tauto

end Notes

theorem Turn.notes_tell (h : Turn x y) (hx : x.Keeping) :
    ∀ l ∈ y.notes, l ∈ x.notes ∨ x.Tells l := by
  have noneNoted {e d : Drain} (he : e.noted = []) : ∀ l ∈ e.noted, l ∈ d.noted ∨ x.Tells l :=
    fun l hl => absurd (he ▸ hl) List.not_mem_nil
  cases h with
  | drain z h hz =>
    cases h with
    | list before behind hc => exact notes_goOn hc rfl (noneNoted rfl) fun _ => .inl
    | claim before won n todo behind hc => exact notes_goOn hc rfl (noneNoted rfl) fun _ => .inl
    | giveUp before behind hc => exact notes_goOn hc rfl (noneNoted rfl) fun _ => .inl
    | win before won behind hc => exact notes_goOn hc rfl (noneNoted rfl) fun _ => .inl
    | record before done n todo behind hc =>
      refine notes_goOn hc rfl (fun l hl => ?_) fun _ => .inl
      rcases List.mem_append.mp hl with hl | hl
      · exact .inl hl
      · have hn : n ∈ (Drain.recording done (n :: todo)).held := by simp [Drain.held, Drain.won]
        rw [List.mem_singleton.mp hl]
        exact .inr (tells_delivery (hx.held _ (by simp [hc]) n hn))
    | finish before done behind hc => exact notes_goOn hc rfl (fun _ hl => .inl hl) fun _ => .inl
    | apply before done l todo behind hc =>
      refine notes_goOn hc rfl (fun k hk => .inl ?_) fun k hk => ?_
      · simpa [Drain.noted] using hk
      · rcases List.mem_append.mp hk with hk | hk
        · exact .inl hk
        · exact .inr (by simp [Drain.noted, List.mem_singleton.mp hk])
    | insert before done behind hc => exact notes_goOn hc rfl (noneNoted rfl) fun _ => .inl
    | mark before n todo behind now hc => exact notes_goOn hc rfl (noneNoted rfl) fun _ => .inl
    | detach before behind now hc => exact notes_goOn hc rfl (noneNoted rfl) fun _ => .inl
    | _ => exact absurd rfl hz
  | _ => exact fun l hl => .inl hl

namespace Told

variable (h : x.Told p log)
include h

theorem settle {g : TransactionId} {v : Version} :
    (x.sequencer.settle g v now).1.log.history =
      (log.insertAll p (x.logged.map (·.record))).history := by
  rw [← h.history]
  rcases Sequencer.log_settle x.sequencer g v now with e | e
  · rw [e]
  · rw [e]
    rfl

theorem insert {ls : List Delivery} :
    (x.insertBatch ls).sequencer.log.history =
      (log.insertAll p ((x.logged ++ ls).map (·.record))).history := by
  rw [List.map_append, CommitLog.insertAll, List.foldl_append]
  change (x.sequencer.log.insertAll x.sequencer.position _).history = _
  rw [h.position]
  exact CommitLog.history_insertAll_congr h.history

theorem given_subset (hc : x.drains = before ++ d :: behind) : d.given ⊆ x.stored := by
  intro l hl
  exact h.given (List.mem_flatMap.mpr ⟨d, by simp [hc], hl⟩)

end Told

theorem Turn.told (h : Turn x y) (hk : x.Keeping) (hx : x.Told p log) : y.Told p log := by
  have hn (l) (hl : l ∈ y.notes) : y.Tells l :=
    ((h.notes_tell hk l hl).elim (hx.notes l) id).follow (h.follows hk)
  cases h with
  | settle g v now hv hu =>
    exact ⟨Sequencer.position_settle.trans hx.position, hx.data, hx.settle, hn, hx.given, hx.logged⟩
  | rollback g now hu =>
    refine ⟨Sequencer.position_rollback.trans hx.position, hx.data, ?_, hn, hx.given, hx.logged⟩
    exact (congrArg CommitLog.history Sequencer.log_rollback).trans hx.history
  | drain z h hz =>
    have hg := hx.given
    cases h with
    | prepare | raise | settle | rollback | transactions | log | data => exact absurd rfl hz
    | apply before done l todo behind hc =>
      have hs : x.stored ⊆ x.stored ++ [l] := List.subset_append_left ..
      refine ⟨hx.position, ?_, hx.history, hn, given_goOn hc rfl hg hs fun k hk => ?_,
        fun k hk => hs (hx.logged hk)⟩
      · change x.data.apply x.sequencer.position l.record = (x.stored ++ [l]).foldl _ _
        rw [List.foldl_append, ← hx.data, hx.position]
        rfl
      · rcases List.mem_append.mp hk with hk | hk
        · exact hs (hx.given_subset hc hk)
        · exact List.mem_append_right _ hk
    | insert before done behind hc =>
      refine ⟨hx.position, hx.data, hx.insert, hn,
        given_goOn hc rfl hg (List.Subset.refl _) (List.nil_subset _), fun k hk => ?_⟩
      rcases List.mem_append.mp hk with hk | hk
      · exact hx.logged hk
      · exact hx.given_subset hc hk
    | list before behind hc | giveUp before behind hc | win before won behind hc
    | claim before won n todo behind hc | record before done n todo behind hc
    | finish before done behind hc | mark before n todo behind now hc
    | detach before behind now hc =>
      exact ⟨hx.position, hx.data, hx.history, hn,
        given_goOn hc rfl hg (List.Subset.refl _) (List.nil_subset _), hx.logged⟩
  | _ => exact ⟨hx.position, hx.data, hx.history, hn, hx.given, hx.logged⟩

theorem told_start : (start p log tracking drains).Told p log := by
  have none {φ : Drain → List Delivery} (hφ : φ .idle = []) :
      (start p log tracking drains).drains.flatMap φ = [] := by
    refine List.flatMap_eq_nil_iff.mpr fun d hd => ?_
    rw [List.eq_of_mem_replicate hd, hφ]
  refine ⟨rfl, rfl, rfl, ?_, ?_, List.Subset.refl _⟩
  · rw [notes, none rfl]
    exact fun _ hl => absurd hl List.not_mem_nil
  · rw [none rfl]
    exact List.nil_subset _

theorem Turns.told (h : Turns x y) (hk : x.Keeping) (hx : x.Told p log) : y.Told p log := by
  induction h with
  | refl => exact hx
  | tail hr hs ih => exact hs.told (Turns.keeping hr hk) ih

/-- Every entry is applied and inserted once, by whichever drain has claimed it, and what no drain
    has applied stays queued until it is rolled back. -/
theorem applied_exactly_once (h : Turns (start p log tracking drains) c) :
    (∀ n, (c.stored.map (·.entry)).count n ≤ 1 ∧ (c.logged.map (·.entry)).count n ≤ 1) ∧
    (∀ n < c.queue.entries.size, n ∉ c.queue.line → (c.queue.entry n).isAborted = false →
      (c.stored.map (·.entry)).count n = 1 ∧ (c.logged.map (·.entry)).count n = 1) ∧
    (∀ n < c.queue.entries.size, (c.queue.entry n).isAborted = true →
      n ∉ c.queue.line ∧ (c.queue.entry n).received = false ∧
      n ∉ c.stored.map (·.entry) ∧ n ∉ c.logged.map (·.entry)) ∧
    (∀ y, Turn c y → ∀ n ∈ c.queue.line, n ∉ y.queue.line →
      (c.stored.map (·.entry)).count n = 1 ∧ (c.logged.map (·.entry)).count n = 1 ∨
      ∃ now, y =
        { c with sequencer := (c.sequencer.rollback (c.queue.entry n).id now).1 }) ∧
    ((∀ d ∈ c.drains, d = .idle) → ∀ n ∈ c.queue.line, (c.queue.entry n).committed = false) ∧
    c.data = c.stored.foldl (fun s l => s.apply p l.record) {} ∧
    c.sequencer.log.history = (log.insertAll p (c.logged.map (·.record))).history ∧
    c.logged ⊆ c.stored ∧
    ∀ l ∈ c.stored, l.record.id = (c.queue.entry l.entry).id ∧
      l.record.version = (c.queue.entry l.entry).version ∧
      l.record.sub = (c.queue.entry l.entry).sub := by
  have hk : c.Keeping := Turns.keeping h keeping_start
  have ht : c.Told p log := Turns.told h keeping_start told_start
  refine ⟨fun n => hk.once, fun n hn hl ha => ?_, fun n hn ha => ?_, fun y hy n hn hl => ?_,
    hk.uncommitted_of_idle, ht.data, ht.history, ht.logged, fun l hl => ?_⟩
  · refine hk.once_of_committed ((hk.tidy.gone hn hl).resolve_left ?_)
    rw [ha]
    exact Bool.false_ne_true
  · refine ⟨fun hl => ?_, hk.tidy.dropped n hn ha, hk.untouched_of_aborted ha⟩
    rw [hk.tidy.queued n hl] at ha
    cases ha
  · exact (hy.leave hk hn hl).imp_left hk.once_of_committed
  · exact (ht.notes l (List.mem_append_right _ hl)).2

def proceed (c : Crew) (now : Time) (before : List Drain) (d : Drain) (behind : List Drain) :
    Crew :=
  match d with
  | .idle => c.goOn before (.claiming [] c.sequencer.readyPrefix) behind
  | .claiming won (n :: todo) =>
    (c.setQueue (c.queue.claim n).1).goOn before
      (.claiming (if (c.queue.claim n).2 then won ++ [n] else won) todo) behind
  | .claiming [] [] => c.goOn before .idle behind
  | .claiming won [] => c.goOn before (.recording [] won) behind
  | .recording done (n :: todo) => c.goOn before (.recording (done ++ [c.delivery n]) todo) behind
  | .recording done [] => c.goOn before (.applying [] done) behind
  | .applying done (l :: todo) => (c.applyOne l).goOn before (.applying (done ++ [l]) todo) behind
  | .applying done [] => (c.insertBatch done).goOn before (.marking (done.map (·.entry))) behind
  | .marking (n :: todo) =>
    (c.setQueue (c.queue.markCommitted n now)).goOn before (.marking todo) behind
  | .marking [] =>
    ({ c with sequencer := (c.sequencer.detach now).1 } : Crew).goOn before .idle behind

def advance (now : Time) (c : Crew) (i : Nat) : Crew :=
  match c.drains[i]? with
  | some d => c.proceed now (c.drains.take i) d (c.drains.drop (i + 1))
  | none => c

theorem turn_proceed (hc : c.drains = before ++ d :: behind) :
    Turn c (c.proceed now before d behind) := by
  have other {z : Crew} {e : Drain} (hz : z.drains = before ++ e :: behind) (he : e ≠ d) :
      z.drains ≠ c.drains := by
    simpa [hz, hc] using he
  unfold proceed
  split
  · exact .drain _ _ (.list c before behind hc) (other rfl nofun)
  · exact .drain _ _ (.claim c before _ _ _ behind hc) (other rfl (by simp))
  · exact .drain _ _ (.giveUp c before behind hc) (other rfl nofun)
  · exact .drain _ _ (.win c before _ behind hc) (other rfl nofun)
  · exact .drain _ _ (.record c before _ _ _ behind hc) (other rfl (by simp))
  · exact .drain _ _ (.finish c before _ behind hc) (other rfl nofun)
  · exact .drain _ _ (.apply c before _ _ _ behind hc) (other rfl (by simp))
  · exact .drain _ _ (.insert c before _ behind hc) (other rfl nofun)
  · exact .drain _ _ (.mark c before _ _ behind now hc) (other rfl (by simp))
  · exact .drain _ _ (.detach c before behind now hc) (other rfl nofun)

theorem turns_advance (now : Time) {is : List Nat} : Turns c (is.foldl (advance now) c) := by
  induction is generalizing c with
  | nil => exact .refl
  | cons i is ih =>
    refine ReflTransGen.trans ?_ ih
    unfold advance
    split
    next d hd =>
      refine .single (turn_proceed ?_)
      obtain ⟨hi, rfl⟩ := List.getElem?_eq_some_iff.mp hd
      simp
    next => exact .refl

theorem Turns.commit {g : TransactionId} {v : Version} (hu : ∀ n, c.queue.find? g = some n →
    (c.queue.entry n).received = false ∧ c.queue.order n ≤ c.sequencer.position.seq v) :
    Turns c { c with sequencer := (c.sequencer.commit g v now).1 } := by
  have raise := Turn.raise c v
  have settle := Turn.settle { c with sequencer := c.sequencer.raise v, raised := v :: c.raised }
    g v now (List.mem_cons_self ..) hu
  rw [List.erase_cons_head] at settle
  exact (ReflTransGen.single raise).tail settle

def paired : Crew :=
  let c : Crew := { sequencer := Sequencer.overtaking, drains := [.idle, .idle] }
  let v := Position.stamp (.of 0 1 1) (.zero 1 0 1) 2
  let c := { c with sequencer := (c.sequencer.commit ⟨default, 1⟩ v 0).1 }
  { c with sequencer := (c.sequencer.commit ⟨default, 2⟩ v 0).1 }

def relieved : Crew :=
  [0, 1, 0, 1, 1, 0, 1, 1, 1, 1, 1, 1, 1, 0, 0, 0, 0, 0, 0, 0].foldl (advance 0) paired

theorem turns_paired : Turns (start (.of 0 1 1) (.empty (.of 0 1 1)) false 2) paired := by
  have begun (s : Sequencer) (g) (ds : List Drain) :
      Turn { sequencer := s, drains := ds } { sequencer := (s.begin g).2, drains := ds } :=
    .transactions ..
  have prepared : Turns (start (.of 0 1 1) (.empty (.of 0 1 1)) false 2)
      { sequencer := Sequencer.overtaking, drains := [.idle, .idle] } :=
    (((ReflTransGen.single (begun _ _ _)).tail (begun _ _ _)).tail
      (.prepare _ 0 0 (by decide) (by decide))).tail (.prepare _ 1 0 (by decide) (by decide))
  refine (prepared.trans (Turns.commit fun n hn => ?_)).trans (Turns.commit fun n hn => ?_)
  · rw [show Queue.find? _ _ = some 0 by decide +kernel] at hn
    cases hn
    decide +kernel
  · rw [show Queue.find? _ _ = some 1 by decide +kernel] at hn
    cases hn
    decide +kernel

theorem applied_exactly_once_relieved : relieved.queue.line = [] ∧
    relieved.drains = [.idle, .idle] ∧ relieved.stored.map (·.entry) = [1, 0] ∧
    (relieved.stored.map (·.entry)).count 0 = 1 ∧ (relieved.logged.map (·.entry)).count 0 = 1 ∧
    relieved.data = relieved.stored.foldl (fun s l => s.apply (.of 0 1 1) l.record) {} := by
  have h := applied_exactly_once (turns_paired.trans (turns_advance 0) :
    Turns (start (.of 0 1 1) (.empty (.of 0 1 1)) false 2) relieved)
  have hl : relieved.queue.line = [] := by decide +kernel
  obtain ⟨hs, hg⟩ := h.2.1 0 (by decide +kernel) (by simp [hl]) (by decide +kernel)
  exact ⟨hl, by decide +kernel, by decide +kernel, hs, hg, h.2.2.2.2.2.1⟩

end Crew

end Multiversion
