import Mathlib
import Multiversion.Proofs.CommitLog
import Multiversion.Proofs.Queue.Leaves
import Multiversion.Proofs.Sequencer.Crew
import Multiversion.Proofs.Sequencer.Readiness
import Multiversion.Proofs.Store.Newest

/-!
Commit and rollback. An entry that is taken out of the line before any drain has listed it is never
applied, published or marked committed. Once a drain holds it, nothing protects it any more: it is
published although it is aborted.
-/

namespace Multiversion

open Relation (ReflTransGen)

namespace Crew

variable {c x y : Crew} {n : Nat} {before behind : List Drain} {d e : Drain}

instance : Decidable (c.Holds n) := inferInstanceAs (Decidable (∃ d ∈ c.drains, n ∈ d.held))

def Spares (n : Nat) (x y : Crew) : Prop :=
  x.Holds n → (x.queue.entry n).isAborted = false → (y.queue.entry n).isAborted = false

instance : Decidable (Spares n x y) :=
  inferInstanceAs (Decidable (x.Holds n → (x.queue.entry n).isAborted = false →
    (y.queue.entry n).isAborted = false))

def SparingStep (n : Nat) (x y : Crew) : Prop := Step x y ∧ Spares n x y

structure Fair (c : Crew) (n : Nat) : Prop where
  valid : c.queue.Valid
  known : c.Holds n → n < c.queue.entries.size
  line : n ∈ c.queue.line → (c.queue.entry n).isAborted = false
  held : c.Holds n → (c.queue.entry n).isAborted = false
  published : (c.queue.entry n).notifier.verdict = some .committed ↔
    (c.queue.entry n).committed = true
  taken : n ∈ (c.stored ++ c.logged).map (·.entry) →
    c.Wins n ∨ (c.queue.entry n).committed = true
  accounted : c.queue.Accounted n

namespace Fair

theorem isAborted_eq {e e' : Entry} (h : e'.notifier.verdict = e.notifier.verdict) :
    e'.isAborted = e.isAborted := by
  rw [Entry.isAborted, Entry.isAborted, Notifier.isAborted, Notifier.isAborted, h]

theorem verdict_markCommitted {e : Entry} {now : Time} (ha : e.isAborted = false)
    (hc : e.committed = true → e.notifier.verdict = some .committed) :
    (e.markCommitted now).notifier.verdict = some .committed := by
  unfold Entry.markCommitted
  split
  next h => exact hc h
  next =>
    unfold Notifier.decide
    cases hv : e.notifier.verdict with
    | none => rfl
    | some v =>
      cases v with
      | committed => exact hv
      | aborted => simp [Entry.isAborted, Notifier.isAborted, hv] at ha

variable (h : x.Fair n)
include h

theorem line_leaves (hl : Queue.Leaves n x.queue y.queue) (hn : n ∈ y.queue.line) :
    (y.queue.entry n).isAborted = false := by
  obtain ⟨h1, h2⟩ := hl.line hn
  rw [isAborted_eq h1]
  rcases h2 with h2 | h2
  · exact h.line h2
  · simp [Entry.isAborted, Notifier.isAborted, h2]

theorem published_leaves (hl : Queue.Leaves n x.queue y.queue) :
    (y.queue.entry n).notifier.verdict = some .committed ↔
      (y.queue.entry n).committed = true := by
  rw [hl.committed, ← h.published]
  rcases hl.verdict with h1 | ⟨h1, h2⟩
  · rw [h1]
  · simp [h1, h2]

theorem of_leaves {q : Queue} (hq : y.queue = q) (hv : q.Valid) (hl : Queue.Leaves n x.queue q)
    (hd : y.drains = x.drains) (hs : y.stored = x.stored) (hg : y.logged = x.logged)
    (ha : Spares n x y) : y.Fair n := by
  subst hq
  have holds : y.Holds n ↔ x.Holds n := by rw [Holds, Holds, hd]
  have wins : y.Wins n ↔ x.Wins n := by rw [Wins, Wins, hd]
  refine ⟨hv, fun hn => (h.known (holds.mp hn)).trans_le hl.size, h.line_leaves hl, ?_,
    h.published_leaves hl, ?_, hl.accounted h.accounted⟩
  · intro hn
    exact ha (holds.mp hn) (h.held (holds.mp hn))
  · rw [hs, hg, wins, hl.committed]
    exact h.taken

theorem goOn (hv : y.queue.Valid) (hl : Queue.Leaves n x.queue y.queue)
    (hx : x.drains = before ++ d :: behind) (hy : y.drains = before ++ e :: behind)
    (hs : n ∈ e.held → n ∈ d.held ∨
      n < y.queue.entries.size ∧ (y.queue.entry n).isAborted = false)
    (hw : n ∈ d.won → n ∈ e.won)
    (ht : n ∈ (y.stored ++ y.logged).map (·.entry) →
      n ∈ (x.stored ++ x.logged).map (·.entry) ∨ n ∈ d.won)
    (ha : Spares n x y) : y.Fair n := by
  have hxh : x.Holds n ↔ n ∈ d.held ∨ ∃ e ∈ before ++ behind, n ∈ e.held := by
    rw [Holds, hx, exists_mem_middle]
  have hxw : x.Wins n ↔ n ∈ d.won ∨ ∃ e ∈ before ++ behind, n ∈ e.won := by
    rw [Wins, hx, exists_mem_middle]
  have hyw : y.Wins n ↔ n ∈ e.won ∨ ∃ e ∈ before ++ behind, n ∈ e.won := by
    rw [Wins, hy, exists_mem_middle]
  have holds (hn : y.Holds n) :
      x.Holds n ∨ n < y.queue.entries.size ∧ (y.queue.entry n).isAborted = false := by
    rw [Holds, hy, exists_mem_middle] at hn
    rcases hn with hn | hn
    · exact (hs hn).imp_left fun hd => hxh.mpr (.inl hd)
    · exact .inl (hxh.mpr (.inr hn))
  refine ⟨hv, fun hn => ?_, h.line_leaves hl, fun hn => ?_, h.published_leaves hl, fun hn => ?_,
    hl.accounted h.accounted⟩
  · exact (holds hn).elim (fun hn => (h.known hn).trans_le hl.size) fun hn => hn.1
  · exact (holds hn).elim (fun hn => ha hn (h.held hn)) fun hn => hn.2
  · rw [hyw, hl.committed]
    rcases ht hn with hn | hn
    · exact (h.taken hn).imp_left fun hx => (hxw.mp hx).imp_left hw
    · exact .inl (.inl (hw hn))

theorem keepOn (hq : y.queue = x.queue) (hx : x.drains = before ++ d :: behind)
    (hy : y.drains = before ++ e :: behind) (hw : e.won = d.won) (hl : e.listed = d.listed)
    (ht : n ∈ (y.stored ++ y.logged).map (·.entry) →
      n ∈ (x.stored ++ x.logged).map (·.entry) ∨ n ∈ d.won) : y.Fair n := by
  refine h.goOn (hq ▸ h.valid) (hq ▸ .refl) hx hy (fun hn => .inl ?_) (fun hn => hw ▸ hn) ht ?_
  · rwa [Drain.held, hw, hl] at hn
  · intro _ ha
    rw [hq, ha]

theorem marked {now : Time} (hn : x.Holds n)
    (hy : y.queue = x.queue.markCommitted n now) : y.Fair n := by
  have hz : y.queue.entries.size = x.queue.entries.size := hy ▸ Queue.size_update
  have he : y.queue.entry n = (x.queue.entry n).markCommitted now := by
    rw [hy, Queue.markCommitted, Queue.entry_update (h.known hn), if_pos rfl]
  have ha : (y.queue.entry n).isAborted = false := by
    rw [he, Entry.isAborted_markCommitted, h.held hn]
  have hcom : (y.queue.entry n).committed = true := by rw [he, Entry.committed_markCommitted]
  have hver : (y.queue.entry n).notifier.verdict = some .committed := by
    rw [he]
    exact verdict_markCommitted (h.held hn) h.published.mpr
  exact ⟨hy ▸ h.valid.markCommitted, fun _ => hz ▸ h.known hn, fun _ => ha, fun _ => ha,
    by simp [hver, hcom], fun _ => .inr hcom, fun _ => .inr (.inr hcom)⟩

theorem mark {todo : List Nat} {m : Nat} {now : Time}
    (hc : x.drains = before ++ .marking (m :: todo) :: behind) :
    ((x.setQueue (x.queue.markCommitted m now)).goOn before (.marking todo) behind).Fair n := by
  by_cases hn : n = m
  · subst hn
    have hold : x.Holds n := by
      rw [Holds, hc, exists_mem_middle]
      exact .inl (List.mem_append_left _ (List.mem_cons_self ..))
    exact h.marked hold rfl
  · refine h.goOn h.valid.markCommitted (.update_of_ne hn) hc rfl (fun hm => ?_) (fun hm => ?_) .inl
      fun _ ha => ?_
    · simp only [Drain.held, Drain.won, Drain.listed, List.append_nil] at hm ⊢
      exact .inl (List.mem_cons_of_mem _ hm)
    · exact (List.mem_cons.mp hm).resolve_left hn
    · exact (congrArg Entry.isAborted (Queue.entry_update_of_ne hn)).trans ha

end Fair

theorem Step.fair (h : Step x y) (hx : x.Fair n) (ha : Spares n x y) : y.Fair n := by
  cases h with
  | prepare tx now ht =>
    exact hx.of_leaves (Sequencer.queue_prepare ht) hx.valid.prepare hx.valid.prepare_leaves
      rfl rfl rfl ha
  | raise v => exact hx.of_leaves rfl hx.valid .refl rfl rfl rfl ha
  | settle g v now hv =>
    exact hx.of_leaves (Sequencer.queue_settle hx.valid) hx.valid.commit hx.valid.commit_leaves
      rfl rfl rfl ha
  | rollback g now =>
    exact hx.of_leaves (Sequencer.queue_rollback hx.valid) hx.valid.rollback
      hx.valid.rollback_leaves rfl rfl rfl ha
  | transactions ts live => exact hx.of_leaves rfl hx.valid .refl rfl rfl rfl ha
  | log log hl => exact hx.of_leaves rfl hx.valid .refl rfl rfl rfl ha
  | data data hd => exact hx.of_leaves rfl hx.valid .refl rfl rfl rfl ha
  | list before behind hc =>
    refine hx.goOn hx.valid .refl hc rfl (fun hn => .inr ?_) id .inl ha
    have hl : n ∈ x.queue.line := (List.takeWhile_sublist _).subset hn
    exact ⟨hx.valid.known hl, hx.line hl⟩
  | claim before won m todo behind hc =>
    refine hx.goOn hx.valid.claim (.update (fun _ => rfl) fun _ => rfl) hc rfl
      (fun hn => .inl (Drain.held_of_claimed hn)) (fun hn => ?_) .inl ha
    simp only [Drain.won] at hn ⊢
    split
    next => exact List.mem_append_left _ hn
    next => exact hn
  | giveUp before behind hc => exact hx.keepOn rfl hc rfl rfl rfl .inl
  | win before won behind hc => exact hx.keepOn rfl hc rfl rfl rfl .inl
  | record before done m todo behind hc =>
    exact hx.keepOn rfl hc rfl (by simp [Drain.won, delivery]) rfl .inl
  | finish before done behind hc =>
    exact hx.keepOn rfl hc rfl (by simp [Drain.won]) rfl .inl
  | apply before done d todo behind hc =>
    refine hx.keepOn rfl hc rfl (by simp [Drain.won]) rfl fun hn => ?_
    simp only [goOn, applyOne, List.map_append, List.mem_append, List.map_cons, List.map_nil,
      Drain.won, List.mem_cons] at hn ⊢
    tauto
  | insert before done behind hc =>
    refine hx.keepOn rfl hc rfl (by simp [Drain.won]) rfl fun hn => ?_
    simp only [goOn, insertBatch, List.map_append, List.mem_append, Drain.won] at hn ⊢
    tauto
  | mark before m todo behind now hc => exact hx.mark hc
  | detach before behind now hc =>
    exact hx.goOn hx.valid.detach_valid hx.valid.detach_leaves hc rfl .inl id .inl ha

structure Sourced (log : CommitLog) (c : Crew) : Prop where
  history : ∀ e ∈ c.sequencer.log.history, e ∈ log.history ∨
    ∃ x ∈ c.logged, e = ⟨x.record.version, x.record.sub⟩
  values : ∀ key, ∀ v ∈ c.data.versions key, ∃ x ∈ c.stored, v ∈ x.record.stored key

namespace Sourced

variable {log : CommitLog} (h : x.Sourced log)
include h

theorem congr (hh : y.sequencer.log.history ⊆ x.sequencer.log.history)
    (hd : ∀ key, y.data.versions key ⊆ x.data.versions key) (hs : y.stored = x.stored)
    (hg : y.logged = x.logged) : y.Sourced log := by
  constructor
  · rw [hg]
    exact fun e he => h.history e (hh he)
  · rw [hs]
    exact fun key v hv => h.values key v (hd key hv)

theorem applyOne (d : Delivery) : (x.applyOne d).Sourced log := by
  refine ⟨h.history, fun key v hv => ?_⟩
  rcases Store.mem_versions_apply hv with hv | hv
  · obtain ⟨d', hd, hv⟩ := h.values key v hv
    exact ⟨d', List.mem_append_left _ hd, hv⟩
  · exact ⟨d, List.mem_append_right _ (List.mem_singleton_self d), hv⟩

theorem insertBatch (ds : List Delivery) : (x.insertBatch ds).Sourced log := by
  refine ⟨fun e he => ?_, h.values⟩
  rcases CommitLog.mem_history_insertAll he with he | ⟨tx, ht, he⟩
  · rcases h.history e he with he | ⟨d, hd, he⟩
    · exact .inl he
    · exact .inr ⟨d, List.mem_append_left _ hd, he⟩
  · obtain ⟨d, hd, rfl⟩ := List.mem_map.mp ht
    exact .inr ⟨d, List.mem_append_right _ hd, he⟩

end Sourced

theorem history_settle {s : Sequencer} {g : TransactionId} {v : Version} {now : Time} :
    (s.settle g v now).1.log.history ⊆ s.log.history := by
  rcases Sequencer.log_settle s g v now with e | e
  all_goals
    rw [e]
    exact List.Subset.refl _

theorem history_rollback {s : Sequencer} {g : TransactionId} {now : Time} :
    (s.rollback g now).1.log.history ⊆ s.log.history := by
  rw [Sequencer.log_rollback]
  exact List.Subset.refl _

theorem Step.sourced {log : CommitLog} (h : Step x y) (hx : x.Sourced log) : y.Sourced log := by
  cases h with
  | settle g v now hv => exact hx.congr history_settle (fun _ => List.Subset.refl _) rfl rfl
  | rollback g now => exact hx.congr history_rollback (fun _ => List.Subset.refl _) rfl rfl
  | log log hl => exact hx.congr hl (fun _ => List.Subset.refl _) rfl rfl
  | data data hd => exact hx.congr (List.Subset.refl _) hd rfl rfl
  | apply before done d todo behind hc =>
    exact (hx.applyOne d).congr (List.Subset.refl _) (fun _ => List.Subset.refl _) rfl rfl
  | insert before done behind hc =>
    exact (hx.insertBatch done).congr (List.Subset.refl _) (fun _ => List.Subset.refl _) rfl rfl
  | _ => exact hx.congr (List.Subset.refl _) (fun _ => List.Subset.refl _) rfl rfl

theorem fair_start {p : Position} {log : CommitLog} {tracking : Bool} {drains : Nat} :
    (start p log tracking drains).Fair n := by
  have he : (start p log tracking drains).queue.entry n = default :=
    Queue.entry_of_le (Nat.zero_le n)
  have hh : ¬ (start p log tracking drains).Holds n := by
    rintro ⟨d, hd, hn⟩
    rw [List.eq_of_mem_replicate hd] at hn
    exact List.not_mem_nil hn
  refine ⟨Queue.valid_empty, fun hn => absurd hn hh, fun hn => absurd hn List.not_mem_nil,
    fun hn => absurd hn hh, ?_, fun hn => absurd hn List.not_mem_nil,
    fun hn => absurd hn (Nat.not_lt_zero n)⟩
  rw [he]
  decide

theorem sourced_start {p : Position} {log : CommitLog} {tracking : Bool} {drains : Nat} :
    (start p log tracking drains).Sourced log :=
  ⟨fun _ he => .inl he, fun _ _ hv => absurd hv List.not_mem_nil⟩

abbrev SparingRun (n : Nat) := ReflTransGen (SparingStep n)

theorem SparingRun.run (h : SparingRun n x y) : Run x y := by
  have hle : SparingStep n ≤ Step := fun _ _ hs => hs.1
  exact ReflTransGen.mono hle x y h

theorem SparingRun.fair (h : SparingRun n x y) (hx : x.Fair n) : y.Fair n := by
  induction h with
  | refl => exact hx
  | tail _ hs ih => exact hs.1.fair ih hs.2

theorem Run.sourced {log : CommitLog} (h : Run x y) (hx : x.Sourced log) : y.Sourced log := by
  induction h with
  | refl => exact hx
  | tail _ hs ih => exact hs.sourced ih

def claimOne (c : Crew) (n : Nat) : Crew :=
  (c.setQueue (c.queue.claim n).1).goOn [] (.claiming [n] []) []

def deliver (c : Crew) (n : Nat) (now : Time) : Crew :=
  let c := (c.applyOne (c.delivery n)).insertBatch [c.delivery n]
  (c.setQueue (c.queue.markCommitted n now)).goOn [] (.marking []) []

theorem SparingStep.keep {m : Nat} (h : Step x y)
    (hk : (y.queue.entry m).isAborted = (x.queue.entry m).isAborted) : SparingStep m x y :=
  ⟨h, fun _ ha => hk.trans ha⟩

theorem SparingRun.claimOne {m : Nat} (hc : c.drains = [.idle])
    (hp : c.sequencer.readyPrefix = [n]) (hw : (c.queue.claim n).2 = true) :
    SparingRun m c (c.claimOne n) := by
  have hl : Step c (c.goOn [] (.claiming [] [n]) []) := hp ▸ Step.list c [] [] hc
  have ht : Step (c.goOn [] (.claiming [] [n]) []) (c.claimOne n) := by
    have h := Step.claim (c.goOn [] (.claiming [] [n]) []) [] [] n [] [] rfl
    rw [show ((c.goOn [] (.claiming [] [n]) []).queue.claim n).2 = true from hw, if_pos rfl] at h
    exact h
  exact (ReflTransGen.single (.keep hl rfl)).tail
    (.keep ht (Queue.update_keeps Entry.isAborted fun _ => rfl))

theorem SparingRun.deliver {m : Nat} {now : Time} (hc : c.drains = [.claiming [n] []]) :
    SparingRun m c (c.deliver n now) := by
  let x := c.delivery n
  have win : Step c (c.goOn [] (.recording [] [n]) []) := .win c [] [n] [] hc
  have record : Step (c.goOn [] (.recording [] [n]) []) (c.goOn [] (.recording [x] []) []) :=
    .record _ [] [] n [] [] rfl
  have finish : Step (c.goOn [] (.recording [x] []) []) (c.goOn [] (.applying [] [x]) []) :=
    .finish _ [] [x] [] rfl
  have apply : Step (c.goOn [] (.applying [] [x]) [])
      ((c.applyOne x).goOn [] (.applying [x] []) []) := .apply _ [] [] x [] [] rfl
  have insert : Step ((c.applyOne x).goOn [] (.applying [x] []) [])
      (((c.applyOne x).insertBatch [x]).goOn [] (.marking [n]) []) := .insert _ [] [x] [] rfl
  have mark : Step (((c.applyOne x).insertBatch [x]).goOn [] (.marking [n]) [])
      (c.deliver n now) := .mark _ [] n [] [] now rfl
  exact (((((ReflTransGen.single (.keep win rfl)).tail (.keep record rfl)).tail
    (.keep finish rfl)).tail (.keep apply rfl)).tail (.keep insert rfl)).tail
    (.keep mark (Queue.update_keeps Entry.isAborted fun _ => Entry.isAborted_markCommitted))

theorem SparingRun.commit {m : Nat} {g : TransactionId} {v : Version} {now : Time}
    (hs : ((c.sequencer.commit g v now).1.queue.entry m).isAborted = (c.queue.entry m).isAborted) :
    SparingRun m c { c with sequencer := (c.sequencer.commit g v now).1 } := by
  have raise := Step.raise c v
  have settle := Step.settle { c with sequencer := c.sequencer.raise v, raised := v :: c.raised }
    g v now (List.mem_cons_self ..)
  rw [List.erase_cons_head] at settle
  exact (ReflTransGen.single (.keep raise rfl)).tail (.keep settle hs)

def single (s : Sequencer) : Crew := { sequencer := s, drains := [.idle] }

theorem SparingStep.single {m : Nat} {s t : Sequencer} (h : Step (single s) (single t)) :
    SparingStep m (single s) (single t) := by
  refine ⟨h, fun ⟨d, hd, hn⟩ => ?_⟩
  obtain rfl : d = .idle := List.mem_singleton.mp hd
  exact absurd hn List.not_mem_nil

/-- An entry is committed or aborted, not both, unless it is taken out of the line while a drain
    holds it. -/
theorem committed_or_aborted {p : Position} {log : CommitLog} {tracking : Bool} {drains : Nat}
    (h : SparingRun n (start p log tracking drains) c) :
    ((c.queue.entry n).committed = true → (c.queue.entry n).isAborted = false) ∧
    (n < c.queue.entries.size → n ∉ c.queue.line →
      (c.queue.entry n).committed = true ∨ (c.queue.entry n).isAborted = true) ∧
    ((c.queue.entry n).isAborted = true →
      n ∉ c.logged.map (·.entry) ∧ n ∉ c.stored.map (·.entry)) ∧
    (∀ e ∈ c.sequencer.log.history, e ∈ log.history ∨
      ∃ x ∈ c.logged, e = ⟨x.record.version, x.record.sub⟩) ∧
    ∀ key, ∀ v ∈ c.data.versions key, ∃ x ∈ c.stored, v ∈ x.record.stored key := by
  have hf : c.Fair n := h.fair fair_start
  have hs : c.Sourced log := h.run.sourced sourced_start
  have exclude (hc : (c.queue.entry n).committed = true) :
      (c.queue.entry n).isAborted = false := by
    simp [Entry.isAborted, Notifier.isAborted, hf.published.mpr hc]
  have taken (hn : n ∈ (c.stored ++ c.logged).map (·.entry)) :
      (c.queue.entry n).isAborted = false :=
    (hf.taken hn).elim (fun hw => hf.held hw.holds) exclude
  refine ⟨exclude, fun hlt hl => ?_, fun ha => ⟨fun hn => ?_, fun hn => ?_⟩, hs.history, hs.values⟩
  · rcases (hf.accounted hlt).resolve_left hl with hv | hc
    · cases hd : (c.queue.entry n).notifier.verdict with
      | none => exact absurd hd hv
      | some v =>
        cases v with
        | committed => exact .inl (hf.published.mp hd)
        | aborted =>
          refine .inr ?_
          simp [Entry.isAborted, Notifier.isAborted, hd]
    · exact .inl hc
  · have := taken (List.map_append ▸ List.mem_append_right _ hn)
    rw [ha] at this
    cases this
  · have := taken (List.map_append ▸ List.mem_append_left _ hn)
    rw [ha] at this
    cases this

def boarded : Crew := single (Sequencer.overtaking.edit 1 (·.add ⟨"k", some [1]⟩))

theorem run_boarded : SparingRun 1 (start (.of 0 1 1) (.empty (.of 0 1 1)) false 1) boarded := by
  have begun (s : Sequencer) (g) : SparingStep 1 (single s) (single (s.begin g).2) :=
    .single (.transactions ..)
  have prepared (s : Sequencer) (n) (h : n < s.inFlight.transactions.all.size) :
      SparingStep 1 (single s) (single (s.prepare n 0).1) := .single (.prepare _ n 0 h)
  have written (s : Sequencer) (n f) : SparingStep 1 (single s) (single (s.edit n f)) :=
    .single (.transactions ..)
  exact ((((ReflTransGen.single (begun _ _)).tail (begun _ _)).tail
    (prepared _ 0 (by decide))).tail (prepared _ 1 (by decide))).tail (written _ 1 _)

def parted : Crew :=
  let c := { boarded with sequencer := (boarded.sequencer.rollback ⟨default, 2⟩ 0).1 }
  let c := { c with sequencer := (c.sequencer.commit ⟨default, 1⟩ (.zero 1 0 1) 0).1 }
  (c.claimOne 0).deliver 0 0

theorem run_parted : SparingRun 1 (start (.of 0 1 1) (.empty (.of 0 1 1)) false 1) parted := by
  refine (((run_boarded.tail ?_).trans (SparingRun.commit ?_)).trans
    (SparingRun.claimOne ?_ ?_ ?_)).trans (SparingRun.deliver ?_)
  · exact .single (.rollback _ ⟨default, 2⟩ 0)
  · decide +kernel
  · rfl
  · decide +kernel
  · decide +kernel
  · rfl

theorem committed_or_aborted_parted : (parted.queue.entry 0).committed = true ∧
    (parted.queue.entry 1).isAborted = true ∧ parted.logged.map (·.entry) = [0] ∧
    1 ∉ parted.logged.map (·.entry) := by
  have ha : (parted.queue.entry 1).isAborted = true := by decide +kernel
  have h := (committed_or_aborted run_parted).2.2.1 ha
  exact ⟨by decide +kernel, ha, by decide +kernel, h.1⟩

def claimed : Crew :=
  let c := { boarded with sequencer := (boarded.sequencer.commit ⟨default, 2⟩ (.zero 1 0 1) 0).1 }
  c.claimOne 1

theorem run_claimed : SparingRun 1 (start (.of 0 1 1) (.empty (.of 0 1 1)) false 1) claimed := by
  refine (run_boarded.trans (SparingRun.commit ?_)).trans (SparingRun.claimOne ?_ ?_ ?_)
  · decide +kernel
  · rfl
  · decide +kernel
  · decide +kernel

def torn : Crew :=
  let c := { claimed with sequencer := (claimed.sequencer.rollback ⟨default, 2⟩ 0).1 }
  c.deliver 1 0

theorem run_torn : Run (start (.of 0 1 1) (.empty (.of 0 1 1)) false 1) torn := by
  refine (run_claimed.run.tail ?_).trans (SparingRun.deliver (m := 1) ?_).run
  · exact .rollback _ ⟨default, 2⟩ 0
  · rfl

theorem published_when_aborted : Run (start (.of 0 1 1) (.empty (.of 0 1 1)) false 1) torn ∧
    (torn.queue.entry 1).committed = true ∧ (torn.queue.entry 1).isAborted = true ∧
    torn.sequencer.log.history = [⟨.zero 1 0 1, 0⟩] ∧
    (torn.data.versions "k").map (·.value) = [some [1]] := by
  exact ⟨run_torn, by decide +kernel, by decide +kernel, by decide +kernel, by decide +kernel⟩

end Crew

end Multiversion
