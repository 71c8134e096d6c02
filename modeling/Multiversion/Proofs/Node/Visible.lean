import Mathlib
import Multiversion.Proofs.Gc.Floor
import Multiversion.Proofs.Node.Drained

/-!
Every pin and every version that a cycle collects at lies at or below the visible sequence, and all
that was not yet published above it.
-/

namespace Multiversion

namespace Sequencer

variable {s : Sequencer} {txs : List Committed} {v : Version} {bound : Nat}

theorem visible_update :
    s.position.seq (s.log.update s.position v).current = max s.visible (s.position.seq v) :=
  Position.seq_join_singleton

theorem visible_insertAll : (s.insertAll txs).visible =
    txs.foldl (fun n tx => max n (s.position.seq tx.version)) s.visible := by
  change s.position.seq (txs.foldl (·.insert s.position ·) s.log).current = _
  rw [visible]
  generalize s.log = log
  induction txs generalizing log with
  | nil => rfl
  | cons tx txs ih =>
    have hseq : s.position.seq (log.insert s.position tx).current =
        max (s.position.seq log.current) (s.position.seq tx.version) :=
      Position.seq_join_singleton
    rw [List.foldl_cons, List.foldl_cons, ih, hseq]

theorem visible_le_insertAll : s.visible ≤ (s.insertAll txs).visible := by
  rw [visible_insertAll]
  generalize s.visible = n
  induction txs generalizing n with
  | nil => exact Nat.le_refl n
  | cons tx txs ih => exact (Nat.le_max_left ..).trans (ih _)

theorem visible_insertAll_lt (hs : s.visible < bound)
    (ht : ∀ tx ∈ txs, s.position.seq tx.version < bound) : (s.insertAll txs).visible < bound := by
  rw [visible_insertAll]
  generalize s.visible = n at hs
  induction txs generalizing n with
  | nil => exact hs
  | cons tx txs ih =>
    exact ih (fun u hu => ht u (List.mem_cons_of_mem tx hu)) _
      (Nat.max_lt.mpr ⟨hs, ht tx (List.mem_cons_self ..)⟩)

end Sequencer

namespace Entry

variable {e f : Entry} {visible : Nat} {now : Time}

/-- An entry that nobody has claimed or given up lies above what is visible. -/
def Waits (visible : Nat) (e : Entry) : Prop :=
  e.claimed = true ∨ e.isAborted = true ∨ visible < e.order

theorem Waits.congr (h : e.Waits visible) (hc : f.claimed = e.claimed)
    (ha : e.isAborted = true → f.isAborted = true) (ho : f.order = e.order) : f.Waits visible := by
  unfold Waits
  rw [hc, ho]
  exact h.imp_right (Or.imp_left ha)

theorem Waits.abort (h : e.Waits visible) : e.abort.Waits visible := by
  refine h.congr rfl (fun ha => ?_) rfl
  cases hv : e.notifier.verdict <;>
    simp [Entry.isAborted, Notifier.isAborted, Entry.abort, Notifier.decide, hv] at ha ⊢
  exact ha

theorem Waits.markReady {k : Nat} (h : e.Waits visible) : (e.markReady k now).Waits visible := by
  refine h.congr Entry.claimed_markReady (fun ha => ?_) Entry.order_markReady
  rwa [isAborted, Entry.notifier_markReady]

theorem Waits.holdBack (h : e.Waits visible) : e.holdBack.Waits visible := by
  refine h.congr (holdBack_keeps claimed fun _ => rfl) (fun ha => ?_)
    (holdBack_keeps order fun _ => rfl)
  rwa [holdBack_keeps isAborted fun _ => rfl]

theorem Waits.markCommitted (h : e.Waits visible) : (e.markCommitted now).Waits visible := by
  refine h.congr (markCommitted_keeps claimed fun _ _ _ => rfl) (fun ha => ?_)
    (markCommitted_keeps order fun _ _ _ => rfl)
  rwa [isAborted_markCommitted]

end Entry

/-- What a claimed batch has not yet shown to readers. -/
def Drain.pending : Drain → List Delivery
  | applying done todo => done ++ todo
  | _ => []

def Sweep.version : Sweep → Version
  | measured v => v
  | gathered v => v
  | pruned v => v

/-- A version that is folded into the log without an entry must be visible already. -/
def Node.Covers (n : Node) (v : Version) : Prop := n.position.seq v ≤ n.sequencer.visible

namespace Session

variable {s t : Session}

structure Ahead (s : Session) : Prop where
  queued : s.node.queue.Each (Entry.Waits s.node.sequencer.visible)
  pending : ∀ x ∈ s.drain.pending, s.node.sequencer.visible < x.seq s.node.position
  pinned : ∀ e ∈ s.node.sequencer.live.pinned, s.node.position.seq e.2 ≤ s.node.sequencer.visible
  swept : ∀ w ∈ s.sweeps, s.node.position.seq w.version ≤ s.node.sequencer.visible ∧
    ∀ e ∈ s.node.sequencer.live.pinned, s.node.position.seq w.version ≤ s.node.position.seq e.2

namespace Ahead

theorem congr (h : s.Ahead) (hq : t.node.queue = s.node.queue)
    (hp : t.node.position = s.node.position)
    (hv : t.node.sequencer.visible = s.node.sequencer.visible)
    (hl : t.node.sequencer.live.pinned ⊆ s.node.sequencer.live.pinned)
    (hd : t.drain.pending ⊆ s.drain.pending) (hs : t.sweeps ⊆ s.sweeps) : t.Ahead := by
  refine ⟨?_, ?_, ?_, ?_⟩
  · rw [hq, hv]
    exact h.queued
  · rw [hv, hp]
    exact fun x hx => h.pending x (hd hx)
  · rw [hv, hp]
    exact fun e he => h.pinned e (hl he)
  · rw [hv, hp]
    exact fun w hw => ⟨(h.swept w (hs hw)).1, fun e he => (h.swept w (hs hw)).2 e (hl he)⟩

theorem requeue {u : Sequencer} (h : s.Ahead) (e : t.node.sequencer = u)
    (hq : u.queue.Each (Entry.Waits s.node.sequencer.visible)) (hp : u.position = s.node.position)
    (hv : u.visible = s.node.sequencer.visible) (hl : u.live = s.node.sequencer.live)
    (hd : t.drain.pending ⊆ s.drain.pending) (hs : t.sweeps = s.sweeps) : t.Ahead := by
  subst e
  have hp : t.node.position = s.node.position := hp
  refine ⟨?_, ?_, ?_, ?_⟩
  · rw [hv]
    exact hq
  · rw [hv, hp]
    exact fun x hx => h.pending x (hd hx)
  · rw [hv, hp, hl]
    exact h.pinned
  · rw [hv, hp, hl, hs]
    exact h.swept

theorem visible_lt (h : s.Ahead) (hd : s.Drained) {n : Nat} (hn : n ∈ s.node.queue.line)
    (hc : (s.node.queue.entry n).claimed = false) :
    s.node.sequencer.visible < s.node.queue.order n := by
  have ha : (s.node.queue.entry n).isAborted = false := by
    simp [Entry.isAborted, Notifier.isAborted, hd.drains.undecided n hn hc]
  rcases h.queued n (hd.drains.steady.valid.known hn) with hc' | ha' | hlt
  · rw [hc] at hc'
    cases hc'
  · rw [ha] at ha'
    cases ha'
  · exact hlt

section Calls

variable {g : TransactionId} {v : Version} {tx : Nat} {now : Time}

theorem begin (h : s.Ahead) : Ahead { s with node := s.node.begin.2 } := by
  refine ⟨h.queued, h.pending, ?_, ?_⟩
  · intro e he
    rcases Live.mem_register he with he | rfl
    · exact h.pinned e he
    · exact Nat.le_refl _
  · intro w hw
    refine ⟨(h.swept w hw).1, fun e he => ?_⟩
    rcases Live.mem_register he with he | rfl
    · exact (h.swept w hw).2 e he
    · exact (h.swept w hw).1

theorem finish (h : s.Ahead) : Ahead { s with node := s.node.finish g } :=
  h.congr rfl rfl rfl (List.filter_subset_self _) (List.Subset.refl _) (List.Subset.refl _)

theorem prepare (h : s.Ahead) (hd : s.Drained)
    (ht : tx < s.node.sequencer.inFlight.transactions.all.size) :
    Ahead { s with node := (s.node.prepare tx now).1 } := by
  have refl : s.drain.pending ⊆ s.drain.pending := List.Subset.refl _
  rcases s.node.sequencer_prepare tx now with e | e
  · refine h.requeue e ?_ rfl rfl rfl refl rfl
    rw [Sequencer.queue_prepare ht]
    exact hd.exact.valid.prepare_each h.queued (fun _ he => he.abort)
      (fun _ _ he => he.markReady) fun _ _ => .inr (.inr Sequencer.visible_lt_next)
  · exact h.requeue e h.queued rfl rfl rfl refl rfl

theorem learn (h : s.Ahead) (hv : s.node.Covers v) :
    Ahead { s with node := s.node.learn v } := by
  have e : (s.node.learn v).sequencer.visible = s.node.sequencer.visible :=
    Sequencer.visible_update.trans (Nat.max_eq_left hv)
  exact h.congr rfl rfl e (List.Subset.refl _) (List.Subset.refl _) (List.Subset.refl _)

theorem settle (h : s.Ahead) (hd : s.Drained)
    (hu : ∀ n, s.node.queue.find? g = some n → (s.node.queue.entry n).received = false ∧
      s.node.queue.order n ≤ s.node.position.seq v)
    (hm : s.node.queue.find? g = none → s.node.Covers v) :
    Ahead { s with node := (s.node.settle g v now).1, raised := s.raised.erase v } := by
  have hval := hd.exact.valid
  cases hf : s.node.queue.find? g with
  | none =>
    have e : (s.node.settle g v now).1.sequencer = (s.node.learn v).sequencer :=
      Sequencer.settle_none hf
    refine (h.learn (hm hf)).congr ?_ ?_ ?_ ?_ (List.Subset.refl _) (List.Subset.refl _)
    · exact congrArg Sequencer.queue e
    · exact congrArg Sequencer.position e
    · exact congrArg Sequencer.visible e
    · rw [e]
      exact List.Subset.refl _
  | some n =>
    obtain ⟨m, e⟩ := Sequencer.settle_some hval v now hf
    -- the entry was not claimed, for it had not received its commit
    have hlt : s.node.sequencer.visible < s.node.position.seq v := by
      obtain ⟨hrec, hle⟩ := hu n hf
      obtain ⟨hn, -⟩ := hval.find?_eq_some_iff.mp hf
      have hc : (s.node.queue.entry n).claimed = false := by
        by_contra hc
        obtain ⟨x, hx, rfl⟩ :=
          List.mem_map.mp ((hd.drains.claimed n hn).mp (by simpa using hc))
        rw [(hd.drains.stated x (List.mem_append_right _ hx)).received] at hrec
        cases hrec
      exact (h.visible_lt hd hn hc).trans_le hle
    refine h.requeue e ?_ rfl rfl rfl (List.Subset.refl _) rfl
    exact hval.commit_each h.queued (fun _ _ => .inr (.inr hlt)) (fun _ _ he => he.markReady)
      fun _ he => he.holdBack

theorem rollback (h : s.Ahead) (hd : s.Drained) :
    Ahead { s with node := (s.node.rollback g now).1 } := by
  have hval := hd.exact.valid
  refine h.requeue (Sequencer.rollback_eq hval) ?_ rfl rfl rfl (List.Subset.refl _) rfl
  exact hval.rollback_each h.queued (fun _ he => he.abort) fun _ _ he => he.markReady

end Calls

section Drain

variable {done todo won : List Delivery} {x : Delivery} {now : Time}

theorem claim (h : s.Ahead) (hd : s.Drained) (hi : s.drain = .idle) :
    Ahead { s with
      node := s.node.claimReady.1
      drain := .applying [] (s.node.claimReady.1.deliveries s.node.claimReady.2) } := by
  obtain ⟨won, hw, -, -, hdr, hentries, -, -⟩ := hd.claimed hi
  rw [hw]
  refine ⟨?_, ?_, h.pinned, h.swept⟩
  · change (s.node.queue.claimAll s.node.queue.readyPrefix).1.Each _
    rw [Queue.claimAll_fst]
    exact h.queued.updateAll fun _ _ => .inl rfl
  · intro x hx
    have hx' : x ∈ won := hx
    have hn : x.entry ∈ s.node.queue.readyPrefix := hentries ▸ List.mem_map_of_mem hx'
    have hl : x.entry ∈ s.node.queue.line := (List.takeWhile_sublist _).subset hn
    have hdr' := hd.drains
    rw [hi] at hdr'
    have ho : s.node.queue.order x.entry = x.seq s.node.position := by
      rw [← (hdr.stated x (List.mem_append_right _ hx')).order]
      exact (Queue.claimAll_keeps Entry.order fun _ => rfl).symm
    change s.node.sequencer.visible < x.seq s.node.position
    rw [← ho]
    exact h.visible_lt hd hl (Queue.unclaimed hdr' hl)

theorem pass (h : s.Ahead) :
    Ahead { s with node := s.node.claimReady.1, calls := s.calls ++ [[]] } := by
  refine h.requeue rfl ?_ rfl rfl rfl (List.Subset.refl _) rfl
  change (s.node.queue.claimAll s.node.queue.readyPrefix).1.Each _
  rw [Queue.claimAll_fst]
  exact h.queued.updateAll fun _ _ => .inl rfl

theorem insert (h : s.Ahead) (hd : s.Drained) (hi : s.drain = .applying won []) :
    Ahead { s with node := s.node.insertBatch (won.map (·.record)), drain := .inserted won } := by
  have hdr := hd.drains
  rw [hi] at hdr
  have hwon : Drain.won (.applying won []) = won := List.append_nil won
  rw [hwon] at hdr
  have hle : s.node.sequencer.visible ≤
      (s.node.insertBatch (won.map (·.record))).sequencer.visible :=
    Sequencer.visible_le_insertAll
  refine ⟨?_, ?_, ?_, ?_⟩
  · intro n hn
    by_cases hc : (s.node.queue.entry n).claimed = true
    · exact .inl hc
    · rcases hdr.accounted n hn with hl | hr | ha
      · have hc : (s.node.queue.entry n).claimed = false := by simpa using hc
        refine .inr (.inr (Sequencer.visible_insertAll_lt (h.visible_lt hd hl hc) ?_))
        intro tx htx
        obtain ⟨x, hx, rfl⟩ := List.mem_map.mp htx
        exact hdr.below x (List.mem_append_right _ hx) n hl hc
      · obtain ⟨x, hx, rfl⟩ := List.mem_map.mp hr
        exact .inl (hdr.stated x (List.mem_append_left _ hx)).claimed
      · exact .inr (.inl ha)
  · exact fun x hx => absurd hx List.not_mem_nil
  · exact fun e he => (h.pinned e he).trans hle
  · exact fun w hw => ⟨(h.swept w hw).1.trans hle, (h.swept w hw).2⟩

theorem mark (h : s.Ahead) :
    Ahead { s with
      node := s.node.markBatch (won.map (·.entry)) now, drain := .marked won } := by
  refine h.requeue rfl ?_ rfl rfl rfl (List.nil_subset _) rfl
  change (s.node.queue.markAll (won.map (·.entry)) now).Each _
  rw [Queue.markAll_eq]
  exact h.queued.updateAll fun _ he => he.markCommitted

theorem detach (h : s.Ahead) (hd : s.Drained) :
    Ahead { s with
      node := s.node.detachBatch won.length now, drain := .idle, calls := s.calls ++ [won] } := by
  refine h.requeue (s.node.sequencer_detachBatch won.length now) ?_ rfl rfl rfl
    (List.nil_subset _) rfl
  exact hd.exact.valid.detach_each h.queued fun _ _ he => he.markReady

end Drain

section Sweep

variable {before behind : List Sweep} {own floor needed : Version} {vs : List Version}

theorem sweep {w : Sweep} (w' : Sweep) (h : s.Ahead) (hs : s.sweeps = before ++ w :: behind)
    (hw : w'.version ≤ w.version) (hq : t.node.queue = s.node.queue)
    (hp : t.node.position = s.node.position)
    (hv : t.node.sequencer.visible = s.node.sequencer.visible)
    (hl : t.node.sequencer.live = s.node.sequencer.live) (hd : t.drain = s.drain)
    (ht : t.sweeps = before ++ w' :: behind) : t.Ahead := by
  have hmem : w ∈ s.sweeps := by
    rw [hs]
    exact List.mem_append_right _ (List.mem_cons_self ..)
  refine ⟨?_, ?_, ?_, ?_⟩
  · rw [hq, hv]
    exact h.queued
  · rw [hd, hv, hp]
    exact h.pending
  · rw [hl, hv, hp]
    exact h.pinned
  · rw [ht, hl, hv, hp]
    intro u hu
    have hu : u = w' ∨ u ∈ s.sweeps := by
      rw [hs]
      rcases List.mem_append.mp hu with hu | hu
      · exact .inr (List.mem_append_left _ hu)
      · exact (List.mem_cons.mp hu).imp_right fun hu =>
          List.mem_append_right _ (List.mem_cons_of_mem _ hu)
    rcases hu with rfl | hu
    · exact ⟨(hw _).trans (h.swept w hmem).1,
        fun e he => (hw _).trans ((h.swept w hmem).2 e he)⟩
    · exact h.swept u hu

theorem measure (h : s.Ahead) :
    Ahead { s with sweeps := s.sweeps ++ [.measured s.node.localMinimum] } := by
  refine ⟨h.queued, h.pending, h.pinned, ?_⟩
  intro w hw
  rcases List.mem_append.mp hw with hw | hw
  · exact h.swept w hw
  · rw [List.mem_singleton.mp hw]
    exact ⟨Live.component_minimum_le h.pinned, fun e he => Live.minimum_le he _⟩

theorem prune (h : s.Ahead) (hs : s.sweeps = before ++ .gathered floor :: behind) :
    Ahead { s with
      node := (s.node.pruneLog floor).1
      sweeps := before ++ .pruned (s.node.pruneLog floor).2 :: behind } := by
  refine h.sweep (.pruned (s.node.pruneLog floor).2) hs CommitLog.prune_le rfl rfl ?_ rfl rfl rfl
  change s.node.position.seq (s.node.log.prune s.node.position floor).1.current = _
  rw [CommitLog.current_prune]
  rfl

end Sweep

end Ahead

theorem Step.ahead (h : Step Node.Covers s t) (hd : s.Drained) (ha : s.Ahead) : t.Ahead := by
  have refl {α : Type} (l : List α) : l ⊆ l := List.Subset.refl l
  cases h with
  | begin => exact ha.begin
  | finish g => exact ha.finish
  | write tx w => exact ha.congr rfl rfl rfl (refl _) (refl _) (refl _)
  | enlist tx => exact ha.congr rfl rfl rfl (refl _) (refl _) (refl _)
  | renew tx ht => exact ha.congr rfl rfl rfl (refl _) (refl _) (refl _)
  | prepare tx now ht hc => exact ha.prepare hd ht
  | raise v => exact ha.congr rfl rfl rfl (refl _) (refl _) (refl _)
  | settle g v now hv hu hm => exact ha.settle hd hu hm
  | rollback g now hc => exact ha.rollback hd
  | learn v hm => exact ha.learn hm
  | cache tx => exact ha.congr rfl rfl rfl (refl _) (refl _) (refl _)
  | collectL1 minimum => exact ha.congr rfl rfl rfl (refl _) (refl _) (refl _)
  | aside n hq hn hl hi =>
    refine ha.congr (congrArg Sequencer.queue hq) (congrArg Sequencer.position hq)
      (congrArg Sequencer.visible hq) ?_ (refl _) (refl _)
    rw [hq]
    exact refl _
  | claim hi hw => exact ha.claim hd hi
  | pass hi hw => exact ha.pass
  | apply done x todo hi =>
    refine ha.congr rfl rfl rfl (refl _) ?_ (refl _)
    simp [hi, Drain.pending]
  | insert won hi => exact ha.insert hd hi
  | mark won now hi => exact ha.mark
  | detach won now hi => exact ha.detach hd
  | measure => exact ha.measure
  | gather before own behind ms replies vs heard floor hs hv hf =>
    exact ha.sweep (.gathered floor) hs (Position.meet?_le hf (List.mem_cons_self ..)) rfl rfl rfl
      rfl rfl rfl
  | prune before floor behind hs => exact ha.prune hs
  | collect before needed behind hs =>
    refine ha.congr rfl rfl rfl (refl _) (refl _) ?_
    rw [hs]
    exact ((List.sublist_cons_self _ behind).append_left before).subset

end Session

end Multiversion
