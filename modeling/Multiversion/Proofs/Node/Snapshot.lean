import Mathlib
import Multiversion.Proofs.Node.DrainOrder
import Multiversion.Proofs.Node.Stock
import Multiversion.Proofs.Sequencer.Transactions

namespace Multiversion.Session

variable {may : Node → Version → Prop} {s t : Session} {g : TransactionId} {v : Version} {tx : Nat}

structure Consistent (s : Session) : Prop where
  drained : s.Drained
  ahead : s.Ahead
  stocked : s.Stocked

theorem Consistent.fresh {n : Node} (h : n.Fresh) : Consistent { node := n } := by
  have hd := Drained.fresh h
  obtain ⟨p, log, hs, hdata, -⟩ := h
  have hqueue : n.queue.entries.size = 0 := by
    rw [Node.queue, hs]
    rfl
  have hpinned : n.sequencer.live.pinned = [] := by
    rw [hs]
    rfl
  refine ⟨hd, ⟨?_, ?_, ?_, ?_⟩, ⟨?_, ?_, ?_⟩⟩
  · intro m hm
    change m < n.queue.entries.size at hm
    omega
  · exact fun x hx => absurd hx List.not_mem_nil
  · intro e he
    change e ∈ n.sequencer.live.pinned at he
    rw [hpinned] at he
    cases he
  · exact fun w hw => absurd hw List.not_mem_nil
  · change n.data.Keyed
    rw [hdata]
    exact Store.Keyed.empty
  · intro key v hv
    change v ∈ n.data.versions key at hv
    rw [hdata] at hv
    cases hv
  · intro key bound _
    change Stored.reads n.position bound (n.data.versions key) = _
    rw [hdata]
    rfl

theorem Step.consistent (h : Step Node.Covers s t) (hs : s.Consistent) : t.Consistent :=
  ⟨h.drained hs.drained, h.ahead hs.drained hs.ahead, h.stocked hs.drained hs.ahead hs.stocked⟩

theorem Run.consistent (h : Run Node.Covers s t) (hs : s.Consistent) : t.Consistent := by
  induction h with
  | refl => exact hs
  | tail _ hst ih => exact hst.consistent ih

theorem Run.applied (h : Run Node.Covers s t) (hs : s.Consistent) : ∃ more,
    t.applied = s.applied ++ more ∧
      ∀ x ∈ more, s.node.sequencer.visible < x.seq s.node.position := by
  induction h with
  | refl => exact ⟨[], (List.append_nil _).symm, fun x hx => absurd hx List.not_mem_nil⟩
  | @tail r u hr hst ih =>
    obtain ⟨more, he, hm⟩ := ih
    cases hst.shift with
    | keep hd ha => exact ⟨more, ha.trans he, hm⟩
    | collect w hw hd ha => exact ⟨more, ha.trans he, hm⟩
    | apply x todo hx hw hd ha =>
      refine ⟨more ++ [x], by rw [ha, he, List.append_assoc], ?_⟩
      intro y hy
      rcases List.mem_append.mp hy with hy | hy
      · exact hm y hy
      · obtain rfl := List.mem_singleton.mp hy
        have hlt := (Run.consistent hr hs).ahead.pending y hx
        have hl := Run.later hr
        have hle : s.node.sequencer.visible ≤ r.node.sequencer.visible := by
          change _ ≤ r.node.position.seq r.node.log.current
          rw [hl.position]
          exact hl.current _
        rw [hl.position] at hlt
        exact hle.trans_lt hlt

structure Reads (g : TransactionId) (v : Version) (tx : Nat) (s : Session) : Prop where
  origin : g.origin = s.node.ids.origin
  drawn : g.sequence < s.node.ids.next
  pinned : ∀ e ∈ s.node.sequencer.live.pinned, e.1 = g → e.2 = v
  known : tx < s.node.sequencer.inFlight.transactions.all.size
  id : (s.node.transaction tx).id = g
  snapshot : (s.node.transaction tx).snapshot = v

theorem Step.keeps (h : Step may s t) : s.node.sequencer.inFlight.transactions.Keeps
    t.node.sequencer.inFlight.transactions := by
  cases h with
  | begin => exact Transactions.keeps_push
  | write tx w => exact Transactions.keeps_update (fun _ => rfl) fun _ => rfl
  | enlist tx => exact Transactions.keeps_enlist
  | renew tx ht => exact Transactions.keeps_renew ht
  | prepare tx now =>
    change Transactions.Keeps _ (s.node.prepare tx now).1.sequencer.inFlight.transactions
    rcases s.node.sequencer_prepare tx now with e | e
    · rw [e]
      exact Sequencer.keeps_prepare
    · rw [e]
      exact Transactions.keeps_update (fun _ => rfl) fun _ => rfl
  | settle g v now => exact Sequencer.keeps_settle
  | rollback g now => exact Sequencer.keeps_rollback
  | detach won now =>
    change Transactions.Keeps _ (s.node.detachBatch won.length now).sequencer.inFlight.transactions
    rw [Node.sequencer_detachBatch]
    exact .refl
  | aside n hs =>
    rw [hs]
    exact .refl
  | _ => exact .refl

theorem Step.ids (h : Step may s t) : t.node.ids.origin = s.node.ids.origin ∧
    s.node.ids.next ≤ t.node.ids.next := by
  cases h with
  | begin => exact ⟨rfl, Nat.le_succ _⟩
  | detach won now =>
    have e : (s.node.detachBatch won.length now).ids = s.node.ids := by
      simp only [Node.detachBatch, Node.notifyCommitted]
      split <;> rfl
    exact ⟨congrArg IdSource.origin e, (congrArg IdSource.next e).ge⟩
  | aside n hs hd hl hi => exact ⟨congrArg IdSource.origin hi, (congrArg IdSource.next hi).ge⟩
  | _ => exact ⟨rfl, Nat.le_refl _⟩

theorem Step.live (h : Step may s t) :
    t.node.sequencer.live = s.node.sequencer.live ∨
    t.node.sequencer.live = s.node.sequencer.live.register
      ⟨s.node.ids.origin, s.node.ids.next⟩ s.node.log.current ∨
    ∃ g, t = { s with node := s.node.finish g } := by
  cases h with
  | begin => exact .inr (.inl rfl)
  | finish g => exact .inr (.inr ⟨g, rfl⟩)
  | prepare tx now =>
    refine .inl ?_
    rcases s.node.sequencer_prepare tx now with e | e
    · exact (congrArg Sequencer.live e).trans rfl
    · exact (congrArg Sequencer.live e).trans rfl
  | settle g v now => exact .inl Sequencer.live_settle
  | rollback g now => exact .inl Sequencer.live_rollback
  | detach won now =>
    exact .inl ((congrArg Sequencer.live (s.node.sequencer_detachBatch won.length now)).trans rfl)
  | aside n hs => exact .inl (congrArg Sequencer.live hs)
  | _ => exact .inl rfl

theorem reads_begin : Reads ⟨s.node.ids.origin, s.node.ids.next⟩ s.node.log.current
    s.node.begin.1 { s with node := s.node.begin.2 } := by
  have hget : ({ s with node := s.node.begin.2 } : Session).node.transaction s.node.begin.1 =
      .start ⟨s.node.ids.origin, s.node.ids.next⟩ s.node.log.current := by
    exact Transactions.get_push
  refine ⟨rfl, Nat.lt_succ_self _, ?_, ?_, ?_, ?_⟩
  · intro e he hge
    rcases List.mem_append.mp he with he | he
    · exact absurd hge (of_decide_eq_true (List.mem_filter.mp he).2)
    · rw [List.mem_singleton.mp he]
      rfl
  · exact Transactions.lt_size_push
  · rw [hget]
    rfl
  · rw [hget]
    rfl

theorem Step.reads (h : Step may s t) (hr : s.Reads g v tx) : t.Reads g v tx := by
  obtain ⟨ho, hn⟩ := h.ids
  have hk := h.keeps
  refine ⟨hr.origin.trans ho.symm, hr.drawn.trans_le hn, ?_, hr.known.trans_le hk.size, ?_, ?_⟩
  · intro e he heg
    rcases h.live with hl | hl | ⟨g', rfl⟩
    · exact hr.pinned e (hl ▸ he) heg
    · rw [hl] at he
      rcases Live.mem_register he with he | rfl
      · exact hr.pinned e he heg
      · subst heg
        exact absurd hr.drawn (Nat.lt_irrefl _)
    · exact hr.pinned e (List.mem_filter.mp he).1 heg
  · exact (hk.id tx hr.known).trans hr.id
  · exact (hk.snapshot tx hr.known).trans hr.snapshot

theorem Run.reads (h : Run may s t) (hr : s.Reads g v tx) : t.Reads g v tx := by
  induction h with
  | refl => exact hr
  | tail _ hst ih => exact hst.reads ih

/-- From its begin to its end a transaction reads the last write at or below its snapshot, among all
    that the node applies before the read or after it. -/
theorem read_eq_lastWrite {n : Node} {r u : Session} (hn : n.Fresh)
    (hs : Run Node.Covers { node := n } s)
    (hb : Run Node.Covers { s with node := s.node.begin.2 } r)
    (hl : r.node.sequencer.live.holds (r.node.transaction s.node.begin.1).id = true)
    (hu : Run Node.Covers r u) (key : String) :
    (r.node.transaction s.node.begin.1).snapshot = s.node.log.current ∧
    r.node.read (r.node.transaction s.node.begin.1).snapshot key =
      Committed.lastWrite n.position (u.applied.map (·.record)) key
        (n.position.seq (r.node.transaction s.node.begin.1).snapshot) := by
  have hbegin : Step Node.Covers s { s with node := s.node.begin.2 } := .begin s
  have hcr := hb.consistent (hbegin.consistent (hs.consistent (.fresh hn)))
  have hr := hb.reads reads_begin
  have hpr : r.node.position = n.position :=
    hb.later.position.trans (hbegin.later.position.trans hs.later.position)
  have hpu : u.node.position = n.position := hu.later.position.trans hpr
  obtain ⟨more, he, hm⟩ := hu.applied hcr
  obtain ⟨e, he', hge⟩ := List.any_eq_true.mp hl
  have hpin : e.2 = s.node.log.current :=
    hr.pinned e he' ((of_decide_eq_true hge).trans hr.id)
  have hle : r.node.position.seq s.node.log.current ≤ r.node.sequencer.visible :=
    hpin ▸ hcr.ahead.pinned e he'
  refine ⟨hr.snapshot, ?_⟩
  rw [hr.snapshot, Node.read, Store.read_eq,
    hcr.stocked.kept key _ (.inr ⟨_, List.mem_map_of_mem he', congrArg _ hpin⟩), written,
    Committed.lastWrite_eq, he, List.map_append, Committed.reads_append, hpr]
  · intro tx htx
    obtain ⟨x, hx, rfl⟩ := List.mem_map.mp htx
    rw [← hpr]
    exact hle.trans_lt (hm x hx)
  · rw [← hpu]
    exact (hu.consistent hcr).drained.ranked

def reading : Node := (grouped.applyReady 0).1.begin.2

def reader : Nat := (grouped.applyReady 0).1.begin.1

def rewriting : Node := (reading.begin.2.write 3 ⟨"a", some [3]⟩)

def rewritten : Node := ((rewriting.prepare 3 0).1.commit ⟨default, 4⟩ ⟨1, 0, [9]⟩ 0).1

theorem run_rewritten {calls : List (List Delivery)} :
    Run may { node := reading, calls } { node := rewritten, calls } := by
  have h0 : rewriting.queue.find? (rewriting.transaction 3).id = none := by decide +kernel
  have h1 : (rewriting.prepare 3 0).1.queue.find? ⟨default, 4⟩ = some 2 := by decide +kernel
  have begun : Run may { node := reading, calls } { node := rewriting, calls } :=
    .head (.begin _) (.single (.write _ 3 ⟨"a", some [3]⟩))
  have prepared : Run may { node := rewriting, calls }
      { node := (rewriting.prepare 3 0).1, calls } := by
    refine .single (.prepare { node := rewriting, calls } 3 0 ?_ fun n hn => ?_)
    · change 3 < rewriting.sequencer.inFlight.transactions.all.size
      decide +kernel
    · rw [h0] at hn
      cases hn
  have committed : Run may { node := (rewriting.prepare 3 0).1, calls }
      { node := rewritten, calls } := by
    refine Run.commit (s := { node := (rewriting.prepare 3 0).1, calls }) (fun n hn => ?_)
      fun hn => ?_
    · rw [h1] at hn
      cases hn
      change ((rewriting.prepare 3 0).1.queue.entry 2).received = false ∧
        (rewriting.prepare 3 0).1.queue.order 2 ≤ (rewriting.prepare 3 0).1.position.seq ⟨1, 0, [9]⟩
      decide +kernel
    · rw [h1] at hn
      cases hn
  exact (begun.trans prepared).trans committed

theorem read_eq_lastWrite_rewritten : ∃ r : Session, Run Node.Covers { node := alone } r ∧
    r.node.read r.node.log.current "a" = some [3] ∧
    r.node.read (r.node.transaction reader).snapshot "a" = some [2] ∧
    Committed.lastWrite alone.position (r.applied.map (·.record)) "a"
      (alone.position.seq (r.node.transaction reader).snapshot) = some [2] := by
  obtain ⟨won, -, h1⟩ := Run.applyReady Node.Covers grouped [] [] [] 0
  have hs := run_grouped.trans h1
  obtain ⟨won', -, h2⟩ := Run.applyReady Node.Covers rewritten [] ([] ++ [won]) [] 0
  have hb := run_rewritten.trans h2
  have hl : (rewritten.applyReady 0).1.sequencer.live.holds
      ((rewritten.applyReady 0).1.transaction reader).id = true := by decide +kernel
  have hlast : (rewritten.applyReady 0).1.read (rewritten.applyReady 0).1.log.current "a" =
      some [3] := by decide +kernel
  have hread : (rewritten.applyReady 0).1.read
      ((rewritten.applyReady 0).1.transaction reader).snapshot "a" = some [2] := by decide +kernel
  have h := read_eq_lastWrite (Node.fresh_install ..) hs hb hl .refl "a"
  exact ⟨_, (hs.tail (.begin _)).trans hb, hlast, hread, h.2.symm.trans hread⟩

end Multiversion.Session
