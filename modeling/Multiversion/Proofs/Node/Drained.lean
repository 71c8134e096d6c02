import Mathlib
import Multiversion.Proofs.Node.Session
import Multiversion.Proofs.Sequencer.Readiness

namespace Multiversion.Session

variable {may : Node → Version → Prop} {s t : Session}

structure Drained (s : Session) : Prop where
  exact : s.node.sequencer.Exact s.raised
  drains : s.node.queue.Drains s.node.position s.calls s.drain.won s.drain.isMarked
  ordered : (s.calls.flatten ++ s.drain.won).Pairwise (Delivery.Before s.node.position)
  apart : (s.calls ++ [s.drain.won]).Pairwise (Delivery.Apart s.node.position)

namespace Drained

theorem congr (h : s.Drained) (hq : t.node.queue = s.node.queue)
    (hp : t.node.position = s.node.position)
    (hl : t.node.sequencer.lastPrepared = s.node.sequencer.lastPrepared)
    (hr : ∀ v ∈ t.raised, v ∈ s.raised) (hw : t.drain.won = s.drain.won)
    (hm : t.drain.isMarked = s.drain.isMarked) (hc : t.calls = s.calls) : t.Drained := by
  refine ⟨h.exact.congr hq hp hl.ge fun v hv => .inl (hr v hv), ?_, ?_, ?_⟩
  · rw [hq, hp, hw, hm, hc]
    exact h.drains
  · rw [hp, hw, hc]
    exact h.ordered
  · rw [hp, hw, hc]
    exact h.apart

theorem requeue {u : Sequencer} (h : s.Drained) (e : t.node.sequencer = u) (hx : u.Exact t.raised)
    (hp : u.position = s.node.position)
    (hd : u.queue.Drains s.node.position s.calls s.drain.won s.drain.isMarked)
    (hw : t.drain = s.drain) (hc : t.calls = s.calls) : t.Drained := by
  subst e
  have hp : t.node.position = s.node.position := hp
  refine ⟨hx, ?_, ?_, ?_⟩
  · rw [hp, hw, hc]
    exact hd
  · rw [hp, hw, hc]
    exact h.ordered
  · rw [hp, hw, hc]
    exact h.apart

section Calls

variable {g : TransactionId} {v : Version} {tx : Nat} {now : Time}

theorem prepare (h : s.Drained) (ht : tx < s.node.sequencer.inFlight.transactions.all.size)
    (hc : ∀ n, s.node.queue.find? (s.node.transaction tx).id = some n →
      (s.node.queue.entry n).claimed = false) :
    Drained { s with node := (s.node.prepare tx now).1 } := by
  rcases s.node.sequencer_prepare tx now with e | e
  · refine h.requeue e (h.exact.prepare ht) rfl ?_ rfl rfl
    rw [Sequencer.queue_prepare ht]
    exact h.drains.prepare hc fun m hm =>
      (h.exact.bounded m hm).trans_lt Sequencer.lastPrepared_lt_next
  · have hx : (s.node.sequencer.prepareReadOnly tx).1.Exact s.raised :=
      h.exact.congr rfl rfl (Nat.le_refl _) fun v hv => .inl hv
    exact h.requeue e hx rfl h.drains rfl rfl

theorem raise (h : s.Drained) :
    Drained { s with node := s.node.raise v, raised := v :: s.raised } :=
  h.requeue rfl h.exact.raise rfl h.drains rfl rfl

theorem settle (h : s.Drained) (hv : v ∈ s.raised)
    (hu : ∀ n, s.node.queue.find? g = some n → (s.node.queue.entry n).received = false ∧
      s.node.queue.order n ≤ s.node.position.seq v) :
    Drained { s with node := (s.node.settle g v now).1, raised := s.raised.erase v } := by
  have hx : (s.node.sequencer.settle g v now).1.Exact s.raised :=
    h.exact.settle hv fun n hn => (hu n hn).1
  have hx' : (s.node.sequencer.settle g v now).1.Exact (s.raised.erase v) :=
    hx.congr rfl rfl (Nat.le_refl _) fun w hw => .inl (List.mem_of_mem_erase hw)
  refine h.requeue (u := (s.node.sequencer.settle g v now).1) rfl hx' Sequencer.position_settle ?_
    rfl rfl
  rw [Sequencer.queue_settle h.exact.valid]
  exact h.drains.commit hu

theorem rollback (h : s.Drained)
    (hc : ∀ n, s.node.queue.find? g = some n → (s.node.queue.entry n).claimed = false) :
    Drained { s with node := (s.node.rollback g now).1 } := by
  refine h.requeue (u := (s.node.sequencer.rollback g now).1) rfl h.exact.rollback
    Sequencer.position_rollback ?_ rfl rfl
  rw [Sequencer.queue_rollback h.exact.valid]
  exact h.drains.rollback hc

end Calls

section Drain

variable {done todo won : List Delivery} {x : Delivery} {now : Time}

theorem queue_claimReady (n : Node) :
    n.claimReady.1.queue = (n.queue.claimAll n.queue.readyPrefix).1 := rfl

theorem claimed (h : s.Drained) (hd : s.drain = .idle) :
    ∃ won, s.node.claimReady.1.deliveries s.node.claimReady.2 = won ∧
      s.node.claimReady.2 = s.node.queue.readyPrefix ∧
      s.node.claimReady.1.sequencer.Exact s.raised ∧
      s.node.claimReady.1.queue.Drains s.node.position s.calls won false ∧
      won.map (·.entry) = s.node.queue.readyPrefix ∧
      won.Pairwise (Delivery.Before s.node.position) ∧
      Delivery.Apart s.node.position s.calls.flatten won := by
  have hdr := h.drains
  rw [hd] at hdr
  have hx : s.node.queue.Exact := h.exact.exact
  have hready {n} (hn : n ∈ s.node.queue.readyPrefix) : n ∈ s.node.queue.line :=
    (List.takeWhile_sublist _).subset hn
  have hwon : s.node.claimReady.2 = s.node.queue.readyPrefix :=
    Queue.claimAll_snd (hdr.steady.valid.nodup.sublist (List.takeWhile_sublist _))
      (fun n hn => hdr.steady.valid.known (hready hn)) fun n hn => Queue.unclaimed hdr (hready hn)
  obtain ⟨won, hw⟩ : ∃ won, s.node.claimReady.1.deliveries s.node.claimReady.2 = won := ⟨_, rfl⟩
  have hentries : won.map (·.entry) = s.node.queue.readyPrefix := by
    rw [← hw, hwon, Node.deliveries, List.map_map]
    exact List.map_id _
  have hrecorded : ∀ x ∈ won, s.node.queue.Recorded x := by
    intro x hx
    obtain ⟨n, hn, rfl⟩ := List.mem_map.mp (hw ▸ hx)
    exact ⟨Queue.claimAll_keeps Entry.id fun _ => rfl,
      Queue.claimAll_keeps Entry.version fun _ => rfl, Queue.claimAll_keeps Entry.sub fun _ => rfl⟩
  refine ⟨won, hw, hwon, (Sequencer.Run.claimAll.exact h.exact).1, ?_, hentries, ?_, ?_⟩
  · exact hdr.claimAll hx h.exact.stamped hentries hrecorded
  · exact Queue.won_before hdr hx h.exact.stamped hentries hrecorded
  · exact fun x hx' y hy => Queue.past_lt_won hdr hx h.exact.stamped hentries hrecorded hx' hy

theorem extend {p : Position} {calls : List (List Delivery)}
    (ho : calls.flatten.Pairwise (Delivery.Before p))
    (ha : calls.Pairwise (Delivery.Apart p))
    (hw : won.Pairwise (Delivery.Before p))
    (hlt : Delivery.Apart p calls.flatten won) :
    (calls.flatten ++ won).Pairwise (Delivery.Before p) ∧
      (calls ++ [won]).Pairwise (Delivery.Apart p) := by
  refine ⟨List.pairwise_append.mpr ⟨ho, hw, fun x hx y hy => .inl (hlt x hx y hy)⟩, ?_⟩
  refine List.pairwise_append.mpr ⟨ha, List.pairwise_singleton _ _, ?_⟩
  intro c hc d hd x hx y hy
  rw [List.mem_singleton] at hd
  subst hd
  exact hlt x (List.mem_flatten.mpr ⟨c, hc, hx⟩) y hy

theorem apart_concat_nil {p : Position} {calls : List (List Delivery)}
    (ha : calls.Pairwise (Delivery.Apart p)) : (calls ++ [[]]).Pairwise (Delivery.Apart p) := by
  refine List.pairwise_append.mpr ⟨ha, List.pairwise_singleton _ _, ?_⟩
  intro c _ d hd
  rw [List.mem_singleton.mp hd]
  exact Delivery.apart_nil

theorem claim (h : s.Drained) (hd : s.drain = .idle) :
    Drained { s with
      node := s.node.claimReady.1
      drain := .applying [] (s.node.claimReady.1.deliveries s.node.claimReady.2) } := by
  obtain ⟨won, hw, -, hx, hdr, -, hb, hlt⟩ := h.claimed hd
  have ho := h.ordered
  rw [hd] at ho
  obtain ⟨h1, h2⟩ :=
    extend (List.pairwise_append.mp ho).1 (List.pairwise_append.mp h.apart).1 hb hlt
  rw [hw]
  exact ⟨hx, hdr, h1, h2⟩

theorem pass (h : s.Drained) (hd : s.drain = .idle) (hn : s.node.claimReady.2 = []) :
    Drained { s with node := s.node.claimReady.1, calls := s.calls ++ [[]] } := by
  obtain ⟨won, hw, -, hx, hdr, -, hb, hlt⟩ := h.claimed hd
  have hflat : (s.calls ++ [[]]).flatten = s.calls.flatten := by simp
  have ho := h.ordered
  have ha := h.apart
  obtain rfl : won = [] := by rw [← hw, hn]; rfl
  rw [hd] at ho ha
  refine ⟨hx, ?_, ?_, ?_⟩
  · rw [hd]
    exact hdr.congr_past hflat
  · rw [hd, hflat]
    exact ho
  · rw [hd]
    exact apart_concat_nil ha

theorem mark (h : s.Drained) (hd : s.drain = .inserted won) :
    Drained { s with
      node := s.node.markBatch (won.map (·.entry)) now, drain := .marked won } := by
  have hdr := h.drains
  have ho := h.ordered
  have ha := h.apart
  rw [hd] at hdr ho ha
  exact ⟨(Sequencer.Run.markAll.exact h.exact).1, hdr.markAll, ho, ha⟩

theorem detach (h : s.Drained) (hd : s.drain = .marked won) :
    Drained { s with
      node := s.node.detachBatch won.length now, drain := .idle, calls := s.calls ++ [won] } := by
  have e := s.node.sequencer_detachBatch won.length now
  have hdr := h.drains
  have ho := h.ordered
  have ha := h.apart
  rw [hd] at hdr ho ha
  have hp : (s.node.detachBatch won.length now).position = s.node.position := by
    rw [Node.position, e]
    rfl
  have hq : (s.node.detachBatch won.length now).queue = (s.node.queue.detach now).1 := by
    rw [Node.queue, e]
    rfl
  have hflat : (s.calls ++ [won]).flatten ++ [] = s.calls.flatten ++ won := by simp
  refine ⟨?_, ?_, ?_, ?_⟩
  · change (s.node.detachBatch won.length now).sequencer.Exact s.raised
    rw [e]
    exact h.exact.detach
  · change (s.node.detachBatch won.length now).queue.Drains
      (s.node.detachBatch won.length now).position (s.calls ++ [won]) [] false
    rw [hq, hp]
    exact hdr.detach rfl
  · change ((s.calls ++ [won]).flatten ++ []).Pairwise
      (Delivery.Before (s.node.detachBatch won.length now).position)
    rw [hflat, hp]
    exact ho
  · change (s.calls ++ [won] ++ [[]]).Pairwise
      (Delivery.Apart (s.node.detachBatch won.length now).position)
    rw [hp]
    exact apart_concat_nil ha

end Drain

end Drained

theorem Drained.fresh {n : Node} (h : n.Fresh) : Drained { node := n } := by
  obtain ⟨p, log, hs, -⟩ := h
  have hx : n.sequencer.Exact [] := hs ▸ Sequencer.Exact.onLog
  have hline : n.queue.line = [] := by
    rw [Node.queue, hs]
    rfl
  have hsize : n.queue.entries.size = 0 := by
    rw [Node.queue, hs]
    rfl
  refine ⟨hx, ⟨?_, ?_, ?_, ?_, ?_, ?_, ?_, ?_, ?_⟩, List.Pairwise.nil, List.pairwise_singleton _ _⟩
  · change n.sequencer.queue.Steady
    rw [hs]
    exact Queue.Steady.empty
  all_goals simp [hline, hsize, Drain.won]

theorem Step.drained (h : Step may s t) (hs : s.Drained) : t.Drained := by
  cases h with
  | begin => exact hs.congr rfl rfl rfl (fun v hv => hv) rfl rfl rfl
  | finish g => exact hs.congr rfl rfl rfl (fun v hv => hv) rfl rfl rfl
  | write tx w => exact hs.congr rfl rfl rfl (fun v hv => hv) rfl rfl rfl
  | enlist tx => exact hs.congr rfl rfl rfl (fun v hv => hv) rfl rfl rfl
  | renew tx ht => exact hs.congr rfl rfl rfl (fun v hv => hv) rfl rfl rfl
  | prepare tx now ht hc => exact hs.prepare ht hc
  | raise v => exact hs.raise
  | settle g v now hv hu hm => exact hs.settle hv hu
  | rollback g now hc => exact hs.rollback hc
  | learn v hm => exact hs.congr rfl rfl rfl (fun v hv => hv) rfl rfl rfl
  | cache tx => exact hs.congr rfl rfl rfl (fun v hv => hv) rfl rfl rfl
  | collectL1 minimum => exact hs.congr rfl rfl rfl (fun v hv => hv) rfl rfl rfl
  | aside n hq hd hl hi =>
    exact hs.congr (congrArg Sequencer.queue hq) (congrArg Sequencer.position hq)
      (congrArg Sequencer.lastPrepared hq) (fun v hv => hv) rfl rfl rfl
  | claim hd hw => exact hs.claim hd
  | pass hd hw => exact hs.pass hd hw
  | apply done x todo hd =>
    exact hs.congr rfl rfl rfl (fun v hv => hv) (by simp [hd, Drain.won]) (by rw [hd]; rfl) rfl
  | insert won hd =>
    exact hs.congr rfl rfl rfl (fun v hv => hv) (by simp [hd, Drain.won]) (by rw [hd]; rfl) rfl
  | mark won now hd => exact hs.mark hd
  | detach won now hd => exact hs.detach hd
  | measure => exact hs.congr rfl rfl rfl (fun v hv => hv) rfl rfl rfl
  | gather before own behind ms replies vs heard floor hw ha hf =>
    exact hs.congr rfl rfl rfl (fun v hv => hv) rfl rfl rfl
  | prune before floor behind hw => exact hs.congr rfl rfl rfl (fun v hv => hv) rfl rfl rfl
  | collect before needed behind hw => exact hs.congr rfl rfl rfl (fun v hv => hv) rfl rfl rfl

end Multiversion.Session
