import Mathlib
import Multiversion.Proofs.Node.DrainOrder
import Multiversion.Proofs.Queue.Refinement
import Multiversion.Proofs.Simulation.Start

namespace Multiversion

namespace Node

variable {n m : Node} {d : Drain} {past : List (List Delivery)} {k fuel : Nat} {now : Time}
  {v : Version}

def Decided (n : Node) : Prop := ∀ k < n.sequencer.met, n.sequencer.Holds k .decided

theorem Decided.serves (h : n.Decided) (hs : n.Serves n.sequencer.met 0 m) : m.Decided := by
  intro k hk
  rw [hs.met] at hk
  exact (hs.spares k hk hk.ne).holds (h k hk)

theorem InOrder.received (h : n.InOrder d past) (hd : n.Decided) :
    ∀ e ∈ n.queue.line, (n.queue.entry e).received = true := by
  intro e he
  obtain ⟨ht, hi⟩ := h.named.owned e he
  refine (hd _ ht).2 e ?_
  rw [Sequencer.queued?, hi]
  exact h.valid.find?_eq_some_iff.mpr ⟨he, rfl⟩

/-- All that is left to do is to apply, and `k` commits will then have been applied. -/
structure Closes (k : Nat) (n : Node) : Prop where
  inOrder : ∃ past, n.InOrder .idle past
  decided : n.Decided
  settled : n.queue.settled = k

namespace Closes

variable (h : n.Closes k)
include h

theorem tended (hm : n.Tended m) : m.Closes k := by
  obtain ⟨past, hn⟩ := h.inOrder
  have hs : n.Serves n.sequencer.met 0 m := hm.serves
  exact ⟨⟨past, hm.inOrder hn⟩, h.decided.serves hs, hs.gain.trans h.settled⟩

theorem applyReady (now : Time) :
    (n.applyReady now).1.Closes k ∧ (n.applyReady now).1.queue.line = [] := by
  obtain ⟨past, hn⟩ := h.inOrder
  obtain ⟨won, hm, hs⟩ := hn.applyReady (k := n.sequencer.met) now rfl
  have hd := h.decided.serves hs
  refine ⟨⟨⟨_, hm⟩, hd, hs.gain.trans h.settled⟩, List.eq_nil_iff_forall_not_mem.mpr fun e he => ?_⟩
  have hready : ((n.applyReady now).1.queue.entry e).ready = true :=
    (hm.exact e he).mpr fun e' he' _ => hm.received hd e' he'
  rw [hn.drained.applyReady_unready rfl e he] at hready
  cases hready

theorem drain (hf : 0 < fuel ∨ n.queue.line = []) :
    (Simulation.drain fuel n).1.Closes k ∧ (Simulation.drain fuel n).1.queue.line = [] := by
  induction fuel generalizing n with
  | zero => exact ⟨h, hf.resolve_left (Nat.lt_irrefl 0)⟩
  | succ fuel ih =>
    obtain ⟨hm, hl⟩ := h.applyReady 0
    obtain ⟨⟨m, txs, ns⟩, ha⟩ : ∃ r, n.applyReady 0 = r := ⟨_, rfl⟩
    rw [ha] at hm hl
    rw [Simulation.drain, ha]
    cases txs with
    | nil => exact ⟨hm, hl⟩
    | cons tx txs => exact ih hm (.inr hl)

end Closes

theorem ascending_of_pairwise {l : List Nat} (h : l.Pairwise (· ≤ ·)) :
    NodeReport.ascending l = true :=
  List.all_eq_true.mpr fun x hx => decide_eq_true (rel_of_mem_zip_tail h.isChain x hx)

theorem Closes.report (h : n.Closes k) (hl : n.queue.line = []) :
    (NodeReport.ofNode n).isClean = true ∧ (NodeReport.ofNode n).queueSize = 0 ∧
      (NodeReport.ofNode n).applied = k := by
  obtain ⟨past, hn⟩ := h.inOrder
  have hsize : n.queue.size = 0 := by
    rw [show n.queue.size = n.queue.line.length from hn.valid.size_eq, hl]
    rfl
  have hordered : NodeReport.ascending n.applied = true := ascending_of_pairwise hn.ordered
  refine ⟨?_, hsize, (hn.length_applied rfl hl).trans h.settled⟩
  simp [NodeReport.isClean, NodeReport.ofNode, hordered, hsize]

end Node

namespace Simulation

variable {s : Simulation} {a b : Address} {f : Node → Node × List Notice} {l : List Address}
  {o : Options}

theorem node?_onNode : (s.onNode a f).cluster.node? b =
    (s.cluster.node? b).map fun n => if b = a then (f n).1 else n := by
  rw [onNode]
  split
  next n hn =>
    change (s.cluster.editNode a fun _ => (f n).1).node? b = _
    rw [Cluster.node?_put hn]
    by_cases hb : b = a
    · rw [hb, hn]
      simp
    · simp [hb]
  next hn =>
    by_cases hb : b = a
    · rw [hb, hn]
      rfl
    · simp [hb]

theorem housed_onNode {seats : List Address} (h : s.cluster.Housed seats) :
    (s.onNode a f).cluster.Housed seats := by
  rw [onNode]
  split
  · exact h.edit
  · exact h

theorem foldl_onNode (hd : l.Nodup) :
    let t := l.foldl (fun s a => s.onNode a f) s
    t.seats = s.seats ∧ t.threads = s.threads ∧
      (∀ seats, s.cluster.Housed seats → t.cluster.Housed seats) ∧
      ∀ b, t.cluster.node? b = (s.cluster.node? b).map fun n => if b ∈ l then (f n).1 else n := by
  induction l generalizing s with
  | nil => exact ⟨rfl, rfl, fun _ h => h, fun b => by simp⟩
  | cons a l ih =>
    obtain ⟨ha, hd⟩ := List.nodup_cons.mp hd
    obtain ⟨hs, ht, hh, hn⟩ := ih (s := s.onNode a f) hd
    refine ⟨hs.trans onNode_seats, ht.trans onNode_threads,
      fun seats h => hh seats (housed_onNode h), fun b => ?_⟩
    rw [List.foldl_cons, hn, node?_onNode, Option.map_map]
    congr 1
    funext n
    by_cases hb : b = a
    · subst hb
      simp [ha]
    · simp [hb]

structure Closing (k : Address → Nat) (s : Simulation) : Prop where
  seated : s.seats ≠ []
  distinct : s.seats.Nodup
  housed : s.cluster.Housed s.seats
  nodes : ∀ a n, s.cluster.node? a = some n → n.Closes (k a)

structure Spent (k : Address → Nat) (s : Simulation) : Prop extends Closing k s where
  lines : ∀ a n, s.cluster.node? a = some n → n.queue.line = []

variable {k : Address → Nat} {t : Simulation}

theorem Closing.drainAll (h : s.Closing k) :
    s.drainAll.Spent k ∧ s.drainAll.seats = s.seats ∧ s.drainAll.threads = s.threads := by
  obtain ⟨hs, ht, hh, hn⟩ :=
    foldl_onNode (s := s) (f := fun n => drain (n.queue.size + 1) n) h.distinct
  change s.drainAll.seats = _ at hs
  change s.drainAll.threads = _ at ht
  change ∀ b, s.drainAll.cluster.node? b = _ at hn
  have each (a : Address) (n : Node) (ha : s.drainAll.cluster.node? a = some n) :
      n.Closes (k a) ∧ n.queue.line = [] := by
    rw [hn] at ha
    obtain ⟨m, hm, rfl⟩ := Option.map_eq_some_iff.mp ha
    rw [if_pos (h.housed.mem hm)]
    exact (h.nodes a m hm).drain (.inl (Nat.succ_pos _))
  refine ⟨⟨⟨by rw [hs]; exact h.seated, by rw [hs]; exact h.distinct, by
    rw [hs]
    exact hh _ h.housed, fun a n ha => (each a n ha).1⟩, fun a n ha => (each a n ha).2⟩, hs, ht⟩

namespace Spent

theorem tends (h : s.Spent k) (hs : t.seats = s.seats) (hc : s.cluster.Tends t.cluster) :
    t.Spent k := by
  refine ⟨⟨by rw [hs]; exact h.seated, by rw [hs]; exact h.distinct, by
    rw [hs]
    exact hc.housed h.housed, fun a m hm => ?_⟩, fun a m hm => ?_⟩
  all_goals obtain ⟨n, hn, hnm⟩ := hc.back hm
  · exact (h.nodes a n hn).tended hnm
  · rw [hnm.queue]
    exact h.lines a n hn

theorem runs (h : s.Spent k) : s.cluster.Runs := by
  intro a n hn
  obtain ⟨past, hi⟩ := (h.nodes a n hn).inOrder
  exact hi.running

end Spent

theorem tends_exchange : s.exchange.seats = s.seats ∧ s.exchange.threads = s.threads ∧
    s.cluster.Tends s.exchange.cluster := by
  refine tends_foldl_onNode (fun n => ?_) s.seats
  dsimp only
  induction s.nodes.map (fun n => n.log.current) generalizing n with
  | nil => exact .refl
  | cons v vs ih =>
    have hlearn : n.Tended (n.learn v) := ⟨rfl, rfl, rfl, rfl, rfl, rfl⟩
    exact hlearn.trans (ih (n.learn v))

def Collected (s : Simulation) (cycles : Nat)
    (r : Simulation × Except GcError (List GcOutcome)) : Prop :=
  r.1.seats = s.seats ∧ r.1.threads = s.threads ∧ s.cluster.Tends r.1.cluster ∧
    ∃ outcomes, r.2 = .ok outcomes ∧ outcomes.length = cycles

theorem Collected.cycle {r : Simulation × Except GcError (List GcOutcome)} {cycles : Nat}
    (run : Cluster → Cluster × Except GcError GcOutcome × List Notice) (h : s.Spent k)
    (hr : s.Collected cycles r)
    (hrun : ∀ c : Cluster, c.Housed s.seats → c.Runs →
      c.Tends (run c).1 ∧ ∃ outcome, (run c).2.1 = .ok outcome) :
    s.Collected (cycles + 1) (cycle run r) := by
  obtain ⟨t, result⟩ := r
  obtain ⟨hs, ht, hc, outcomes, rfl, hlen⟩ := hr
  obtain ⟨htends, outcome, hok⟩ := hrun t.cluster (hc.housed h.housed) (hc.runs h.runs)
  refine ⟨hs, ht, hc.trans htends, outcomes ++ [outcome], ?_, ?_⟩
  · simp only [Simulation.cycle, hok]
    rfl
  · rw [List.length_append, hlen, List.length_singleton]

theorem Spent.collect (h : s.Spent k) :
    s.Collected (2 * s.seats.length + 1) s.collect := by
  have each (l : List Address) (hl : ∀ a ∈ l, a ∈ s.seats)
      (r : Simulation × Except GcError (List GcOutcome)) (cycles : Nat)
      (hr : s.Collected cycles r) : s.Collected (cycles + 2 * l.length)
        (l.foldl (fun r a => Simulation.cycle (·.l1Gc a 0) (Simulation.cycle (·.versionGc a 0) r))
          r) := by
    induction l generalizing r cycles with
    | nil => exact hr
    | cons a l ih =>
      obtain ⟨ha, hl⟩ := List.forall_mem_cons.mp hl
      have hversion := hr.cycle (·.versionGc a 0) h fun c hc hrun => hc.versionGc hrun ha
      have hl1 := hversion.cycle (·.l1Gc a 0) h fun c hc hrun => hc.l1Gc hrun ha
      have hrest := ih hl _ _ hl1
      rw [List.length_cons,
        show cycles + 2 * (l.length + 1) = cycles + 1 + 1 + 2 * l.length by omega]
      exact hrest
  have hall := each s.seats (fun _ ha => ha) (s, .ok []) 0 ⟨rfl, rfl, .refl, [], rfl, rfl⟩
  rw [Nat.zero_add] at hall
  exact hall.cycle _ h fun c hc hrun => hc.viewGc hrun (Seats.at_mem h.seated)

theorem ofNode_shutdown {n : Node} : NodeReport.ofNode n.shutdown.1 = NodeReport.ofNode n := by
  have hn : n.shutdown.1 = { n with stopped := true, workers := [] } := rfl
  rw [hn]
  rfl

theorem reports_shutdown (h : s.seats.Nodup) : s.shutdown.threads = s.threads ∧
    s.shutdown.nodes.map NodeReport.ofNode = s.nodes.map NodeReport.ofNode := by
  obtain ⟨hs, ht, -, hn⟩ := foldl_onNode (s := s) (f := Node.shutdown) h
  change s.shutdown.seats = _ at hs
  change ∀ b, s.shutdown.cluster.node? b = _ at hn
  refine ⟨ht, ?_⟩
  rw [nodes, nodes, hs, List.map_filterMap, List.map_filterMap]
  refine List.filterMap_congr fun a ha => ?_
  rw [hn]
  cases s.cluster.node? a with
  | none => rw [Option.map_none]
  | some n => rw [Option.map_some, if_pos ha, Option.map_some, Option.map_some, ofNode_shutdown]

theorem Spent.reports (h : s.Spent k) :
    (∀ r ∈ s.nodes.map NodeReport.ofNode, r.isClean = true ∧ r.queueSize = 0) ∧
      (s.nodes.map NodeReport.ofNode).map (·.applied) = s.seats.map k := by
  refine ⟨fun r hr => ?_, ?_⟩
  · obtain ⟨n, hn, rfl⟩ := List.mem_map.mp hr
    obtain ⟨a, -, ha⟩ := List.mem_filterMap.mp hn
    obtain ⟨hc, hq, -⟩ := (h.nodes a n ha).report (h.lines a n ha)
    exact ⟨hc, hq⟩
  · rw [List.map_map, nodes, List.map_filterMap, List.filterMap_eq_map_iff_forall_eq_some]
    intro a ha
    obtain ⟨n, hn⟩ := h.housed.some_of_mem ha
    rw [hn]
    exact congrArg some ((h.nodes a n hn).report (h.lines a n hn)).2.2

def conclude (o : Options) (s : Simulation) : Except GcError Report × List Notice :=
  match s.drainAll.exchange.collect with
  | (s, .ok gc) => (.ok (s.shutdown.report o gc), s.shutdown.notices.toList)
  | (s, .error e) => (.error e, s.abandon.notices.toList)

theorem run_eq {ch : Chance} : run o ch = ((start o ch).runThreads ch.schedule).conclude o := by
  obtain ⟨⟨s, result⟩, hr⟩ :
      ∃ r, ((start o ch).runThreads ch.schedule).drainAll.exchange.collect = r := ⟨_, rfl⟩
  cases result <;> simp only [run, conclude, hr]

theorem Closing.conclude (h : s.Closing k) : ∃ r, (s.conclude o).1 = .ok r ∧
    r.drainOrderOk = true ∧ (∀ n ∈ r.nodes, n.queueSize = 0) ∧
    r.nodes.map (·.applied) = s.seats.map k ∧
    r.committed = s.threads.foldl (fun k t => k + t.committed) 0 ∧
    r.rolledBack = s.threads.foldl (fun k t => k + t.rolledBack) 0 ∧
    r.gc.length = 2 * s.seats.length + 1 := by
  obtain ⟨hspent, hseats, hthreads⟩ := h.drainAll
  obtain ⟨hseats', hthreads', htends⟩ := tends_exchange (s := s.drainAll)
  have hknown := hspent.tends hseats' htends
  obtain ⟨hs, ht, hc, gc, hok, hlen⟩ := hknown.collect
  obtain ⟨⟨t, result⟩, hr⟩ : ∃ r, s.drainAll.exchange.collect = r := ⟨_, rfl⟩
  rw [hr] at hs ht hc hok
  rw [hseats', hseats] at hlen
  obtain rfl : result = .ok gc := hok
  have ht' : t.Spent k := hknown.tends hs hc
  obtain ⟨hsame, hreports⟩ := reports_shutdown ht'.distinct
  obtain ⟨hclean, happlied⟩ := ht'.reports
  have hthreads'' : t.shutdown.threads = s.threads :=
    hsame.trans (ht.trans (hthreads'.trans hthreads))
  have hseats'' : t.seats = s.seats := hs.trans (hseats'.trans hseats)
  have hnodes : (t.shutdown.report o gc).nodes = t.nodes.map NodeReport.ofNode := hreports
  refine ⟨t.shutdown.report o gc, by rw [Simulation.conclude, hr], ?_, fun n hn => ?_, ?_, ?_,
    ?_, ?_⟩
  · rw [Report.drainOrderOk, hnodes]
    exact List.all_eq_true.mpr fun n hn => (hclean n hn).1
  · rw [hnodes] at hn
    exact (hclean n hn).2
  · rw [hnodes, happlied, hseats'']
  · rw [← hthreads'']
    rfl
  · rw [← hthreads'']
    rfl
  · exact hlen

end Simulation

end Multiversion
