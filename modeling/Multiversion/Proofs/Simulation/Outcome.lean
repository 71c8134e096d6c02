import Mathlib
import Multiversion.Proofs.Simulation.Completion
import Multiversion.Proofs.Simulation.Conclusion

namespace Multiversion

namespace Simulation

variable {goal plans : Nat → Plan} {past : Address → List (List Delivery)} {s : Simulation}
  {o : Options} {ch : Chance}

def drafts (o : Options) (dice : Dice) : List Draft :=
  (List.range (max o.threads 1)).flatMap (Workload.drafts dice o.transactions (max o.threads 1))

end Simulation

structure Report.Faithful (r : Report) (o : Simulation.Options) (dice : Dice) : Prop where
  ordered : r.drainOrderOk = true
  nodes : r.nodes.length = max o.nodes 1
  emptied : ∀ n ∈ r.nodes, n.queueSize = 0
  decided : r.committed + r.rolledBack = o.transactions
  committed : r.committed = (Simulation.drafts o dice).countP fun d => !d.aborts
  applied : (r.nodes.map (·.applied)).sum =
    (Simulation.drafts o dice).countP fun d => d.write.isSome && !d.aborts
  cycles : r.gc.length = 2 * max o.nodes 1 + 1

namespace Simulation

variable {goal plans : Nat → Plan} {past : Address → List (List Delivery)} {s : Simulation}
  {o : Options} {ch : Chance}

theorem Orderly.closing
    (h : Orderly goal plans past (fun _ => .idle) s.seats s.cluster s.threads)
    (hc : ∀ i < s.threads.length, (plans i).Closed) : s.Closing s.cluster.settledAt := by
  refine ⟨h.seated, h.distinct, h.housed, fun a n hn =>
    ⟨⟨_, h.nodes a n hn⟩, fun k hk => ?_, (Cluster.settledAt_of hn).symm⟩⟩
  obtain ⟨i, l, hp⟩ := h.covered a n k hn hk
  obtain ⟨t, ht, hp⟩ := Option.bind_eq_some_iff.mp hp
  obtain ⟨st, hst, hp⟩ := Option.map_eq_some_iff.mp hp
  obtain ⟨rfl, rfl⟩ := Prod.ext_iff.mp hp
  have hdone : st.stage = .decided :=
    (hc i (List.getElem?_eq_some_iff.mp ht).1).2 st (List.mem_of_getElem? hst)
  obtain ⟨n', hn', hs⟩ := (h.tracks i t ht).stands l st hst
  obtain rfl : n = n' := Option.some.inj (hn.symm.trans hn')
  rwa [hdone] at hs

theorem sum_threads {f : Thread → Nat} {g : Nat → Nat}
    (h : ∀ i t, s.threads[i]? = some t → f t = g i) :
    s.threads.foldl (fun k t => k + f t) 0 = ((List.range s.threads.length).map g).sum := by
  have hmap : s.threads.map f = (List.range s.threads.length).map g := by
    refine List.ext_getElem (by simp) fun i hi hi' => ?_
    rw [List.getElem_map, List.getElem_map, List.getElem_range]
    exact h i _ (List.getElem?_eq_getElem _)
  rw [← hmap, List.sum_eq_foldl, List.foldl_map]

end Simulation

namespace Race

variable {goal : Nat → Plan} {r : Race}

theorem Orderly.finished (h : r.Orderly goal) (hf : r.Finished) : ∃ plans past,
    Simulation.Orderly goal plans past (fun _ => .idle) r.sim.seats r.sim.cluster r.sim.threads ∧
      ∀ i < r.sim.threads.length, plans i = goal i := by
  obtain ⟨hheld, plans, past, ho⟩ := h
  have hdrain : r.drain = fun _ => .idle := by
    funext a
    cases ha : r.applying a with
    | none =>
      rw [drain, ha]
      rfl
    | some x =>
      obtain ⟨t, node, keeper, rest, ht, hc, -⟩ := hheld a x.1 x.2 ha
      have hcalls := (hf t (List.mem_of_getElem? ht)).1
      rw [hc.calls] at hcalls
      cases hcalls
  rw [hdrain] at ho
  refine ⟨plans, past, ho, fun i hi => ?_⟩
  have hp := ho.plays i _ (List.getElem?_eq_getElem hi)
  rw [(hf _ (List.getElem_mem hi)).1] at hp
  exact hp

section Faithful

variable {o : Simulation.Options} {dice : Dice}

theorem sum_plans {g : Nat → Nat} {p : Draft → Bool}
    (h : ∀ i, g i = (Workload.drafts dice o.transactions (max o.threads 1) i).countP p) :
    ((List.range (max o.threads 1)).map g).sum = (Simulation.drafts o dice).countP p := by
  rw [Simulation.drafts, List.countP_flatMap, List.map_congr_left fun i _ => h i]
  rfl

section Follows

variable (h : ∀ i, ({} : Plan).Follows (goal i)
  (Workload.drafts dice o.transactions (max o.threads 1) i))
include h

theorem sum_committed : ((List.range (max o.threads 1)).map fun i => (goal i).committed).sum =
    (Simulation.drafts o dice).countP fun d => !d.aborts :=
  sum_plans fun i => (h i).committed.trans (Nat.zero_add _)

theorem sum_written : ((List.range (max o.threads 1)).map fun i => (goal i).written).sum =
    (Simulation.drafts o dice).countP fun d => d.write.isSome && !d.aborts := by
  refine sum_plans fun i => ?_
  rw [(h i).written, Plan.written, Nat.zero_add]
  refine List.countP_congr fun d _ => ?_
  rw [Draft.aborts]
  cases d.write.isSome <;> simp

end Follows

theorem Orderly.faithful (h : r.Orderly goal) (hf : r.Finished)
    (hseats : r.sim.seats.length = max o.nodes 1)
    (hthreads : r.sim.threads.length = max o.threads 1) (hclosed : ∀ i, (goal i).Closed)
    (hfollows : ∀ i, ({} : Plan).Follows (goal i)
      (Workload.drafts dice o.transactions (max o.threads 1) i))
    (hshare : ∀ i, (goal i).committed + (goal i).rolledBack =
      Workload.share o.transactions (max o.threads 1) i) :
    ∃ report, (r.sim.conclude o).1 = .ok report ∧ report.Faithful o dice := by
  obtain ⟨plans, past, ho, hplans⟩ := h.finished hf
  have hclosing := ho.closing fun i hi => hplans i hi ▸ hclosed i
  obtain ⟨report, hok, hordered, hempty, happlied, hcommitted, hrolledBack, hgc⟩ :=
    hclosing.conclude (o := o)
  have hlt {i : Nat} {t : Thread} (ht : r.sim.threads[i]? = some t) : i < r.sim.threads.length :=
    (List.getElem?_eq_some_iff.mp ht).1
  rw [Simulation.sum_threads (g := fun i => (goal i).committed) fun i t ht => by
    rw [(ho.tracks i t ht).committed, hplans i (hlt ht)], hthreads] at hcommitted
  rw [Simulation.sum_threads (g := fun i => (goal i).rolledBack) fun i t ht => by
    rw [(ho.tracks i t ht).rolledBack, hplans i (hlt ht)], hthreads] at hrolledBack
  have hwritten : (r.sim.seats.map r.sim.cluster.settledAt).sum =
      ((List.range (max o.threads 1)).map fun i => (goal i).written).sum := by
    rw [ho.total, hthreads]
    congr 1
    refine List.map_congr_left fun i hi => ?_
    rw [hplans i (by rw [hthreads]; exact List.mem_range.mp hi)]
  refine ⟨report, hok, hordered, ?_, hempty, ?_, ?_, ?_, ?_⟩
  · have hlen := congrArg List.length happlied
    rw [List.length_map, List.length_map] at hlen
    exact hlen.trans hseats
  · rw [hcommitted, hrolledBack, ← List.sum_map_add, List.map_congr_left fun i _ => hshare i]
    exact Workload.sum_share (by omega)
  · exact hcommitted.trans (sum_committed hfollows)
  · rw [happlied, hwritten]
    exact sum_written hfollows
  · rw [hgc, hseats]

end Faithful

end Race

namespace Simulation

/-- No race of the threads is lost: all can be finished, and then the simulation succeeds and
    reports what the threads were to do. The simulation as it runs is one of them. -/
theorem report_faithful (o : Options) (ch : Chance)
    (hd : ((List.range (max o.nodes 1)).map ch.addresses).Nodup) :
    (∀ r, Race.Run { sim := start o ch } r →
      (∃ s, Race.Run r { sim := s } ∧ Race.Finished { sim := s }) ∧
      (r.Finished → ∃ report, (r.sim.conclude o).1 = .ok report ∧ report.Faithful o ch.dice)) ∧
    ∃ report, (run o ch).1 = .ok report ∧ report.Faithful o ch.dice := by
  choose goal hplays hclosed hfollows hshare using
    Workload.plays_thread ch.dice o.transactions (max o.threads 1)
  have hstart : ({ sim := start o ch } : Race).Orderly goal := orderly_start hd fun i _ => hplays i
  have faithful (r : Race) (hr : Race.Run { sim := start o ch } r) (hf : r.Finished) :
      ∃ report, (r.sim.conclude o).1 = .ok report ∧ report.Faithful o ch.dice := by
    obtain ⟨hseats, hthreads⟩ := hr.same
    obtain ⟨hseats', hthreads', -⟩ := start_tends o ch
    refine (hr.orderly hstart).faithful hf ?_ ?_ hclosed hfollows hshare
    · rw [hseats, hseats', List.length_map, List.length_range]
    · rw [hthreads, hthreads', List.length_map, Workload.ofDice, List.length_map, List.length_range]
  refine ⟨fun r hr => ⟨Race.Run.exists_finished (hr.orderly hstart), faithful r hr⟩, ?_⟩
  obtain ⟨hrun, hf⟩ := Race.Run.runThreads (s := start o ch) ch.schedule
  have hreport := faithful { sim := (start o ch).runThreads ch.schedule } hrun hf
  rwa [← run_eq] at hreport

def someDice : Dice := fun _ tx q => if q = .rollback then tx else 9 * tx

def twoThreads : Options := { nodes := 2, transactions := 5, threads := 2 }

def someChance : Chance where
  addresses i := ⟨i⟩
  dice := someDice
  schedule := [.thread 1, .collector 0 .version, .thread 0, .millisecond, .thread 1]

theorem report_faithful_twoThreads : ∃ report, (run twoThreads someChance).1 = .ok report ∧
    report.drainOrderOk = true ∧ report.committed = 3 ∧ report.rolledBack = 2 ∧
    (report.nodes.map (·.applied)).sum = 1 ∧ report.gc.length = 5 := by
  obtain ⟨report, hok, hr⟩ := (report_faithful twoThreads someChance (by decide)).2
  have hcommitted : report.committed = 3 := hr.committed.trans (by decide +kernel)
  have hdecided : report.committed + report.rolledBack = 5 := hr.decided
  exact ⟨report, hok, hr.ordered, hcommitted, by omega, hr.applied.trans (by decide +kernel),
    hr.cycles⟩

end Simulation

end Multiversion
