import Mathlib
import Multiversion.Proofs.Cluster.Membership
import Multiversion.Proofs.Simulation.Race

namespace Multiversion

namespace Node

variable {a : Address} {config : Config} {v : View} {k : Collector} {n : Node}

theorem tended_spawn : n.Tended (n.spawn k).1 := by
  rw [spawn]
  split <;> exact ⟨rfl, rfl, rfl, rfl, rfl, rfl⟩

theorem tended_start : n.Tended n.start.1 :=
  (tended_spawn (k := .version)).trans ((tended_spawn (k := .l1)).trans (tended_spawn (k := .view)))

theorem inOrder_installed : ((create a config).install v).InOrder .idle [] := by
  have hfresh : ((create a config).install v).Fresh := fresh_install a config v
  have ⟨p, log, hs, _⟩ := hfresh
  have hkept : ((create a config).install v).applied = [] ∧
      ((create a config).install v).stopped = false := by
    rw [install]
    dsimp only
    split <;> exact ⟨rfl, rfl⟩
  refine ⟨.fresh hfresh, hkept.1, ?_, hkept.2⟩
  rw [hs]
  exact ⟨fun m hm => absurd hm (Nat.not_lt_zero m), fun k hk => absurd hk (Nat.not_lt_zero k),
    fun e he => absurd he List.not_mem_nil⟩

end Node

namespace Cluster

variable {c : Cluster} {config : Config} {seats : List Address} {a b : Address} {n : Node}

theorem Unknown.add {m : Member} (h : Unknown b c) (hb : b ≠ a) : Unknown b (c.add a m) := by
  refine ⟨fun hr => ?_, h.2.1, ?_⟩
  · rcases mem_register.mp hr with hr | hr
    · exact hb hr
    · exact h.1 hr
  · change (c.members ++ [(a, m)]).lookup b = none
    have hn : c.members.lookup b = none := h.2.2
    rw [List.lookup_append, hn, List.lookup_cons, beq_eq_false_iff_ne.mpr hb]
    rfl

theorem foldl_join (config : Config) (h : seats.Nodup) (hu : ∀ a ∈ seats, Unknown a c) :
    let d := seats.foldl (fun c a => c.join a config) c
    d.roster = c.roster ++ seats ∧ d.faults = c.faults ∧
      ∀ b, d.node? b = if b ∈ seats then some (.create b config) else c.node? b := by
  induction seats generalizing c with
  | nil => exact ⟨(List.append_nil _).symm, rfl, fun b => by simp⟩
  | cons a seats ih =>
    obtain ⟨ha, hd⟩ := List.nodup_cons.mp h
    have hua : Unknown a c := hu a (List.mem_cons_self ..)
    have hroster : (c.join a config).roster = c.roster ++ [a] := by
      have hsame : c.roster.filter (· ≠ a) = c.roster := by
        refine List.filter_eq_self.mpr fun b hb => decide_eq_true ?_
        rintro rfl
        exact hua.1 hb
      change c.roster.filter (· ≠ a) ++ [a] = _
      rw [hsame]
    have hrest : ∀ b ∈ seats, Unknown b (c.join a config) := fun b hb =>
      (hu b (List.mem_cons_of_mem _ hb)).add fun he => ha (he ▸ hb)
    obtain ⟨hr, hf, hn⟩ := ih hd hrest
    refine ⟨?_, hf, fun b => ?_⟩
    · rw [List.foldl_cons, hr, hroster, List.append_assoc]
      rfl
    · rw [List.foldl_cons, hn, join, node?_add hua]
      by_cases hb : b ∈ seats
      · rw [if_pos hb, if_pos (List.mem_cons_of_mem _ hb)]
      · rw [if_neg hb]
        by_cases hba : b = a
        · subst hba
          rw [if_pos rfl, if_pos (List.mem_cons_self ..)]
          rfl
        · rw [if_neg hba, if_neg (by simp [hb, hba])]

theorem housed_install (config : Config) (h : seats.Nodup) :
    let c := (seats.foldl (fun c a => c.join a config) ({} : Cluster)).install.1
    c.Housed seats ∧ ∀ a n, c.node? a = some n → n.InOrder .idle [] ∧
      n.queue.settled = 0 ∧ n.sequencer.met = 0 := by
  intro c
  obtain ⟨hr, hf, hn⟩ := foldl_join (c := {}) config h fun a _ =>
    ⟨List.not_mem_nil, List.not_mem_nil, rfl⟩
  obtain ⟨d, hd⟩ : ∃ d, seats.foldl (fun c a => c.join a config) ({} : Cluster) = d := ⟨_, rfl⟩
  have hc : c = d.install.1 := congrArg (fun d : Cluster => d.install.1) hd
  rw [hd] at hr hf hn
  change d.roster = seats at hr
  have hnode (b : Address) : c.node? b =
      if b ∈ seats then some ((Node.create b config).install ⟨d.nextView, seats⟩) else none := by
    rw [hc, node?_install, hn, hr]
    by_cases hb : b ∈ seats
    · simp [hb]
    · rw [if_neg hb, if_neg hb]
      rfl
  refine ⟨⟨?_, ?_, ?_, fun b => ?_⟩, fun a n hn => ?_⟩
  · rw [hc]
    exact hr
  · rw [hc]
    exact hf
  · rw [hc]
    exact hr
  · rw [hnode]
    split
    next hb => exact ⟨fun _ => hb, fun _ => rfl⟩
    next hb => exact ⟨fun h => (nomatch h), fun h => absurd h hb⟩
  · rw [hnode] at hn
    split at hn
    next =>
      cases hn
      have hi : ((Node.create a config).install ⟨d.nextView, seats⟩).InOrder .idle [] :=
        Node.inOrder_installed
      obtain ⟨p, log, hs, -⟩ := Node.fresh_install a config ⟨d.nextView, seats⟩
      refine ⟨hi, ?_, ?_⟩
      · rw [Node.queue, hs]
        rfl
      · rw [hs]
        rfl
    next => cases hn

end Cluster

namespace Simulation

variable {s : Simulation} {a : Address} {f : Node → Node × List Notice} {o : Options} {ch : Chance}

section OnNode

theorem onNode_seats : (s.onNode a f).seats = s.seats := by
  rw [onNode]
  split <;> rfl

theorem onNode_threads : (s.onNode a f).threads = s.threads := by
  rw [onNode]
  split <;> rfl

theorem tends_onNode (h : ∀ n : Node, n.Tended (f n).1) :
    s.cluster.Tends (s.onNode a f).cluster := by
  rw [onNode]
  split
  next n hn =>
    refine .editNode fun m hm => ?_
    obtain rfl : n = m := Option.some.inj (hn.symm.trans hm)
    exact h n
  next => exact .refl

theorem tends_foldl_onNode (h : ∀ n : Node, n.Tended (f n).1) (l : List Address) :
    let t := l.foldl (fun s a => s.onNode a f) s
    t.seats = s.seats ∧ t.threads = s.threads ∧ s.cluster.Tends t.cluster := by
  induction l generalizing s with
  | nil => exact ⟨rfl, rfl, .refl⟩
  | cons a l ih =>
    obtain ⟨hs, ht, hc⟩ := ih (s := s.onNode a f)
    exact ⟨hs.trans onNode_seats, ht.trans onNode_threads, (tends_onNode h).trans hc⟩

end OnNode

theorem getElem?_threads {transactions threads i : Nat} {dice : Dice} {t : Thread}
    (h : ((Workload.ofDice dice transactions threads).map fun calls =>
      ({ calls } : Thread))[i]? = some t) :
    i < threads ∧ t = { calls := (Workload.batches dice i
      (Workload.share transactions threads i)).flatMap Batch.calls } := by
  rw [List.getElem?_map, Workload.ofDice, List.getElem?_map] at h
  obtain ⟨calls, hc, rfl⟩ := Option.map_eq_some_iff.mp h
  obtain ⟨j, hj, rfl⟩ := Option.map_eq_some_iff.mp hc
  obtain ⟨hi, rfl⟩ := List.getElem?_eq_some_iff.mp hj
  rw [List.length_range] at hi
  rw [List.getElem_range]
  exact ⟨hi, rfl⟩

theorem orderly_blank {goal : Nat → Plan} {seats : Seats} {c : Cluster} {threads : List Thread}
    (hs : seats ≠ []) (hd : seats.Nodup) (hc : c.Housed seats)
    (hn : ∀ a n, c.node? a = some n →
      n.InOrder .idle [] ∧ n.queue.settled = 0 ∧ n.sequencer.met = 0)
    (ht : ∀ i t, threads[i]? = some t →
      t = { calls := t.calls } ∧ Plan.Plays {} t.calls (goal i)) :
    Orderly goal (fun _ => {}) (fun _ => []) (fun _ => .idle) seats c threads := by
  have absent (i k : Nat) (p : Address × Nat) :
      posts seats threads (fun _ => {}) i k ≠ some p := by
    intro hp
    obtain ⟨t, -, hp⟩ := Option.bind_eq_some_iff.mp hp
    cases hp
  refine ⟨hs, hd, hc, fun a n h => (hn a n h).1, fun i t h => ?_, fun i t h => (ht i t h).2,
    fun i j k l p h => absurd h (absent i k p), fun a n k h hk => ?_, ?_⟩
  · rw [(ht i t h).1]
    exact ⟨rfl, fun k st hst => (nomatch hst), fun k raised hk => (nomatch hk), rfl, rfl⟩
  · rw [(hn a n h).2.2] at hk
    exact absurd hk (Nat.not_lt_zero k)
  · have hleft : ∀ x ∈ seats.map c.settledAt, x = 0 := by
      intro x hx
      obtain ⟨a, ha, rfl⟩ := List.mem_map.mp hx
      obtain ⟨n, h⟩ := hc.some_of_mem ha
      rw [Cluster.settledAt_of h]
      exact (hn a n h).2.1
    rw [List.sum_eq_zero hleft, List.sum_eq_zero]
    intro x hx
    obtain ⟨i, -, rfl⟩ := List.mem_map.mp hx
    rfl

theorem start_tends (o : Options) (ch : Chance) :
    (start o ch).seats = (List.range (max o.nodes 1)).map ch.addresses ∧
    (start o ch).threads = ((Workload.ofDice ch.dice o.transactions (max o.threads 1)).map
      fun calls => ({ calls } : Thread)) ∧
    (((List.range (max o.nodes 1)).map ch.addresses).foldl (fun c a => c.join a o.config)
      ({} : Cluster)).install.1.Tends (start o ch).cluster := by
  obtain ⟨seats, hseats⟩ : ∃ seats, (List.range (max o.nodes 1)).map ch.addresses = seats :=
    ⟨_, rfl⟩
  obtain ⟨s, hs⟩ : ∃ s : Simulation, Simulation.mk seats
      (seats.foldl (fun c a => c.join a o.config) ({} : Cluster)).install.1
      ((Workload.ofDice ch.dice o.transactions (max o.threads 1)).map
        fun calls => ({ calls } : Thread))
      (seats.foldl (fun c a => c.join a o.config) ({} : Cluster)).install.2.toArray = s := ⟨_, rfl⟩
  have hstart : start o ch = seats.foldl (fun s a => s.onNode a Node.start) s := by
    rw [← hs, ← hseats]
    rfl
  have htends := tends_foldl_onNode (s := s) (fun n => n.tended_start) seats
  rw [hseats, hstart]
  subst hs
  exact htends

theorem orderly_start {goal : Nat → Plan}
    (hd : ((List.range (max o.nodes 1)).map ch.addresses).Nodup)
    (hg : ∀ i < max o.threads 1, Plan.Plays {} ((Workload.batches ch.dice i
      (Workload.share o.transactions (max o.threads 1) i)).flatMap Batch.calls) (goal i)) :
    ({ sim := start o ch } : Race).Orderly goal := by
  obtain ⟨hseats, hthreads, htends⟩ := start_tends o ch
  obtain ⟨hhoused, hnodes⟩ := Cluster.housed_install o.config hd
  refine ⟨fun a i d hi => (nomatch hi), fun _ => {}, fun _ => [], ?_⟩
  change Orderly goal _ _ (fun _ => .idle) (start o ch).seats (start o ch).cluster
    (start o ch).threads
  rw [hseats, hthreads]
  refine (orderly_blank (List.ne_nil_of_length_pos ?_) hd hhoused hnodes fun i t ht => ?_).tend
    htends
  · rw [List.length_map, List.length_range]
    omega
  · obtain ⟨hi, rfl⟩ := getElem?_threads ht
    exact ⟨rfl, hg i hi⟩

end Simulation

end Multiversion
