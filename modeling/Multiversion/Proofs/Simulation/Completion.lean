import Mathlib
import Multiversion.Proofs.Simulation.Race

namespace Multiversion

namespace Thread

variable {seats : Seats} {c : Cluster} {t : Thread} {call : Call} {calls : List Call}
  {notices : List Notice}

theorem perform_withCalls : perform seats c { t with calls } call =
    ((perform seats c t call).1, { (perform seats c t call).2.1 with calls },
      (perform seats c t call).2.2) := by
  obtain ⟨node, action⟩ := call
  simp only [perform]
  cases c.node? (seats.at node) with
  | none => rfl
  | some n => cases action <;> rfl

theorem calls_perform : (perform seats c t call).2.1.calls = t.calls := by
  obtain ⟨node, action⟩ := call
  simp only [perform]
  cases c.node? (seats.at node) with
  | none => rfl
  | some n => exact calls_act

theorem turn_due {rest : List Call} (h : t.Due call rest) :
    t.turn seats c = perform seats c { t with calls := rest } call := by
  obtain ⟨ha, hc⟩ := h
  cases t
  cases ha
  cases hc
  rfl

def Finished (t : Thread) : Prop := t.calls = [] ∧ t.applied = []

theorem finished_performAll (h : t.Finished) :
    (performAll seats calls (c, t, notices)).2.1.Finished := by
  induction calls generalizing c t notices with
  | nil => exact h
  | cons call calls ih =>
    refine ih ⟨?_, rfl⟩
    exact calls_perform.trans h.1

theorem performAll_cons {d : Cluster} {u : Thread}
    (h : perform seats c { t with calls } call = (d, u, notices)) :
    performAll seats (call :: calls) (c, { t with calls := [] }, []) =
      performAll seats calls
        ((u.flush seats d).1, { (u.flush seats d).2 with calls := [] }, notices) := by
  have hperform : perform seats c { t with calls := [] } call =
      (d, { u with calls := [] }, notices) := by
    change perform _ _ { { t with calls } with calls := [] } call = _
    rw [perform_withCalls, h]
  simp only [performAll, hperform, List.nil_append]
  rfl

theorem performAll_notices (notices : List Notice) : performAll seats calls (c, t, notices) =
    ((performAll seats calls (c, t, [])).1, (performAll seats calls (c, t, [])).2.1,
      notices ++ (performAll seats calls (c, t, [])).2.2) := by
  induction calls generalizing c t notices with
  | nil => simp [performAll]
  | cons call calls ih =>
    simp only [performAll]
    rw [ih, ih ([] ++ _), List.append_assoc, List.nil_append]

end Thread

namespace Simulation

variable {s : Simulation} {i j : Nat} {t : Thread} {r r' : Cluster × Thread × List Notice}

abbrev Through (i : Nat) := Relation.ReflTransGen fun s s' : Simulation => s' = s.take (.thread i)

theorem putThread_putThread : (s.putThread i r).putThread i r' =
    s.putThread i (r'.1, r'.2.1, r.2.2 ++ r'.2.2) := by
  have hnotices : s.notices ++ r.2.2 ++ r'.2.2 = s.notices ++ (r.2.2 ++ r'.2.2) := by
    refine Array.ext' ?_
    simp
  simp [putThread, note, hnotices]

theorem putThread_self (ht : s.threads[i]? = some t) : s.putThread i (s.cluster, t, []) = s := by
  obtain ⟨hi, rfl⟩ := List.getElem?_eq_some_iff.mp ht
  simp [putThread, note]

theorem getElem?_putThread (ht : s.threads[i]? = some t) :
    (s.putThread i r).threads[i]? = some r.2.1 := by
  change (s.threads.set i r.2.1)[i]? = _
  rw [List.getElem?_set_self (List.getElem?_eq_some_iff.mp ht).1]

theorem take_thread (ht : s.threads[i]? = some t) :
    s.take (.thread i) = s.putThread i (t.turn s.seats s.cluster) := by
  rw [take, ht]

theorem through_flush (ht : s.threads[i]? = some t) : Through i s
    (s.putThread i ((t.flush s.seats s.cluster).1, (t.flush s.seats s.cluster).2, [])) := by
  obtain ⟨txs, htxs⟩ : ∃ txs, t.applied = txs := ⟨_, rfl⟩
  induction txs generalizing s t with
  | nil =>
    have hflush : t.flush s.seats s.cluster = (s.cluster, t) := by
      have hsame : ({ t with applied := [] } : Thread) = t := by rw [← htxs]
      rw [Thread.flush, hsame, htxs]
      rfl
    rw [hflush, putThread_self ht]
  | cons tx txs ih =>
    have hturn : t.turn s.seats s.cluster =
        (Thread.handOn s.seats t.keeper s.cluster tx, { t with applied := txs }, []) := by
      rw [Thread.turn, htxs]
    have hnext := ih (s := s.take (.thread i)) (t := { t with applied := txs })
      (by rw [take_thread ht, getElem?_putThread ht, hturn]) rfl
    have hflush : t.flush s.seats s.cluster = ({ t with applied := txs } : Thread).flush s.seats
        (Thread.handOn s.seats t.keeper s.cluster tx) := by
      rw [Thread.flush, htxs]
      rfl
    refine .head rfl ?_
    rw [hflush]
    have hput := take_thread ht
    rw [hturn] at hput
    rw [hput] at hnext ⊢
    rw [putThread_putThread] at hnext
    exact hnext

theorem through_performAll (ht : s.threads[i]? = some t) (happlied : t.applied = []) :
    Through i s (s.putThread i
      (Thread.performAll s.seats t.calls (s.cluster, { t with calls := [] }, []))) := by
  obtain ⟨calls, hcalls⟩ : ∃ calls, t.calls = calls := ⟨_, rfl⟩
  induction calls generalizing s t with
  | nil =>
    have hsame : ({ t with calls := [] } : Thread) = t := by rw [← hcalls]
    rw [hcalls, hsame, Thread.performAll, putThread_self ht]
  | cons call calls ih =>
    obtain ⟨⟨c, u, ns⟩, hr⟩ : ∃ r, Thread.perform s.seats s.cluster { t with calls } call = r :=
      ⟨_, rfl⟩
    obtain ⟨⟨c', u'⟩, hf⟩ : ∃ r, u.flush s.seats c = r := ⟨_, rfl⟩
    have hturn : s.take (.thread i) = s.putThread i (c, u, ns) := by
      rw [take_thread ht, Thread.turn_due ⟨happlied, hcalls⟩, hr]
    have hflush : Through i (s.take (.thread i)) (s.putThread i (c', u', ns)) := by
      have h := through_flush (s := s.take (.thread i)) (t := u) (i := i)
        (by rw [hturn, getElem?_putThread ht])
      rw [hturn] at h ⊢
      change Through i _ ((s.putThread i (c, u, ns)).putThread i
        ((u.flush s.seats c).1, (u.flush s.seats c).2, [])) at h
      rw [putThread_putThread, hf, List.append_nil] at h
      exact h
    have hu : u.calls = calls := by
      rw [← show (Thread.perform s.seats s.cluster { t with calls } call).2.1 = u by rw [hr],
        Thread.calls_perform]
    have hu' : u'.applied = [] ∧ u'.calls = calls := by
      rw [← show (u.flush s.seats c).2 = u' by rw [hf]]
      exact ⟨rfl, hu⟩
    refine .head rfl (hflush.trans ?_)
    have h := ih (s := s.putThread i (c', u', ns)) (t := u') (getElem?_putThread ht) hu'.1 hu'.2
    rw [putThread_putThread, hu'.2] at h
    rw [hcalls, Thread.performAll_cons hr, hf, Thread.performAll_notices]
    exact h

theorem through_complete : Through i s (s.complete i) := by
  rw [complete]
  split
  next t ht =>
    have h := through_performAll (s := s.putThread i ((t.flush s.seats s.cluster).1,
      (t.flush s.seats s.cluster).2, [])) (t := (t.flush s.seats s.cluster).2)
      (getElem?_putThread ht) rfl
    rw [putThread_putThread, List.nil_append] at h
    exact (through_flush ht).trans h
  next => exact .refl

theorem finished_complete (ht : (s.complete i).threads[i]? = some t) : t.Finished := by
  rw [complete] at ht
  split at ht
  next u hu =>
    rw [getElem?_putThread hu] at ht
    cases ht
    exact Thread.finished_performAll ⟨rfl, rfl⟩
  next hn =>
    rw [hn] at ht
    cases ht

theorem threads_complete (hj : j ≠ i) : (s.complete i).threads[j]? = s.threads[j]? := by
  rw [complete]
  split
  · exact List.getElem?_set_ne hj.symm
  · rfl

end Simulation

namespace Race

open Simulation

variable {r r' : Race} {s s' : Simulation} {i : Nat} {a : Address}

def Finished (r : Race) : Prop := ∀ t ∈ r.sim.threads, t.Finished

theorem Move.same (h : Move r r') :
    r'.sim.seats = r.sim.seats ∧ r'.sim.threads.length = r.sim.threads.length := by
  cases h with
  | turn u hu =>
    refine ⟨seats_take, ?_⟩
    cases u with
    | thread i =>
      rw [take]
      split
      · exact List.length_set ..
      · rfl
    | _ => rfl
  | apply => exact ⟨rfl, rfl⟩
  | finish => exact ⟨rfl, List.length_set ..⟩

theorem Run.same (h : Run r r') :
    r'.sim.seats = r.sim.seats ∧ r'.sim.threads.length = r.sim.threads.length := by
  induction h with
  | refl => exact ⟨rfl, rfl⟩
  | tail _ hm ih => exact ⟨hm.same.1.trans ih.1, hm.same.2.trans ih.2⟩

theorem Run.through (h : Through i s s') : Run { sim := s } { sim := s' } := by
  induction h with
  | refl => exact .refl
  | tail _ hs ih =>
    subst hs
    exact ih.tail (.turn _ _ fun _ _ _ _ _ _ _ _ => rfl)

theorem Run.turns (schedule : List Turn) : Run { sim := s } { sim := schedule.foldl take s } := by
  induction schedule generalizing s with
  | nil => exact .refl
  | cons turn schedule ih => exact .head (.turn _ turn fun _ _ _ _ _ _ _ _ => rfl) ih

theorem Run.completeAll (k : Nat) : Run { sim := s } { sim := (List.range k).foldl complete s } ∧
    ∀ i < k, ∀ t, ((List.range k).foldl complete s).threads[i]? = some t → t.Finished := by
  induction k with
  | zero => exact ⟨.refl, fun i hi => absurd hi (Nat.not_lt_zero i)⟩
  | succ k ih =>
    rw [List.range_succ, List.foldl_append, List.foldl_cons, List.foldl_nil]
    refine ⟨ih.1.trans (Run.through through_complete), fun i hi t ht => ?_⟩
    by_cases hk : i = k
    · subst hk
      exact finished_complete ht
    · rw [threads_complete hk] at ht
      exact ih.2 i (by omega) t ht

theorem Run.runThreads (schedule : List Turn) :
    Run { sim := s } { sim := s.runThreads schedule } ∧
      Finished { sim := s.runThreads schedule } := by
  have hturns : Run { sim := s } { sim := schedule.foldl take s } := .turns schedule
  obtain ⟨hall, hdone⟩ := Run.completeAll (s := schedule.foldl take s) s.threads.length
  have hrun : Run { sim := s } { sim := s.runThreads schedule } := hturns.trans hall
  refine ⟨hrun, fun t ht => ?_⟩
  obtain ⟨i, hi⟩ := List.mem_iff_getElem?.mp ht
  refine hdone i ?_ t hi
  have hlt := (List.getElem?_eq_some_iff.mp hi).1
  rwa [hrun.same.2] at hlt

theorem Run.applying {t : Thread} {node keeper : Nat} {rest : List Call} {n : Node} {d : Drain}
    {x : Node × Drain} (ht : r.sim.threads[i]? = some t) (hc : t.Due ⟨node, .apply keeper⟩ rest)
    (hn : r.sim.cluster.node? (r.sim.seats.at node) = some n)
    (hd : r.applying (r.sim.seats.at node) = some (i, d)) (h : Node.Applying (n, d) x) :
    ∃ r', Run r r' ∧ r'.sim.threads = r.sim.threads ∧ r'.sim.seats = r.sim.seats ∧
      r'.sim.cluster.node? (r.sim.seats.at node) = some x.1 ∧
      r'.applying (r.sim.seats.at node) = some (i, x.2) ∧
      ∀ b ≠ r.sim.seats.at node, r'.applying b = r.applying b := by
  induction h with
  | refl => exact ⟨r, .refl, rfl, rfl, hn, hd, fun _ _ => rfl⟩
  | @tail y z _ hs ih =>
    obtain ⟨r', hr, hthreads, hseats, hnode, hat, hother⟩ := ih
    have hm := Move.apply r' i t node keeper rest y.1 y.2 z.1 z.2 (by rw [hthreads, ht]) hc
      (by rw [hseats, hnode]) (.inr (by rw [hseats, hat])) hs
    rw [hseats] at hm
    refine ⟨_, hr.tail hm, hthreads, hseats, ?_, ?_, fun b hb => ?_⟩
    · change (r'.sim.cluster.editNode _ fun _ => z.1).node? _ = _
      rw [Cluster.node?_put hnode, if_pos rfl]
    · rw [applying_put, if_pos rfl]
    · rw [applying_put, if_neg hb, hother b hb]

theorem Run.release {goal : Nat → Plan} (hr : r.Orderly goal) (a : Address) :
    ∃ r', Run r r' ∧ r'.applying a = none ∧ ∀ b ≠ a, r'.applying b = r.applying b := by
  cases ha : r.applying a with
  | none => exact ⟨r, .refl, ha, fun _ _ => rfl⟩
  | some x =>
    obtain ⟨i, d⟩ := x
    obtain ⟨hheld, plans, past, ho⟩ := hr
    obtain ⟨t, node, keeper, rest, ht, hc, rfl⟩ := hheld a i d ha
    obtain ⟨n, hn⟩ := ho.some_node node
    obtain ⟨l, e, m, won, happly, hreturn⟩ := n.exists_returns d
    obtain ⟨r', hrun, hthreads, hseats, hnode, hat, hother⟩ :=
      Run.applying ht hc hn ha happly
    have hm := Move.finish r' i t node keeper rest l e m won (by rw [hthreads, ht]) hc
      (by rw [hseats, hnode]) (.inr (by rw [hseats, hat])) hreturn
    rw [hseats] at hm
    refine ⟨_, hrun.tail hm, ?_, fun b hb => ?_⟩
    · rw [applying_put, if_pos rfl]
    · rw [applying_put, if_neg hb, hother b hb]

theorem Run.exists_finished {goal : Nat → Plan} (hr : r.Orderly goal) :
    ∃ s, Run r { sim := s } ∧ Finished { sim := s } := by
  have free (l : List Address) : ∃ r', Run r r' ∧ (∀ a ∈ l, r'.applying a = none) := by
    induction l with
    | nil => exact ⟨r, .refl, fun a ha => absurd ha List.not_mem_nil⟩
    | cons a l ih =>
      obtain ⟨r', hrun, hl⟩ := ih
      obtain ⟨r'', hrun', ha, hother⟩ := Run.release (hrun.orderly hr) a
      refine ⟨r'', hrun.trans hrun', fun b hb => ?_⟩
      by_cases hba : b = a
      · rw [hba, ha]
      · rw [hother b hba]
        exact hl b ((List.mem_cons.mp hb).resolve_left hba)
  obtain ⟨⟨s, applying⟩, hrun, hfree⟩ := free r.sim.seats
  obtain ⟨hheld, plans, past, ho⟩ := hrun.orderly hr
  have hnone : applying = fun _ => none := by
    funext a
    by_contra hne
    obtain ⟨⟨i, d⟩, ha⟩ := Option.ne_none_iff_exists'.mp hne
    obtain ⟨t, node, keeper, rest, -, -, rfl⟩ := hheld a i d ha
    have hseats : s.seats = r.sim.seats := hrun.same.1
    have hmem : s.seats.at node ∈ s.seats := Seats.at_mem ho.seated
    rw [hseats] at hmem
    exact hne (hseats ▸ hfree _ hmem)
  subst hnone
  obtain ⟨hall, hdone⟩ := Run.runThreads (s := s) []
  exact ⟨_, hrun.trans hall, hdone⟩

end Race

end Multiversion
