import Mathlib
import Multiversion.Proofs.Lists
import Multiversion.Proofs.Simulation.Tracks
import Multiversion.Simulation

namespace Multiversion

def Cluster.settledAt (c : Cluster) (a : Address) : Nat :=
  ((c.node? a).map fun n => n.queue.settled).getD 0

theorem Cluster.settledAt_of {c : Cluster} {a : Address} {n : Node} (h : c.node? a = some n) :
    c.settledAt a = n.queue.settled := by
  rw [settledAt, h]
  rfl

structure Thread.Due (t : Thread) (call : Call) (rest : List Call) : Prop where
  applied : t.applied = []
  calls : t.calls = call :: rest

namespace Simulation

variable {goal plans : Nat → Plan} {past past' : Address → List (List Delivery)}
  {drains drains' : Address → Drain} {seats : Seats} {c d : Cluster} {threads : List Thread}
  {t u v : Thread} {Q : Plan} {n m : Node} {a : Address} {i j k l tx gain node : Nat}

def posts (seats : Seats) (threads : List Thread) (plans : Nat → Plan) (i k : Nat) :
    Option (Address × Nat) := threads[i]?.bind fun t => t.post seats (plans i) k

structure Orderly (goal plans : Nat → Plan) (past : Address → List (List Delivery))
    (drains : Address → Drain) (seats : Seats) (c : Cluster) (threads : List Thread) : Prop where
  seated : seats ≠ []
  distinct : seats.Nodup
  housed : c.Housed seats
  nodes : ∀ a n, c.node? a = some n → n.InOrder (drains a) (past a)
  tracks : ∀ i (t : Thread), threads[i]? = some t → t.Tracks seats c (plans i)
  plays : ∀ i (t : Thread), threads[i]? = some t → (plans i).Plays t.calls (goal i)
  apart : ∀ i j k l p, posts seats threads plans i k = some p →
    posts seats threads plans j l = some p → i = j ∧ k = l
  covered : ∀ a n k, c.node? a = some n → k < n.sequencer.met →
    ∃ i l, posts seats threads plans i l = some (a, k)
  total : (seats.map c.settledAt).sum =
    ((List.range threads.length).map fun i => (plans i).written).sum

theorem Seats.at_mem (h : seats ≠ []) : Seats.at seats k ∈ seats := by
  have hl : k % seats.length < seats.length := Nat.mod_lt _ (List.length_pos_of_ne_nil h)
  rw [Seats.at, List.getD_eq_getElem _ _ hl]
  exact List.getElem_mem hl

section Posts

theorem posts_of (ht : threads[i]? = some t) :
    posts seats threads plans i k = t.post seats (plans i) k := by
  rw [posts, ht]
  rfl

theorem posts_set (ht : threads[i]? = some t) :
    posts seats (threads.set i u) (Function.update plans i Q) j l =
      if j = i then u.post seats Q l else posts seats threads plans j l := by
  rw [posts, List.getElem?_set]
  by_cases hj : j = i
  · subst hj
    rw [if_pos rfl, if_pos (List.getElem?_eq_some_iff.mp ht).1, if_pos rfl, Function.update_self]
    rfl
  · rw [if_neg (Ne.symm hj), if_neg hj, Function.update_of_ne hj]
    rfl

end Posts

namespace Orderly

variable (h : Orderly goal plans past drains seats c threads)
include h

theorem runs : c.Runs := fun a n hn => (h.nodes a n hn).running

theorem some_node (k : Nat) : ∃ n, c.node? (seats.at k) = some n :=
  h.housed.some_of_mem (Seats.at_mem h.seated)

theorem own (ht : threads[i]? = some t) (p : Address × Nat)
    (hk : t.post seats (plans i) k = some p) (hl : t.post seats (plans i) l = some p) : k = l := by
  rw [← posts_of ht] at hk hl
  exact (h.apart i i k l p hk hl).2

theorem post_lt_met (ht : threads[i]? = some t) (hn : c.node? a = some n)
    (hp : t.post seats (plans i) l = some (a, k)) : k < n.sequencer.met := by
  obtain ⟨st, hst, hp⟩ := Option.map_eq_some_iff.mp hp
  obtain ⟨ha, hk⟩ := Prod.ext_iff.mp hp
  change seats.at st.node = a at ha
  change t.handle l = k at hk
  have hs : n.sequencer.Holds (t.handle l) st.stage :=
    ((h.tracks i t ht).stands l st hst).holds (by rw [ha, hn])
  exact hk ▸ hs.lt_met

theorem not_posted (hn : c.node? a = some n) :
    posts seats threads plans j l ≠ some (a, n.sequencer.met) := by
  intro hj
  obtain ⟨v, hv, hp⟩ := Option.bind_eq_some_iff.mp hj
  exact (h.post_lt_met hv hn hp).ne rfl

theorem tend (hcd : c.Tends d) : Orderly goal plans past drains seats d threads := by
  refine ⟨h.seated, h.distinct, hcd.housed h.housed, fun a m hm => ?_, fun i t ht => ?_, h.plays,
    h.apart, fun a m k hm hk => ?_, ?_⟩
  · obtain ⟨n, hn, hnm⟩ := hcd.back hm
    exact hnm.inOrder (h.nodes a n hn)
  · exact (h.tracks i t ht).spared fun _ _ _ _ => hcd.spares
  · obtain ⟨n, hn, hnm⟩ := hcd.back hm
    exact h.covered a n k hn (by rwa [← (hnm.serves (k := 0)).met])
  · rw [← h.total]
    congr 1
    refine List.map_congr_left fun a ha => ?_
    obtain ⟨n, hn⟩ := h.housed.some_of_mem ha
    obtain ⟨m, hm, hnm⟩ := hcd.nodes a n hn
    rw [Cluster.settledAt_of hm, Cluster.settledAt_of hn, (hnm.serves (k := 0)).gain, Nat.add_zero]

theorem swap (ht : threads[i]? = some t) (hb : u.begun = t.begun) (hv : u.version = t.version)
    (hc : u.committed = t.committed) (hr : u.rolledBack = t.rolledBack)
    (hp : (plans i).Plays u.calls (goal i)) :
    Orderly goal plans past drains seats c (threads.set i u) := by
  have hself : Function.update plans i (plans i) = plans := Function.update_eq_self i plans
  have hposts (j l : Nat) : posts seats (threads.set i u) plans j l =
      posts seats threads plans j l := by
    nth_rewrite 1 [← hself]
    rw [posts_set ht]
    split
    next hj =>
      rw [hj, posts_of ht, Thread.post, Thread.post]
      simp only [Thread.handle, hb]
    next => rfl
  refine ⟨h.seated, h.distinct, h.housed, h.nodes, fun j v hj => ?_, fun j v hj => ?_,
    fun i j k l p hi hj => ?_, fun a n k hn hk => ?_, by rw [List.length_set]; exact h.total⟩
  · rcases of_getElem?_set hj with ⟨rfl, rfl⟩ | ⟨-, hj⟩
    · exact (h.tracks j t ht).congr hb hv hc hr
    · exact h.tracks j v hj
  · rcases of_getElem?_set hj with ⟨rfl, rfl⟩ | ⟨-, hj⟩
    · exact hp
    · exact h.plays j v hj
  · rw [hposts] at hi hj
    exact h.apart i j k l p hi hj
  · obtain ⟨i, l, hp⟩ := h.covered a n k hn hk
    exact ⟨i, l, (hposts i l).trans hp⟩

section Stroke

variable (ht : threads[i]? = some t) (hn : c.node? a = some n)
include ht hn

theorem total_put (hg : m.queue.settled = n.queue.settled + gain)
    (hw : Q.written = (plans i).written + gain) :
    (seats.map (c.editNode a fun _ => m).settledAt).sum =
      ((List.range threads.length).map fun j => (Function.update plans i Q j).written).sum := by
  have hnode {b : Address} : (c.editNode a fun _ => m).settledAt b =
      if b = a then m.queue.settled else c.settledAt b := by
    rw [Cluster.settledAt, Cluster.node?_put hn]
    split <;> rfl
  have hleft : (seats.map (c.editNode a fun _ => m).settledAt).sum =
      (seats.map c.settledAt).sum + gain := by
    refine sum_map_add h.distinct (h.housed.mem hn) (fun b _ hb => hnode.trans (if_neg hb)) ?_
    rw [hnode, if_pos rfl, hg, Cluster.settledAt_of hn]
  have hright : ((List.range threads.length).map fun j =>
      (Function.update plans i Q j).written).sum =
      ((List.range threads.length).map fun j => (plans j).written).sum + gain := by
    refine sum_map_add List.nodup_range
      (List.mem_range.mpr (List.getElem?_eq_some_iff.mp ht).1) (fun j _ hj => ?_) ?_
    · rw [Function.update_of_ne hj]
    · rw [Function.update_self, hw]
  rw [hleft, hright, h.total]

theorem tracks_put
    (hs : ∀ j < n.sequencer.met, j ≠ k → Sequencer.Spares j n.sequencer m.sequencer)
    (hk : k = n.sequencer.met ∨ ∃ l, t.post seats (plans i) l = some (a, k))
    (hu : u.Tracks seats (c.editNode a fun _ => m) Q) (hj : (threads.set i u)[j]? = some v) :
    v.Tracks seats (c.editNode a fun _ => m) (Function.update plans i Q j) := by
  rcases of_getElem?_set hj with ⟨rfl, rfl⟩ | ⟨hji, hj⟩
  · rw [Function.update_self]
    exact hu
  · rw [Function.update_of_ne hji]
    refine (h.tracks j v hj).spared fun l b k' hb => .edit hn hs ?_
    rintro rfl rfl
    rcases hk with rfl | ⟨l', hl'⟩
    · exact (h.post_lt_met hj hn hb).ne rfl
    · exact hji (h.apart j i l l' _ ((posts_of hj).trans hb) ((posts_of ht).trans hl')).1

theorem apart_put (hposts : ∀ l p, u.post seats Q l = some p →
      t.post seats (plans i) l = some p ∨ l = tx ∧ p = (a, n.sequencer.met))
    {x y : Nat} {p : Address × Nat}
    (hx : posts seats (threads.set i u) (Function.update plans i Q) x k = some p)
    (hy : posts seats (threads.set i u) (Function.update plans i Q) y l = some p) :
    x = y ∧ k = l := by
  have old {j l : Nat}
      (hj : posts seats (threads.set i u) (Function.update plans i Q) j l = some p) :
      posts seats threads plans j l = some p ∨ (j = i ∧ l = tx) ∧ p = (a, n.sequencer.met) := by
    rw [posts_set ht] at hj
    split at hj
    next he =>
      subst he
      exact (hposts l p hj).imp (posts_of ht).trans fun ⟨hl, hp⟩ => ⟨⟨rfl, hl⟩, hp⟩
    next => exact .inl hj
  rcases old hx with hx | ⟨⟨rfl, rfl⟩, rfl⟩
  · rcases old hy with hy | ⟨-, rfl⟩
    · exact h.apart x y k l p hx hy
    · exact absurd hx (h.not_posted hn)
  · rcases old hy with hy | ⟨⟨rfl, rfl⟩, -⟩
    · exact absurd hy (h.not_posted hn)
    · exact ⟨rfl, rfl⟩

theorem covered_put
    (hkeep : ∀ l p, t.post seats (plans i) l = some p → u.post seats Q l = some p)
    (hcovered : ∀ k < m.sequencer.met, k < n.sequencer.met ∨ u.post seats Q tx = some (a, k))
    {b : Address} {m' : Node} (hm : (c.editNode a fun _ => m).node? b = some m')
    (hk : k < m'.sequencer.met) :
    ∃ j l, posts seats (threads.set i u) (Function.update plans i Q) j l = some (b, k) := by
  have still {j l : Nat} {p : Address × Nat} (hj : posts seats threads plans j l = some p) :
      posts seats (threads.set i u) (Function.update plans i Q) j l = some p := by
    rw [posts_set ht]
    split
    next he =>
      subst he
      exact hkeep l p ((posts_of ht).symm.trans hj)
    next => exact hj
  rw [Cluster.node?_put hn] at hm
  split at hm
  next hb =>
    cases hm
    subst hb
    rcases hcovered k hk with hk | hk
    · obtain ⟨j, l, hp⟩ := h.covered _ n k hn hk
      exact ⟨j, l, still hp⟩
    · exact ⟨i, tx, by rw [posts_set ht, if_pos rfl, hk]⟩
  next =>
    obtain ⟨j, l, hp⟩ := h.covered b m' k hm hk
    exact ⟨j, l, still hp⟩

theorem stroke (tx : Nat) (hm : m.InOrder (drains' a) (past' a))
    (hd : ∀ b ≠ a, drains' b = drains b) (hp : ∀ b ≠ a, past' b = past b)
    (hs : ∀ j < n.sequencer.met, j ≠ k → Sequencer.Spares j n.sequencer m.sequencer)
    (hk : k = n.sequencer.met ∨ ∃ l, t.post seats (plans i) l = some (a, k))
    (hu : u.Tracks seats (c.editNode a fun _ => m) Q) (hplays : Q.Plays u.calls (goal i))
    (hg : m.queue.settled = n.queue.settled + gain) (hw : Q.written = (plans i).written + gain)
    (hkeep : ∀ l p, t.post seats (plans i) l = some p → u.post seats Q l = some p)
    (hposts : ∀ l p, u.post seats Q l = some p → t.post seats (plans i) l = some p ∨
      l = tx ∧ p = (a, n.sequencer.met))
    (hcovered : ∀ k < m.sequencer.met, k < n.sequencer.met ∨ u.post seats Q tx = some (a, k)) :
    Orderly goal (Function.update plans i Q) past' drains' seats (c.editNode a fun _ => m)
      (threads.set i u) := by
  refine ⟨h.seated, h.distinct, h.housed.edit, fun b l hl => ?_,
    fun j v hj => h.tracks_put ht hn hs hk hu hj, fun j v hj => ?_,
    fun x y k l p hx hy => h.apart_put ht hn hposts hx hy,
    fun b m' k hm' hk' => h.covered_put ht hn hkeep hcovered hm' hk', ?_⟩
  · rw [Cluster.node?_put hn] at hl
    split at hl
    next hb =>
      cases hl
      exact hb ▸ hm
    next hb =>
      rw [hd b hb, hp b hb]
      exact h.nodes b l hl
  · rcases of_getElem?_set hj with ⟨rfl, rfl⟩ | ⟨hj', hj⟩
    · rw [Function.update_self]
      exact hplays
    · rw [Function.update_of_ne hj']
      exact h.plays j v hj
  · rw [List.length_set]
    exact h.total_put ht hn hg hw

theorem serve (hm : m.InOrder (drains' a) (past' a)) (hd : ∀ b ≠ a, drains' b = drains b)
    (hp : ∀ b ≠ a, past' b = past b) (hs : n.Serves k gain m)
    (hk : k = n.sequencer.met ∨ ∃ l, t.post seats (plans i) l = some (a, k))
    (hu : u.Tracks seats (c.editNode a fun _ => m) Q) (hplays : Q.Plays u.calls (goal i))
    (hw : Q.written = (plans i).written + gain)
    (hposts : ∀ l, u.post seats Q l = t.post seats (plans i) l) :
    Orderly goal (Function.update plans i Q) past' drains' seats (c.editNode a fun _ => m)
      (threads.set i u) := by
  refine h.stroke ht hn 0 hm hd hp hs.spares hk hu hplays hs.gain hw ?_ ?_ ?_
  · exact fun l p hl => (hposts l).trans hl
  · exact fun l p hl => .inl ((hposts l).symm.trans hl)
  · exact fun k hk => .inl (hs.met ▸ hk)

theorem apply (hm : m.InOrder (drains' a) (past' a)) (hd : ∀ b ≠ a, drains' b = drains b)
    (hp : ∀ b ≠ a, past' b = past b) (hs : n.Serves n.sequencer.met 0 m)
    (hu : u.Tracks seats c (plans i))
    (hpost : ∀ l, u.post seats (plans i) l = t.post seats (plans i) l)
    (hplays : (plans i).Plays u.calls (goal i)) :
    Orderly goal plans past' drains' seats (c.editNode a fun _ => m) (threads.set i u) := by
  have htracks : u.Tracks seats (c.editNode a fun _ => m) (plans i) := by
    refine hu.spared fun l b j hl => .edit hn hs.spares ?_
    rintro rfl
    exact (h.post_lt_met ht hn ((hpost l).symm.trans hl)).ne
  have hstroke := h.serve (Q := plans i) ht hn hm hd hp hs (.inl rfl) htracks hplays rfl hpost
  rwa [Function.update_eq_self] at hstroke

end Stroke

section Act

variable {action : Action} {visible : Nat → Option Version} (ht : threads[i]? = some t)
  (hn : c.node? (seats.at node) = some n) (hu : u.Tracks seats c (plans i))
  (hpost : ∀ l, u.post seats (plans i) l = t.post seats (plans i) l)
  (hplays : Q.Plays u.calls (goal i))
include ht hn hu hpost hplays

theorem act_begin (hm : (plans i).Move ⟨node, .begin⟩ Q) :
    let r := u.act n visible .begin
    Orderly goal (Function.update plans i Q) past drains seats
      (c.editNode (seats.at node) fun _ => r.2.1) (threads.set i r.1) := by
  intro r
  obtain ⟨P, hP⟩ : ∃ P, plans i = P := ⟨_, rfl⟩
  rw [hP] at hm hu hpost
  cases hm with
  | begin _ hf =>
    obtain ⟨hin, hmet, hs, hg, hu', hnew⟩ := hu.act_begin hn (h.nodes _ n hn) visible
    have habsent : u.post seats P P.standings.length = none := by
      rw [Thread.post, List.getElem?_eq_none (Nat.le_refl _)]
      rfl
    refine h.stroke (k := n.sequencer.met) ht hn P.standings.length hin
      (fun _ _ => rfl) (fun _ _ => rfl) (fun j hj _ => hs j hj) (.inl rfl) (hu' hf) ?_
      (hg.trans (Nat.add_zero _).symm)
      (congrArg Plan.written hP).symm (fun l p hl => ?_) (fun l p hl => ?_) fun k hk => ?_
    · rw [Thread.calls_act]
      exact hplays
    · rw [hP, ← hpost] at hl
      rw [hnew, if_neg, hl]
      rintro rfl
      rw [habsent] at hl
      cases hl
    · rw [hnew] at hl
      split at hl
      next he => exact .inr ⟨he, (Option.some.inj hl).symm⟩
      next => exact .inl (by rw [hP, ← hpost, hl])
    · rw [hmet] at hk
      rw [hnew, if_pos rfl]
      rcases Nat.lt_succ_iff_lt_or_eq.mp hk with hk | rfl
      · exact .inl hk
      · exact .inr rfl

theorem act_apply {keeper : Nat} (hm : (plans i).Move ⟨node, .apply keeper⟩ Q)
    (hd : drains (seats.at node) = .idle) :
    let r := u.act n visible (.apply keeper)
    ∃ past', Orderly goal plans past' drains seats
      (c.editNode (seats.at node) fun _ => r.2.1) (threads.set i r.1) := by
  intro r
  have hQ : plans i = Q := by
    cases hm
    rfl
  subst hQ
  obtain ⟨won, hin, hs⟩ := (h.nodes _ n hn).applyReady 0 hd
  refine ⟨Function.update past (seats.at node) (past (seats.at node) ++ [won]),
    h.apply ht hn ?_ (fun _ _ => rfl) (fun b hb => Function.update_of_ne hb ..) hs
      (hu.congr rfl rfl rfl rfl) hpost hplays⟩
  rw [hd, Function.update_self]
  exact hin

theorem act_call (hm : (plans i).Move ⟨node, action⟩ Q) (hb : action ≠ .begin)
    (ha : ∀ keeper, action ≠ .apply keeper) :
    let r := u.act n visible action
    Orderly goal (Function.update plans i Q) past drains seats
      (c.editNode (seats.at node) fun _ => r.2.1) (threads.set i r.1) := by
  intro r
  have own (k l : Nat) (p : Address × Nat) (hk : u.post seats (plans i) k = some p)
      (hl : u.post seats (plans i) l = some p) : k = l :=
    h.own ht p (hpost k ▸ hk) (hpost l ▸ hl)
  obtain ⟨hin, hdoes⟩ := hu.act hn (h.nodes _ n hn) own visible hm hb ha
  obtain ⟨k, gain, hs, hw, hk⟩ := hdoes.serves
  refine h.serve ht hn hin (fun _ _ => rfl) (fun _ _ => rfl) hs ?_ hdoes.tracks ?_ hw
    fun l => (hdoes.posts l).trans (hpost l)
  · exact hk.imp_right fun ⟨l, hl⟩ => ⟨l, (hpost l).symm.trans hl⟩
  · rw [Thread.calls_act]
    exact hplays

end Act

theorem perform {call : Call} {rest : List Call} (ht : threads[i]? = some t)
    (hc : t.calls = call :: rest)
    (hd : ∀ keeper, call.action = .apply keeper → drains (seats.at call.node) = .idle) :
    let r := Thread.perform seats c { t with calls := rest } call
    ∃ plans' past', Orderly goal plans' past' drains seats r.1 (threads.set i r.2.1) := by
  intro r
  obtain ⟨node, action⟩ := call
  obtain ⟨n, hn⟩ := h.some_node node
  obtain ⟨Q, hm, hplays⟩ : ∃ Q, (plans i).Move ⟨node, action⟩ Q ∧ Q.Plays rest (goal i) := by
    have hp := h.plays i t ht
    rwa [hc] at hp
  have hu : ({ t with calls := rest } : Thread).Tracks seats c (plans i) :=
    (h.tracks i t ht).congr rfl rfl rfl rfl
  have hr : r = (c.editNode (seats.at node) fun _ => (Thread.act { t with calls := rest } n
      (Thread.visibleAt seats c) action).2.1, (Thread.act { t with calls := rest } n
      (Thread.visibleAt seats c) action).1, (Thread.act { t with calls := rest } n
      (Thread.visibleAt seats c) action).2.2) := by
    change Thread.perform seats c { t with calls := rest } ⟨node, action⟩ = _
    simp only [Thread.perform, hn]
  rw [hr]
  by_cases hb : action = .begin
  · subst hb
    exact ⟨_, _, h.act_begin ht hn hu (fun _ => rfl) hplays hm⟩
  · by_cases ha : ∃ keeper, action = .apply keeper
    · obtain ⟨keeper, rfl⟩ := ha
      exact ⟨_, h.act_apply ht hn hu (fun _ => rfl) hplays hm (hd keeper rfl)⟩
    · exact ⟨_, _, h.act_call ht hn hu (fun _ => rfl) hplays hm hb fun keeper he => ha ⟨keeper, he⟩⟩

theorem turn (ht : threads[i]? = some t)
    (hd : ∀ node keeper rest, t.Due ⟨node, .apply keeper⟩ rest → drains (seats.at node) = .idle) :
    let r := t.turn seats c
    ∃ plans' past', Orderly goal plans' past' drains seats r.1 (threads.set i r.2.1) := by
  intro r
  obtain ⟨r', hr⟩ : ∃ r', t.turn seats c = r' := ⟨_, rfl⟩
  have hr' : r = r' := hr
  rw [Thread.turn] at hr
  rw [hr']
  split at hr
  next tx rest happlied =>
    subst hr
    have hcache : c.Tends (Thread.handOn seats t.keeper c tx) :=
      .editNode fun n _ => ⟨rfl, rfl, rfl, rfl, rfl, rfl⟩
    exact ⟨plans, past, (h.tend hcache).swap ht rfl rfl rfl rfl (h.plays i t ht)⟩
  next call rest happlied hcalls =>
    subst hr
    exact h.perform ht hcalls fun keeper hk => hd call.node keeper rest
      ⟨happlied, by rw [hcalls, ← hk]⟩
  next =>
    subst hr
    exact ⟨plans, past, h.swap ht rfl rfl rfl rfl (h.plays i t ht)⟩

end Orderly

end Simulation

end Multiversion
