import Mathlib
import Multiversion.Proofs.Cluster.Asking
import Multiversion.Proofs.Simulation.InOrder

namespace Multiversion

namespace Cluster

variable {c d e : Cluster} {seats : List Address} {a b : Address} {n m : Node} {f : Node → Node}
  {r : Request} {ms : Nat}

structure Housed (seats : List Address) (c : Cluster) : Prop where
  roster : c.roster = seats
  faults : c.faults = []
  view : c.view.members = seats
  nodes : ∀ a, (c.node? a).isSome ↔ a ∈ seats

def Runs (c : Cluster) : Prop := ∀ a n, c.node? a = some n → n.stopped = false

structure Tends (c d : Cluster) : Prop where
  roster : d.roster = c.roster
  faults : d.faults = c.faults
  view : d.view = c.view
  nodes : ∀ a n, c.node? a = some n → ∃ m, d.node? a = some m ∧ n.Tended m
  absent : ∀ a, c.node? a = none → d.node? a = none

namespace Tends

theorem of_eq (hr : d.roster = c.roster) (hf : d.faults = c.faults) (hv : d.view = c.view)
    (h : ∀ a, d.node? a = c.node? a) : c.Tends d :=
  ⟨hr, hf, hv, fun a n hn => ⟨n, (h a).trans hn, .refl⟩, fun a hn => (h a).trans hn⟩

theorem refl : c.Tends c := .of_eq rfl rfl rfl fun _ => rfl

theorem trans (h : c.Tends d) (h' : d.Tends e) : c.Tends e := by
  refine ⟨h'.roster.trans h.roster, h'.faults.trans h.faults, h'.view.trans h.view,
    fun a n hn => ?_, fun a hn => h'.absent a (h.absent a hn)⟩
  obtain ⟨m, hm, hnm⟩ := h.nodes a n hn
  obtain ⟨k, hk, hmk⟩ := h'.nodes a m hm
  exact ⟨k, hk, hnm.trans hmk⟩

theorem back (h : c.Tends d) (hm : d.node? a = some m) : ∃ n, c.node? a = some n ∧ n.Tended m := by
  cases hn : c.node? a with
  | none =>
    rw [h.absent a hn] at hm
    cases hm
  | some n =>
    obtain ⟨k, hk, hnk⟩ := h.nodes a n hn
    rw [hk] at hm
    cases hm
    exact ⟨n, rfl, hnk⟩

theorem housed (h : c.Tends d) (hc : c.Housed seats) : d.Housed seats := by
  refine ⟨h.roster.trans hc.roster, h.faults.trans hc.faults, ?_, fun a => ?_⟩
  · rw [h.view]
    exact hc.view
  · rw [← hc.nodes]
    cases hn : c.node? a with
    | none => simp [h.absent a hn]
    | some n =>
      obtain ⟨m, hm, -⟩ := h.nodes a n hn
      simp [hm]

theorem runs (h : c.Tends d) (hc : c.Runs) : d.Runs := by
  intro a m hm
  obtain ⟨n, hn, hnm⟩ := h.back hm
  exact hnm.stopped.trans (hc a n hn)

theorem editNode (h : ∀ n, c.node? a = some n → n.Tended (f n)) : c.Tends (c.editNode a f) := by
  refine ⟨rfl, rfl, rfl, fun b n hn => ?_, fun b hn => ?_⟩
  · rw [node?_editNode, hn]
    by_cases hb : b = a
    · rw [if_pos hb]
      exact ⟨f n, rfl, h n (hb ▸ hn)⟩
    · rw [if_neg hb]
      exact ⟨n, rfl, .refl⟩
  · rw [node?_editNode, hn]
    rfl

end Tends

theorem Housed.some_of_mem (h : c.Housed seats) (ha : a ∈ seats) : ∃ n, c.node? a = some n :=
  Option.isSome_iff_exists.mp ((h.nodes a).mpr ha)

theorem Housed.mem (h : c.Housed seats) (hn : c.node? a = some n) : a ∈ seats :=
  (h.nodes a).mp (Option.isSome_of_eq_some hn)

theorem Housed.edit (h : c.Housed seats) : (c.editNode a f).Housed seats := by
  refine ⟨h.roster, h.faults, h.view, fun b => ?_⟩
  rw [node?_editNode, Option.isSome_map]
  exact h.nodes b

theorem tended_handle : n.Tended (n.handle r).1 := by
  cases r <;> exact ⟨rfl, rfl, rfl, rfl, rfl, rfl⟩

theorem Housed.deliver (h : c.Housed seats) (hb : b ∈ seats) : c.Tends (c.deliver b r).1 ∧
    ∃ n : Node, (c.deliver b r).2.1 = .answered (n.handle r).2 := by
  obtain ⟨n, hn⟩ := h.some_of_mem hb
  have hm : c.member? b = some (.node n) := by
    rw [node?_eq] at hn
    obtain ⟨m, hm, hmn⟩ := Option.bind_eq_some_iff.mp hn
    cases m with
    | node k =>
      cases hmn
      exact hm
    | scripted k => cases hmn
  have hd : c.deliver b r =
      (c.editNode b fun _ => (n.handle r).1, .answered (n.handle r).2, []) := by
    simp only [Cluster.deliver, h.faults, List.lookup_nil, h.roster, hb, if_true, hm]
  rw [hd]
  refine ⟨.editNode fun k hk => ?_, n, rfl⟩
  rw [hn] at hk
  cases hk
  exact tended_handle

theorem Housed.deliverAll (h : c.Housed seats) {bs : List Address} (hbs : ∀ b ∈ bs, b ∈ seats) :
    c.Tends (c.deliverAll r bs).1 ∧
      ∀ e ∈ (c.deliverAll r bs).2.1, ∃ n : Node, e.2 = .answered (n.handle r).2 := by
  induction bs generalizing c with
  | nil => exact ⟨.refl, fun e he => absurd he List.not_mem_nil⟩
  | cons b bs ih =>
    obtain ⟨hb, hbs⟩ := List.forall_mem_cons.mp hbs
    obtain ⟨hd, n, hn⟩ := h.deliver (r := r) hb
    obtain ⟨hrest, hreplies⟩ := ih (hd.housed h) hbs
    refine ⟨hd.trans hrest, fun e he => ?_⟩
    rcases List.mem_cons.mp he with rfl | he
    · exact ⟨n, hn⟩
    · exact hreplies e he

theorem Housed.ask (h : c.Housed seats) : c.Tends ((transport a).ask c r).1 ∧
    ∀ e ∈ ((transport a).ask c r).2.1, ∃ n : Node, e.2 = .answered (n.handle r).2 :=
  h.deliverAll fun _ hb => h.view ▸ (List.mem_filter.mp hb).1

theorem answers_ok {α : Type} {accept : Response → Option α} (ms : Nat)
    {replies : List (Address × Reply)}
    (hr : ∀ e ∈ replies, ∃ n : Node, e.2 = .answered (n.handle r).2)
    (ha : ∀ n : Node, (accept (n.handle r).2).isSome) :
    ∃ found heard, Gather.answers accept ms replies = (.ok found, heard) := by
  have hp : ∀ e ∈ replies, Gather.Passes accept e.2 := by
    intro e he
    obtain ⟨n, hn⟩ := hr e he
    obtain ⟨x, hx⟩ := Option.isSome_iff_exists.mp (ha n)
    exact .inr ⟨_, x, hn, hx⟩
  exact ⟨_, _, Prod.ext (Gather.answers_of_passes hp) rfl⟩

theorem tends_closeViews {result : Except GcError (Nat × Nat)} {heard : List Notice} :
    c.Tends (Cycle.closeViews (transport a) c ms result heard).1 := by
  have edit (retry : Bool) : c.Tends (c.editNode a fun n => { n with retryView := retry }) :=
    .editNode fun n _ => ⟨rfl, rfl, rfl, rfl, rfl, rfl⟩
  have count {d : Cluster} (notices : List Notice) : d.Tends (d.editNode a (·.count notices)) :=
    .editNode fun n _ => ⟨rfl, rfl, rfl, rfl, rfl, rfl⟩
  cases result with
  | ok found => exact (edit false).trans (count _)
  | error e => exact (edit true).trans (count _)

section Cycles

variable (h : c.Housed seats) (hr : c.Runs) (ha : a ∈ seats)
include h hr ha

theorem Housed.node_transport : ∃ n, c.node? a = some n ∧ (transport a).node c = n ∧
    n.stopped = false := by
  obtain ⟨n, hn⟩ := h.some_of_mem ha
  exact ⟨n, hn, Cluster.node_transport hn, hr a n hn⟩

theorem Housed.versionGc :
    c.Tends (c.versionGc a ms).1 ∧ ∃ o, (c.versionGc a ms).2.1 = .ok o := by
  obtain ⟨d, hd⟩ : ∃ d, (transport a).update c (fun n => { n with since := 0 }) = d := ⟨_, rfl⟩
  have hcd : c.Tends d := by
    rw [← hd]
    exact .editNode fun n _ => ⟨rfl, rfl, rfl, rfl, rfl, rfl⟩
  obtain ⟨n, hn, hdn, hs⟩ := (hcd.housed h).node_transport (hcd.runs hr) ha
  obtain ⟨hask, hreplies⟩ := (hcd.housed h).ask (a := a) (r := .minimumVersion)
  obtain ⟨m, hm, hem, hs'⟩ := (hask.housed (hcd.housed h)).node_transport
    (hask.runs (hcd.runs hr)) ha
  obtain ⟨hstate, hresult⟩ := Cycle.versionFloor_eq (lawful_transport (a := a)) (s := d)
    (Option.isSome_of_eq_some hn)
  rw [hdn, hs, if_neg Bool.false_ne_true] at hstate
  have hok : Cycle.verdict ((transport a).node d) ((transport a).ask d .minimumVersion).2.1
      ((transport a).node ((transport a).ask d .minimumVersion).1).stopped =
      .ok (n.position.meet n.localMinimum
        (Gather.reported ((transport a).ask d .minimumVersion).2.1)) := by
    rw [hdn, hem]
    refine Cycle.verdict_ok.mpr ⟨⟨hs, hs', fun e he => ?_⟩, rfl⟩
    obtain ⟨k, hk⟩ := hreplies e he
    exact .inr ⟨k.localMinimum, hk⟩
  rw [hok] at hresult
  obtain ⟨⟨u, found, heard⟩, hv⟩ : ∃ v, Cycle.versionFloor (transport a) d = v := ⟨_, rfl⟩
  rw [hv] at hstate hresult
  obtain rfl : u = _ := hstate
  obtain rfl : found = _ := hresult
  rw [Cluster.versionGc, Cycle.versions, hd]
  simp only [hv]
  refine ⟨hcd.trans (hask.trans (Tends.trans (.editNode fun k hk => ?_)
    (.editNode fun n _ => ⟨rfl, rfl, rfl, rfl, rfl, rfl⟩))), _, rfl⟩
  have hkm : k = m := Option.some.inj (hk.symm.trans hm)
  rw [hem, hkm]
  exact ⟨rfl, rfl, rfl, rfl, rfl, rfl⟩

theorem Housed.l1Gc : c.Tends (c.l1Gc a ms).1 ∧ ∃ o, (c.l1Gc a ms).2.1 = .ok o := by
  obtain ⟨n, hn, hcn, hs⟩ := h.node_transport hr ha
  rw [Cluster.l1Gc, Cycle.l1, hcn]
  dsimp only
  by_cases hf : n.config.fullyReplicated = true
  · rw [if_pos hf]
    exact ⟨.refl, _, rfl⟩
  · rw [if_neg hf, hs, if_neg Bool.false_ne_true]
    refine ⟨.trans (.editNode fun k hk => ?_)
      (.editNode fun n _ => ⟨rfl, rfl, rfl, rfl, rfl, rfl⟩), _, rfl⟩
    obtain rfl : n = k := Option.some.inj (hn.symm.trans hk)
    exact ⟨rfl, rfl, rfl, rfl, rfl, rfl⟩

theorem Housed.leastView : ∃ d least heard,
    Cycle.leastView (transport a) c = (d, .ok least, heard) ∧ c.Tends d := by
  obtain ⟨hask, hreplies⟩ := h.ask (a := a) (r := .minimumView)
  obtain ⟨n, hn, hdn, hs⟩ := (hask.housed h).node_transport (hask.runs hr) ha
  obtain ⟨ids, heard, ho⟩ : ∃ ids heard, Gather.answers Response.view? n.config.rpcTimeoutMs
    _ = (.ok ids, heard) := answers_ok _ hreplies fun n => rfl
  simp only [Cycle.leastView, hdn, ho, hs]
  exact ⟨_, _, _, rfl, hask⟩

theorem Housed.purgeAll (least : Nat) : ∃ d removed heard,
    Cycle.purgeAll (transport a) c least = (d, .ok removed, heard) ∧ c.Tends d := by
  obtain ⟨n, hn, hcn, -⟩ := h.node_transport hr ha
  have hpurged : c.Tends (c.editNode a fun _ => (n.purgeViews least).1) := by
    refine .editNode fun k hk => ?_
    obtain rfl : n = k := Option.some.inj (hn.symm.trans hk)
    exact ⟨rfl, rfl, rfl, rfl, rfl, rfl⟩
  obtain ⟨hask, hreplies⟩ := (hpurged.housed h).ask (a := a) (r := .purge least)
  obtain ⟨m, -, hdm, -⟩ := (hask.housed (hpurged.housed h)).node_transport
    (hask.runs (hpurged.runs hr)) ha
  obtain ⟨done, heard, ho⟩ : ∃ done heard, Gather.answers Response.acknowledged?
    m.config.rpcTimeoutMs _ = (.ok done, heard) := answers_ok _ hreplies fun n => rfl
  have hupdate : (transport a).update c (fun _ => (n.purgeViews least).1) =
      c.editNode a fun _ => (n.purgeViews least).1 := rfl
  simp only [Cycle.purgeAll, hcn, hupdate, hdm, ho]
  exact ⟨_, _, _, rfl, hpurged.trans hask⟩

theorem Housed.viewGc : c.Tends (c.viewGc a ms).1 ∧ ∃ o, (c.viewGc a ms).2.1 = .ok o := by
  rw [Cluster.viewGc, Cycle.views]
  split
  · obtain ⟨n, -, hcn, hs⟩ := h.node_transport hr ha
    obtain ⟨d, least, heard, hl, hcd⟩ := h.leastView hr ha
    obtain ⟨e, removed, told, hp, hde⟩ := (hcd.housed h).purgeAll (hcd.runs hr) ha least
    simp only [Cycle.purgeUnreferenced, hcn, hs, Bool.false_eq_true, if_false, hl, hp]
    exact ⟨hcd.trans (hde.trans tends_closeViews), _, rfl⟩
  · exact ⟨.editNode fun n _ => ⟨rfl, rfl, rfl, rfl, rfl, rfl⟩, _, rfl⟩

theorem Housed.runCycle (k : Collector) (w : Wake) : c.Tends (c.runCycle a k w).1 := by
  cases k with
  | version => exact (h.versionGc hr ha).1
  | l1 => exact (h.l1Gc hr ha).1
  | view =>
    rw [Cluster.runCycle]
    dsimp only
    split
    · exact (h.viewGc hr ha).1
    · exact .refl

end Cycles

section Collectors

variable {k : Collector}

theorem tends_finishCycle {w : Worker} : c.Tends (c.finishCycle a k w).1 := by
  rw [finishCycle]
  split
  · exact .editNode fun n _ => ⟨rfl, rfl, rfl, rfl, rfl, rfl⟩
  · exact .refl

theorem Housed.advance (h : c.Housed seats) (hr : c.Runs) : c.Tends (c.advance a k).1 := by
  obtain ⟨d, hd⟩ : ∃ d, c.editNode a (fun n => n.editWorker k (·.advance n.stopped)) = d := ⟨_, rfl⟩
  have hcd : c.Tends d := by
    rw [← hd]
    exact .editNode fun n _ => ⟨rfl, rfl, rfl, rfl, rfl, rfl⟩
  rw [Cluster.advance, hd]
  dsimp only
  split
  next w hw =>
    split
    next wake _ =>
      obtain ⟨n, hn, -⟩ := Option.bind_eq_some_iff.mp hw
      have ha : a ∈ seats := (hcd.housed h).mem hn
      exact hcd.trans (((hcd.housed h).runCycle (hcd.runs hr) ha k wake).trans tends_finishCycle)
    next => exact hcd
  next => exact hcd

theorem Housed.advanceAll (h : c.Housed seats) (hr : c.Runs) (l : List (Address × Collector)) :
    c.Tends (c.advanceAll l).1 := by
  induction l generalizing c with
  | nil => exact .refl
  | cons e l ih =>
    have hcd := h.advance hr (a := e.1) (k := e.2)
    exact hcd.trans (ih (hcd.housed h) (hcd.runs hr))

theorem node?_sleep : ({ c with members := c.members.map fun (a, m) => (a, m.sleep ms) } :
    Cluster).node? b = (c.node? b).map fun n =>
      { n with workers := n.workers.map fun (k, w) => (k, w.sleep ms) } := by
  rw [node?_eq, node?_eq, member?, member?]
  dsimp only
  induction c.members with
  | nil => rfl
  | cons e l ih =>
    obtain ⟨u, m⟩ := e
    rw [List.map_cons, List.lookup_cons, List.lookup_cons]
    by_cases hb : b = u
    · subst hb
      simp only [BEq.rfl]
      cases m <;> rfl
    · rw [beq_eq_false_iff_ne.mpr hb]
      exact ih

theorem Housed.tick (h : c.Housed seats) (hr : c.Runs) : c.Tends c.tick.1 := by
  obtain ⟨d, hd⟩ : ∃ d, ({ c with members := c.members.map fun (a, m) => (a, m.sleep 1) } :
    Cluster) = d := ⟨_, rfl⟩
  have hcd : c.Tends d := by
    rw [← hd]
    refine ⟨rfl, rfl, rfl, fun b n hn => ?_, fun b hn => ?_⟩
    · rw [node?_sleep, hn]
      exact ⟨_, rfl, rfl, rfl, rfl, rfl, rfl, rfl⟩
    · rw [node?_sleep, hn]
      rfl
  rw [Cluster.tick, hd]
  exact hcd.trans ((hcd.housed h).advanceAll (hcd.runs hr) _)

end Collectors

end Cluster

end Multiversion
