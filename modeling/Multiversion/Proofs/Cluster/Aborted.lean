import Mathlib
import Multiversion.Proofs.Cluster.Heard
import Multiversion.Proofs.Gc.Views

namespace Multiversion

structure Transport.Honest {σ : Type} (t : Transport σ) (I : σ → Prop)
    (others : σ → Address → Option ViewRegistry) : Prop extends t.Lawful I where
  keeps : ∀ s f, others (t.update s f) = others s
  asks : ∀ s, I s → others (t.ask s .minimumView).1 = others s
  purges : ∀ s least b, I s → others (t.ask s (.purge least)).1 b = others s b ∨
    others (t.ask s (.purge least)).1 b = (others s b).map fun r => (r.purge least).1

theorem Node.Halts.views {n m : Node} (h : n.Halts m) : m.views = n.views := by
  obtain ⟨stopped, workers, rfl⟩ := h
  rfl

namespace Cluster

variable {c : Cluster} {a b : Address} {r : Request}

def beside (a : Address) (c : Cluster) (b : Address) : Option ViewRegistry :=
  if b = a then none else (c.node? b).map (·.views)

theorem beside_ask : beside a ((transport a).ask c r).1 b = beside a c b ∨
    beside a ((transport a).ask c r).1 b =
      if b = a then none else (c.node? b).map fun n => (n.handle r).1.views := by
  have hheard : Heard r (c.view.members.filter (· ≠ a)) c ((transport a).ask c r).1 :=
    heard_deliverAll
  rw [beside, beside]
  by_cases hb : b = a
  · rw [if_pos hb, if_pos hb]
    exact .inl rfl
  · rw [if_neg hb, if_neg hb, if_neg hb]
    cases hn : c.node? b with
    | none =>
      rw [hheard.absent b hn]
      exact .inl rfl
    | some n =>
      obtain ⟨m, hm, ⟨-, hnm⟩ | ⟨-, hnm⟩, -⟩ := hheard.node b n hn
      · exact .inr (by rw [hm, Option.map_some, Option.map_some, hnm.views])
      · exact .inl (by rw [hm, Option.map_some, Option.map_some, hnm.views])

theorem honest_transport : (transport a).Honest (fun c => (c.node? a).isSome) (beside a) where
  toLawful := lawful_transport
  keeps c f := by
    funext b
    change beside a (c.editNode a f) b = beside a c b
    rw [beside, beside]
    by_cases hb : b = a
    · rw [if_pos hb, if_pos hb]
    · rw [if_neg hb, if_neg hb, node?_editNode, if_neg hb, Option.map_id]
      rfl
  asks c _ := by
    funext b
    exact beside_ask.elim id id
  purges c least b _ := by
    refine beside_ask.imp id fun h => h.trans ?_
    rw [beside]
    split
    · rfl
    · rw [Option.map_map]
      rfl

end Cluster

section Failed

variable {σ : Type} {t : Transport σ} {I : σ → Prop} {s : σ} {e : GcError}
  {others : σ → Address → Option ViewRegistry}

theorem Transport.Honest.others_closed (h : t.Honest I others) (retry : Bool)
    (notices : List Notice) : others (Cycle.closed t s retry notices) = others s :=
  (h.keeps ..).trans (h.keeps ..)

theorem Transport.Honest.others_purged (h : t.Honest I others) (least : Nat) :
    others (Cycle.purged t s least) = others s := h.keeps ..

theorem Transport.Honest.views_kept (ht : t.Honest I others) (hs : I s)
    (hc : t.coordinates s = true) (ms : Nat) :
    let n := t.node s
    let first := t.ask s .minimumView
    let after := (Cycle.views t ms s).1
    Cycle.least? n first.2.1 (t.node first.1).stopped = .error e →
      (Cycle.views t ms s).2.1 = .error e ∧ (t.node after).views = n.views ∧
        others after = others s := by
  intro n first after hl
  obtain ⟨hi, hhalts⟩ := ht.ask s .minimumView hs
  obtain ⟨hr, retry, notices, hafter⟩ := Cycle.views_error ht.toLawful hs hc ms hl
  have hu : I (if n.stopped then s else first.1) ∧
      (t.node (if n.stopped then s else first.1)).views = n.views ∧
      others (if n.stopped then s else first.1) = others s := by
    split
    · exact ⟨hs, rfl, rfl⟩
    · exact ⟨hi, hhalts.views, ht.asks s hs⟩
  obtain ⟨hi', hviews, hothers⟩ := hu
  obtain ⟨-, metrics, hnode⟩ := Cycle.node_closed ht.toLawful hi' retry notices
  rw [show after = _ from hafter]
  exact ⟨hr, by rw [hnode]; exact hviews, (ht.others_closed retry notices).trans hothers⟩

theorem Transport.Honest.views_purged (ht : t.Honest I others) (hs : I s)
    (hc : t.coordinates s = true) (ms : Nat) (least : Nat) :
    let n := t.node s
    let first := t.ask s .minimumView
    let second := t.ask (Cycle.purged t first.1 least) (.purge least)
    let after := (Cycle.views t ms s).1
    Cycle.least? n first.2.1 (t.node first.1).stopped = .ok least →
      (Cycle.views t ms s).2.1 =
        (Gather.answers Response.acknowledged? n.config.rpcTimeoutMs second.2.1).1.map
          (fun _ => .views least (n.views.purge least).2) ∧
      (t.node after).views = (n.views.purge least).1 ∧
      ∀ b, others after b = others s b ∨
        others after b = (others s b).map fun r => (r.purge least).1 := by
  intro n first second after hl
  obtain ⟨hi, hhalts⟩ := ht.ask s .minimumView hs
  obtain ⟨hip, hnp⟩ := Cycle.node_purged ht.toLawful hi least
  obtain ⟨hi', hhalts'⟩ := ht.ask _ (.purge least) hip
  obtain ⟨hr, retry, notices, hafter⟩ := Cycle.views_ok ht.toLawful hs hc ms hl
  obtain ⟨-, metrics, hnode⟩ := Cycle.node_closed ht.toLawful hi' retry notices
  rw [show after = _ from hafter]
  refine ⟨hr, ?_, fun b => ?_⟩
  · rw [hnode]
    have hviews : (t.node first.1).views = n.views := hhalts.views
    refine hhalts'.views.trans ?_
    rw [hnp, hviews]
  · have hb := ht.purges _ least b hip
    rw [ht.others_purged, ht.asks s hs] at hb
    rwa [ht.others_closed]

/-- A view cycle that fails leaves all views where they are, or every member has told the least view
    that it refers to and one of them has not acknowledged the purge below the least of these, which
    spares whatever the logs refer to. -/
theorem Cycle.views_kept_unless_told (ht : t.Honest I others) (hs : I s) (ms : Nat)
    (he : (views t ms s).2.1 = .error e) :
    let n := t.node s
    let first := t.ask s .minimumView
    let stops := (t.node first.1).stopped
    let least := (Gather.found Response.view? first.2.1).foldl min n.log.oldestView
    let second := t.ask (purged t first.1 least) (.purge least)
    let after := (views t ms s).1
    (t.node after).views = n.views ∧ others after = others s ∧
        (e = .interrupted ∧ (n.stopped = true ∨
            stops = true ∧ ∀ e ∈ first.2.1, Gather.Passes Response.view? e.2) ∨
          n.stopped = false ∧ Gather.Fails Response.view? n.config.rpcTimeoutMs first.2.1 e) ∨
      (n.stopped = false ∧ stops = false ∧ ∀ e ∈ first.2.1, Gather.Passes Response.view? e.2) ∧
        Gather.Fails Response.acknowledged? n.config.rpcTimeoutMs second.2.1 e ∧
        (∀ v ∈ n.log.versions, least ≤ v.view) ∧
        (t.node after).views = (n.views.purge least).1 ∧
        ∀ b, others after b = others s b ∨
          others after b = (others s b).map fun r => (r.purge least).1 := by
  intro n first stops least second after
  have hc : t.coordinates s = true := by
    by_contra hc
    rw [views, if_neg hc] at he
    cases he
  cases hl : least? n first.2.1 stops with
  | error e' =>
    obtain ⟨hr, hviews, hothers⟩ := ht.views_kept hs hc ms hl
    obtain rfl : e = e' := Except.error.inj (he.symm.trans hr)
    exact .inl ⟨hviews, hothers, least?_error hl⟩
  | ok k =>
    obtain ⟨hn, hstops, hp, rfl⟩ := least?_ok hl
    obtain ⟨hr, hviews, hothers⟩ := ht.views_purged hs hc ms least hl
    refine .inr ⟨⟨hn, hstops, hp⟩, ?_, fun v hv => ?_, hviews, hothers⟩
    · rw [hr] at he
      cases ha : (Gather.answers Response.acknowledged? n.config.rpcTimeoutMs second.2.1).1 with
      | error e' =>
        rw [ha] at he
        cases he
        exact Gather.answers_error ha
      | ok acks =>
        rw [ha] at he
        cases he
    · have hown : least ≤ n.log.oldestView := (isLeast_foldl_min ..).2 (List.mem_cons_self ..)
      exact hown.trans (CommitLog.isLeast_oldestView.2 ⟨v, hv, rfl⟩)

end Failed

namespace Cluster

def asker : Address := ⟨0⟩

def refuser : Address := ⟨1⟩

def refusing : Cluster :=
  let c := ({} : Cluster).join asker {}
  let c := c.add refuser (.scripted { minimumView := .view 9, purge := .view 9 })
  c.install.1.install.1.editNode asker (·.learn ⟨2, 0, [1]⟩)

end Cluster

open Cluster in
theorem Cycle.views_kept_unless_told_refused :
    let r := refusing.viewGc asker 0
    let n := (transport asker).node refusing
    r.2.1 = .error (.transport refuser "unexpected response MinimumViewId(9)") ∧
      ((transport asker).node r.1).views = (n.views.purge 2).1 := by
  intro r n
  have he : r.2.1 = .error (.transport refuser "unexpected response MinimumViewId(9)") := by
    decide +kernel
  have hlost : ((transport asker).node r.1).views ≠ n.views := by decide +kernel
  have hleast : (Gather.found Response.view?
      ((transport asker).ask refusing .minimumView).2.1).foldl min n.log.oldestView = 2 := by
    decide +kernel
  rcases views_kept_unless_told honest_transport (s := refusing) (by decide +kernel) 0 he with
    ⟨hkept, -⟩ | ⟨-, -, -, hpurged, -⟩
  · exact absurd hkept hlost
  · rw [hleast] at hpurged
    exact ⟨he, hpurged⟩

theorem Cluster.failed_cycle_purges :
    let r := refusing.viewGc asker 0
    r.2.1 = .error (.transport refuser "unexpected response MinimumViewId(9)") ∧
      (refusing.node? asker).map (fun n => n.views.views.map (·.id)) = some [1, 2] ∧
      (r.1.node? asker).map (fun n => n.views.views.map (·.id)) = some [2] := by
  decide +kernel

end Multiversion
