import Mathlib
import Multiversion.Proofs.Cluster.Asking
import Multiversion.Proofs.Cluster.Collection

namespace Multiversion.Cluster

variable {a : Address} {c : Cluster} {n : Node}

namespace Round

theorem Run.deliverAll (own : Version) (bs : List Address) (hbs : ∀ b ∈ bs, b ∈ c.view.members)
    (replies : List (Address × Reply)) (taken : List (Address × Version))
    (readers : List Version) : ∃ taken' readers',
    Run a ⟨c, .asking own replies, taken, readers⟩
      ⟨(c.deliverAll .minimumVersion bs).1,
        .asking own (replies ++ (c.deliverAll .minimumVersion bs).2.1), taken', readers'⟩ ∧
    (c.deliverAll .minimumVersion bs).2.1.map (·.1) = bs ∧
    (c.deliverAll .minimumVersion bs).1.view = c.view ∧
    ∀ b, (c.node? b).isSome → ((c.deliverAll .minimumVersion bs).1.node? b).isSome := by
  induction bs generalizing c replies taken readers with
  | nil =>
    refine ⟨taken, readers, ?_, rfl, rfl, fun _ h => h⟩
    rw [Cluster.deliverAll, List.append_nil]
  | cons b bs ih =>
    have hkeeps := (deliver_minimum (c := c) (b := b)).1
    have hask := Step.ask (a := a) ⟨c, .asking own replies, taken, readers⟩ own replies b rfl
      (hbs b (List.mem_cons_self ..))
    obtain ⟨⟨d, reply, ns⟩, hd⟩ : ∃ d, c.deliver b .minimumVersion = d := ⟨_, rfl⟩
    rw [hd] at hkeeps hask
    obtain ⟨taken', readers', hrun, hmap, hv, hp⟩ := ih (c := d)
      (fun b hb => hkeeps.view ▸ hbs b (List.mem_cons_of_mem _ hb)) (replies ++ [(b, reply)]) _ _
    obtain ⟨⟨e, rs, ms⟩, he⟩ : ∃ e, d.deliverAll .minimumVersion bs = e := ⟨_, rfl⟩
    rw [he] at hrun hmap hv hp
    rw [List.append_assoc] at hrun
    simp only [Cluster.deliverAll, hd, he]
    exact ⟨taken', readers', hrun.head hask, by rw [List.map_cons, hmap],
      hv.trans hkeeps.view, fun b hb => hp b (hkeeps.present b hb)⟩

theorem Run.count (notices : List Notice) : Run a { cluster := c }
    { cluster := c.editNode a (·.count notices) } :=
  .single (.act { cluster := c } a _ fun n _ => .aside n _ rfl rfl rfl)

theorem Run.close {r : Round} {scope : Scope} {ms : Nat} {done failed : Counter}
    {result : Except GcError (Version × Nat)} {heard : List Notice}
    (h : Run a r { cluster := c }) : Run a r { cluster :=
      (Cycle.closeVersions (transport a) c scope ms done failed result heard).1 } := by
  cases result with
  | error e => exact h.trans (Run.count _)
  | ok found => exact h.trans (Run.count _)

theorem Run.sweep (hn : c.node? a = some n) (floor : Version) (taken : List (Address × Version))
    (readers : List Version) : Run a ⟨c, .agreed floor, taken, readers⟩
      { cluster := c.editNode a fun _ =>
          ((n.pruneLog floor).1.collectData (n.pruneLog floor).2).1 } := by
  obtain ⟨⟨m, needed⟩, hm⟩ : ∃ r, n.pruneLog floor = r := ⟨_, rfl⟩
  have hprune := Step.prune (a := a) ⟨c, .agreed floor, taken, readers⟩ floor n rfl hn
  rw [hm] at hprune ⊢
  have hnode : (c.editNode a fun _ => m).node? a = some m := by
    rw [node?_editNode, hn, if_pos rfl]
    rfl
  refine .head hprune (.single ?_)
  have hcollect (taken readers) := Step.collect (a := a)
    ⟨c.editNode a fun _ => m, .pruned needed, taken, readers⟩ needed m rfl hnode
  simp only [editNode_editNode] at hcollect
  exact hcollect _ _

theorem Run.versionFloor (hn : c.node? a = some n) : ∃ d result heard,
    Cycle.versionFloor (transport a) c = (d, result, heard) ∧
    match result with
    | .ok floor => (d.node? a).isSome ∧
        ∃ taken readers, Run a { cluster := c } ⟨d, .agreed floor, taken, readers⟩
    | .error _ => Run a { cluster := c } { cluster := d } := by
  have hnode : (transport a).node c = n := node_transport hn
  by_cases hs : n.stopped = true
  · exact ⟨c, .error .interrupted, [], by rw [Cycle.versionFloor, hnode, if_pos hs], .refl⟩
  · obtain ⟨taken, readers, hrun, hmap, hview, hpresent⟩ := Run.deliverAll (a := a)
      n.localMinimum (c.view.members.filter (· ≠ a)) (fun b hb => (List.mem_filter.mp hb).1)
      [] [(a, n.localMinimum)] (watched c [(a, n.localMinimum)])
    obtain ⟨⟨d, replies, asked⟩, hd⟩ : ∃ d, c.deliverAll .minimumVersion
        (c.view.members.filter (· ≠ a)) = d := ⟨_, rfl⟩
    rw [hd] at hrun hmap hview hpresent
    obtain ⟨m, hm⟩ := Option.isSome_iff_exists.mp (hpresent a (hn ▸ rfl))
    have hasked : Run a { cluster := c } ⟨d, .asking n.localMinimum replies, taken, readers⟩ :=
      .head (.measure { cluster := c } n rfl hn) hrun
    have habandoned : Run a { cluster := c } { cluster := d } := hasked.tail (.abandon _)
    have hnode' : (transport a).node d = m := node_transport hm
    have hask : (transport a).ask c .minimumVersion = (d, replies, asked) := hd
    obtain ⟨⟨found, heard⟩, ha⟩ : ∃ f, Gather.answers Response.version?
        m.config.rpcTimeoutMs replies = f := ⟨_, rfl⟩
    cases found with
    | error e =>
      refine ⟨d, .error e, asked ++ heard, ?_, habandoned⟩
      simp only [Cycle.versionFloor, Cycle.gatherFloor, hnode, hs, hask, hnode', ha]
      rfl
    | ok vs =>
      obtain ⟨floor, hfloor⟩ : ∃ floor, m.position.meet? (n.localMinimum :: vs) = some floor :=
        ⟨_, rfl⟩
      by_cases hs' : m.stopped = true
      · refine ⟨d, .error .interrupted, asked ++ heard, ?_, habandoned⟩
        simp only [Cycle.versionFloor, Cycle.gatherFloor, hnode, hs, hask, hnode', ha, hfloor, hs']
        rfl
      · refine ⟨d, .ok floor, asked ++ heard, ?_, hpresent a (hn ▸ rfl), _, _,
          hasked.tail (.agree _ _ _ m replies vs heard floor rfl hm ?_ (.refl _) ha hfloor)⟩
        · simp only [Cycle.versionFloor, Cycle.gatherFloor, hnode, hs, hask, hnode', ha, hfloor,
            hs']
          rfl
        · intro b hb hne
          rw [hmap, List.mem_filter]
          exact ⟨hview ▸ hb, decide_eq_true hne⟩

/-- A version cycle that nothing interrupts is a run of its steps, whatever it comes to. -/
theorem Run.versionGc (hn : c.node? a = some n) (ms : Nat) :
    Run a { cluster := c } { cluster := (c.versionGc a ms).1 } := by
  obtain ⟨d, hd⟩ : ∃ d, c.editNode a (fun n => { n with since := 0 }) = d := ⟨_, rfl⟩
  have hreset : Run a { cluster := c } { cluster := d } := by
    rw [← hd]
    exact .single (.act { cluster := c } a _ fun n _ => .aside n _ rfl rfl rfl)
  obtain ⟨m, hm⟩ : ∃ m, d.node? a = some m := by
    rw [← hd, node?_editNode, hn]
    exact ⟨_, rfl⟩
  have hupdate : (transport a).update c (fun n => { n with since := 0 }) = d := hd
  obtain ⟨e, result, heard, hfloor, hrun⟩ := Run.versionFloor hm
  rw [Cluster.versionGc, Cycle.versions, hupdate]
  simp only [hfloor]
  cases result with
  | error err => exact Run.close (hreset.trans hrun)
  | ok floor =>
    obtain ⟨hpresent, taken, readers, hrun⟩ := hrun
    obtain ⟨k, hk⟩ := Option.isSome_iff_exists.mp hpresent
    simp only [node_transport hk]
    exact Run.close (hreset.trans (hrun.trans (Run.sweep hk floor taken readers)))

theorem Run.l1Gc (hn : c.node? a = some n) (ms : Nat) :
    Run a { cluster := c } { cluster := (c.l1Gc a ms).1 } := by
  rw [Cluster.l1Gc, Cycle.l1, node_transport hn]
  dsimp only
  by_cases hf : n.config.fullyReplicated = true
  · rw [if_pos hf]
  · rw [if_neg hf]
    by_cases hs : n.stopped = true
    · rw [if_pos hs]
      exact Run.close .refl
    · rw [if_neg hs]
      exact Run.close (.head (.measureL1 { cluster := c } n rfl hn)
        (.single (.collectL1 _ n.localMinimum n rfl hn)))

end Round

end Multiversion.Cluster
