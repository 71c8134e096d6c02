import Mathlib
import Multiversion.Proofs.Cluster.Purge
import Multiversion.Proofs.Merge

namespace Multiversion

namespace Node

variable {n : Node}

/-- What the readers of a node pin or, if it has none, what its next reader would. -/
def demands (n : Node) : List Version :=
  match n.pins with
  | [] => [n.log.current]
  | v :: vs => v :: vs

theorem meet?_demands :
    n.position.meet? n.demands = some (n.localMinimum.rehomed n.position.index) := by
  have hpins : n.sequencer.live.pinned.map (·.2) = n.pins := rfl
  rw [demands, localMinimum, Live.minimum, hpins]
  cases n.pins with
  | nil =>
    refine congrArg some (Version.ext_component rfl rfl ?_ fun i => Position.component_meet)
    simp [Position.meet, Position.mergeWith, Position.meet?, Version.rehomed]
  | cons v vs => rfl

end Node

namespace Position

variable {p : Position} {ms : List Node}

theorem meet?_localMinimum :
    p.meet? (ms.map Node.localMinimum) = p.meet? (ms.flatMap Node.demands) := by
  let groups := ms.map fun m => (m.position, m.demands)
  let rehome (m : Node) : Version := m.localMinimum.rehomed m.position.index
  have hmerged : merged min groups = ms.map rehome := by
    rw [merged, List.filterMap_map, ← List.filterMap_eq_map]
    exact List.filterMap_congr fun m _ => meet?_eq.symm.trans Node.meet?_demands
  have hall : groups.flatMap (·.2) = ms.flatMap Node.demands := List.flatMap_map ..
  have hhome : p.merge? min (ms.map rehome) = p.merge? min (ms.map Node.localMinimum) :=
    merge?_map_rehomed
  rw [meet?_eq, meet?_eq, ← hhome, ← hmerged, ← hall]
  exact merge?_merged selects_min

end Position

namespace Cluster

variable {c : Cluster} {a b : Address} {n : Node} {floor : Version}

instance : Decidable (c.Reaches b) := inferInstanceAs (Decidable (_ ∧ _))

def answerer? (c : Cluster) (b : Address) : Option Node := if c.Reaches b then c.node? b else none

def answerers (c : Cluster) (a : Address) : List Node :=
  (c.view.members.filter (· ≠ a)).filterMap c.answerer?

theorem version?_reply : Gather.answer? Response.version? (c.reply .minimumVersion b) =
    (c.answerer? b).map Node.localMinimum := by
  cases hf : c.faults.lookup b with
  | some f => cases f <;> simp [reply, answerer?, Reaches, hf, Fault.reply, Gather.answer?]
  | none =>
    by_cases hr : b ∈ c.roster
    · cases hn : c.node? b <;>
        simp [reply, answerer?, Reaches, hf, hr, hn, Gather.answer?, Node.handle,
          Response.version?]
    · simp [reply, answerer?, Reaches, hf, hr, Gather.answer?]

theorem reported_replies : Gather.reported ((c.view.members.filter (· ≠ a)).map fun b =>
    (b, c.reply .minimumVersion b)) = (c.answerers a).map Node.localMinimum := by
  rw [Gather.reported, List.filterMap_map, answerers, List.map_filterMap]
  exact List.filterMap_congr fun b _ => version?_reply

theorem gatherFloor_plain (hp : c.Plain) (hn : c.node? a = some n) :
    (c.gatherFloor a).2.1 = .ok floor ↔ c.Unhindered a ∧
      n.position.meet? ((n :: c.answerers a).flatMap Node.demands) = some floor := by
  let replies := ((transport a).ask c .minimumVersion).2.1
  have hreplies : replies = (c.view.members.filter (· ≠ a)).map fun b =>
      (b, c.reply .minimumVersion b) := replies_deliverAll hp
  have hpass : (∀ e ∈ replies, Gather.Passes Response.version? e.2) ↔ c.Unhindered a := by
    rw [hreplies]
    exact passes_replies fun n => rfl
  have hgathered : (c.gatherFloor a).2.1 = Cycle.gathered n replies := by
    rw [← node_transport hn]
    exact (Cycle.gatherFloor_eq lawful_transport (Option.isSome_of_eq_some hn)).2
  rw [hgathered, Cycle.gathered_ok, hpass, hreplies, reported_replies, ← List.map_cons,
    Position.meet?_localMinimum]

/-- Meet and join are the greatest lower and the least upper bound. They go by the set of the
    versions alone, and those of groups, merged wherever, merge into those of all. Hence the floor
    of a cycle is the one meet of what all who take part still need. -/
theorem meet_join_flat (p : Position) :
    (∀ vs, vs ≠ [] → ∃ v w, p.meet? vs = some v ∧ p.join? vs = some w ∧
      (∀ u ∈ vs, v.dominatedBy u = true) ∧
      (∀ u : Version, (∀ x ∈ vs, u.dominatedBy x = true) → u.dominatedBy v = true) ∧
      IsLeast {id | ∃ u ∈ vs, u.view = id} v.view ∧
      (∀ u ∈ vs, u.dominatedBy w = true) ∧
      (∀ u : Version, (∀ x ∈ vs, x.dominatedBy u = true) → w.dominatedBy u = true) ∧
      IsGreatest {id | ∃ u ∈ vs, u.view = id} w.view) ∧
    (∀ vs ws, (∀ v, v ∈ vs ↔ v ∈ ws) → p.meet? vs = p.meet? ws ∧ p.join? vs = p.join? ws) ∧
    (∀ (groups : List (Position × List Version)) vs,
      (∀ v, v ∈ vs ↔ ∃ g ∈ groups, v ∈ g.2) →
        p.meet? (groups.filterMap fun g => g.1.meet? g.2) = p.meet? vs ∧
        p.join? (groups.filterMap fun g => g.1.join? g.2) = p.join? vs) ∧
    (∀ (q : Position) vs, p.meet? vs = (q.meet? vs).map (·.rehomed p.index) ∧
      p.join? vs = (q.join? vs).map (·.rehomed p.index)) ∧
    ∀ c a n, Plain c → c.node? a = some n → n.position = p →
      ((∃ floor, (c.gatherFloor a).2.1 = .ok floor) ↔ c.Unhindered a) ∧
      ∀ floor, (c.gatherFloor a).2.1 = .ok floor →
        p.meet? ((n :: c.answerers a).flatMap Node.demands) = some floor := by
  refine ⟨fun vs hvs => ?_, fun vs ws hs => ?_, fun groups vs hs => ?_, fun q vs => ?_,
    fun c a n hp hn hpos => ?_⟩
  · obtain ⟨v, hv, hmeet⟩ := Position.exists_merge (p := p) selects_min hvs
    obtain ⟨w, hw, hjoin⟩ := Position.exists_merge (p := p) selects_max hvs
    refine ⟨v, w, Position.meet?_eq.trans hv, Position.join?_eq.trans hw, ?_⟩
    exact ⟨fun u => hmeet.dominatedBy, fun u => hmeet.greatest, hmeet.view,
      fun u => hjoin.dominates, fun u => hjoin.least, hjoin.view⟩
  · simp only [Position.meet?_eq, Position.join?_eq]
    exact ⟨Position.merge?_congr selects_min hs, Position.merge?_congr selects_max hs⟩
  · have hall (v) : v ∈ vs ↔ v ∈ groups.flatMap (·.2) := (hs v).trans List.mem_flatMap.symm
    simp only [Position.meet?_eq, Position.join?_eq, Position.merge?_congr selects_min hall,
      Position.merge?_congr selects_max hall]
    exact ⟨Position.merge?_merged selects_min, Position.merge?_merged selects_max⟩
  · simp only [Position.meet?_eq, Position.join?_eq]
    exact ⟨Position.merge?_rehomed, Position.merge?_rehomed⟩
  · subst hpos
    refine ⟨⟨fun ⟨floor, hf⟩ => ((gatherFloor_plain hp hn).mp hf).1, fun hu => ?_⟩,
      fun floor hf => ((gatherFloor_plain hp hn).mp hf).2⟩
    exact ⟨_, (gatherFloor_plain hp hn).mpr ⟨hu, Position.meet?_localMinimum.symm.trans rfl⟩⟩

def surveyed : Cluster :=
  let c := after [.join elder {}, .join younger {}, .join latecomer {}, .install,
    .setFault latecomer .departed]
  let c := (c.editNode elder fun n => (n.learn ⟨1, 0, [2]⟩).begin.2).editNode elder fun n =>
    (n.learn ⟨1, 0, [5, 3]⟩).begin.2
  c.editNode younger (·.learn ⟨1, 1, [1, 4, 2]⟩)

def elderNode : Node := (surveyed.node? elder).getD (Node.create elder {})

theorem meet_join_flat_surveyed :
    let demanded : List Version := [⟨1, 0, [2]⟩, ⟨1, 0, [5, 3]⟩, ⟨1, 1, [1, 4, 2]⟩]
    (elderNode :: surveyed.answerers elder).flatMap Node.demands = demanded ∧
    (surveyed.gatherFloor elder).2.1 = .ok ⟨1, 0, [1, 0, 0]⟩ ∧
    elderNode.position.meet? demanded = some ⟨1, 0, [1, 0, 0]⟩ ∧
    elderNode.position.meet? [⟨1, 0, [2, 0]⟩, ⟨1, 1, [1, 4, 2]⟩] = some ⟨1, 0, [1, 0, 0]⟩ ∧
    elderNode.position.join? (demanded.reverse ++ demanded) = some ⟨1, 0, [5, 4, 2]⟩ ∧
    ∀ u ∈ demanded, (⟨1, 0, [1, 0, 0]⟩ : Version).dominatedBy u = true := by
  intro demanded
  have hplain : surveyed.Plain :=
    ((Plain.editNode (Regular.after _).plain).editNode).editNode
  have hn : surveyed.node? elder = some elderNode := rfl
  have hdemands : (elderNode :: surveyed.answerers elder).flatMap Node.demands = demanded := by
    decide +kernel
  have hok : (surveyed.gatherFloor elder).2.1 = .ok ⟨1, 0, [1, 0, 0]⟩ := by decide +kernel
  have hjoin : elderNode.position.join? demanded = some ⟨1, 0, [5, 4, 2]⟩ := by decide +kernel
  obtain ⟨hbounds, hset, hgroups, -, hfloor⟩ := meet_join_flat elderNode.position
  have hmeet := (hfloor surveyed elder elderNode hplain hn rfl).2 _ hok
  rw [hdemands] at hmeet
  obtain ⟨v, w, hv, -, hle, -⟩ := hbounds demanded (by decide)
  obtain rfl : (⟨1, 0, [1, 0, 0]⟩ : Version) = v := Option.some.inj (hmeet.symm.trans hv)
  refine ⟨hdemands, hok, hmeet, ?_, ?_, hle⟩
  · rw [← hmeet, ← (hgroups [(elderNode.position, [⟨1, 0, [2]⟩, ⟨1, 0, [5, 3]⟩]),
      (Position.of 1 1 3, [⟨1, 1, [1, 4, 2]⟩])] demanded fun v => by simp [demanded, or_assoc]).1]
    rfl
  · rw [← hjoin]
    exact (hset _ demanded fun v => by simp).2

end Cluster

end Multiversion
