import Mathlib
import Multiversion.Proofs.Cluster.Members
import Multiversion.Proofs.Gc.Cycle

namespace Multiversion.Cluster

variable {c : Cluster} {a b : Address} {n : Node} {r : Request}

def Halts (a : Address) (c d : Cluster) : Prop :=
  ∀ n, c.node? a = some n → ∃ m, d.node? a = some m ∧ n.Halts m

theorem Halts.of_eq {d : Cluster} (h : d.node? a = c.node? a) : Halts a c d :=
  fun n hn => ⟨n, h.trans hn, .refl n⟩

theorem Halts.trans {d e : Cluster} (h : Halts a c d) (h' : Halts a d e) : Halts a c e := by
  intro n hn
  obtain ⟨m, hm, hnm⟩ := h n hn
  obtain ⟨k, hk, hmk⟩ := h' m hm
  exact ⟨k, hk, hnm.trans hmk⟩

theorem halts_stop : Halts a c (c.stop b).1 := by
  intro n hn
  rw [stop]
  cases hb : c.node? b with
  | none => exact ⟨n, hn, .refl n⟩
  | some m =>
    refine exists_editNode (f := fun _ => m.stopCollectors.1) hn (fun hab => ?_) fun _ => .refl n
    subst hab
    obtain rfl : n = m := Option.some.inj (hn.symm.trans hb)
    exact ⟨true, [], rfl⟩

theorem halts_spring {m : Scripted} : Halts a c (c.spring m r).1 := by
  rw [spring]
  cases m.trap with
  | none => exact .of_eq rfl
  | some t =>
    dsimp only
    split
    · exact halts_stop
    · exact .of_eq rfl

theorem halts_deliver (hb : b ≠ a) : Halts a c (c.deliver b r).1 := by
  have other (f) : (c.edit b f).node? a = c.node? a := by
    rw [node?_eq, member?_edit, if_neg hb.symm, Option.map_id, node?_eq]
    rfl
  rw [deliver]
  cases c.faults.lookup b with
  | some f => exact .of_eq rfl
  | none =>
    dsimp only
    split
    · cases c.member? b with
      | none => exact .of_eq rfl
      | some m =>
        cases m with
        | node m => exact .of_eq (other _)
        | scripted m => exact (Halts.of_eq (other _)).trans halts_spring
    · exact .of_eq rfl

theorem halts_deliverAll {bs : List Address} (h : ∀ b ∈ bs, b ≠ a) :
    Halts a c (c.deliverAll r bs).1 := by
  induction bs generalizing c with
  | nil => exact .of_eq rfl
  | cons b bs ih =>
    obtain ⟨hb, hbs⟩ := List.forall_mem_cons.mp h
    exact (halts_deliver hb).trans (ih hbs)

theorem node_transport (hn : c.node? a = some n) : (transport a).node c = n := by
  change (c.node? a).getD _ = n
  rw [hn]
  rfl

theorem lawful_transport : (transport a).Lawful fun c => (c.node? a).isSome where
  update c f hc := by
    obtain ⟨n, hn⟩ := Option.isSome_iff_exists.mp hc
    have hf : (c.editNode a f).node? a = some (f n) := by
      rw [node?_editNode, hn, if_pos rfl]
      rfl
    rw [node_transport hn]
    exact ⟨Option.isSome_of_eq_some hf, node_transport hf⟩
  ask c r hc := by
    obtain ⟨n, hn⟩ := Option.isSome_iff_exists.mp hc
    have hask : Halts a c ((transport a).ask c r).1 :=
      halts_deliverAll fun b hb => by simpa using (List.mem_filter.mp hb).2
    obtain ⟨m, hm, hnm⟩ := hask n hn
    rw [node_transport hn, node_transport hm]
    exact ⟨Option.isSome_of_eq_some hm, hnm⟩

end Multiversion.Cluster
