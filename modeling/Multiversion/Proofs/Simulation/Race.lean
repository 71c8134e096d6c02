import Mathlib
import Multiversion.Proofs.Simulation.Orderly

/-!
The threads of a simulation at the same time. One thread at a time applies at a node, step by step,
and any turn of another thread or of a collector may fall between two steps.
-/

namespace Multiversion

structure Race where
  sim : Simulation
  -- the thread that applies at a node, and how far the application has come
  applying : Address → Option (Nat × Drain) := fun _ => none

namespace Race

open Simulation

variable {goal : Nat → Plan} {r r' : Race} {a : Address} {i node keeper : Nat} {t : Thread}
  {rest : List Call} {d : Drain} {turn : Turn}

def drain (r : Race) (a : Address) : Drain := ((r.applying a).map (·.2)).getD .idle

def Admits (r : Race) (a : Address) (i : Nat) (d : Drain) : Prop :=
  r.applying a = none ∧ d = .idle ∨ r.applying a = some (i, d)

def put (r : Race) (a : Address) (n : Node) (threads : List Thread) (x : Option (Nat × Drain)) :
    Race where
  sim := { r.sim with cluster := r.sim.cluster.editNode a fun _ => n, threads }
  applying := Function.update r.applying a x

inductive Move : Race → Race → Prop
  -- an application as a whole waits until the node is free
  | turn (r : Race) (u : Turn)
      (h : ∀ i t node keeper rest, u = .thread i → r.sim.threads[i]? = some t →
        t.Due ⟨node, .apply keeper⟩ rest → r.applying (r.sim.seats.at node) = none) :
      Move r { r with sim := r.sim.take u }
  | apply (r : Race) (i t node keeper rest n d m e) (ht : r.sim.threads[i]? = some t)
      (hc : t.Due ⟨node, .apply keeper⟩ rest)
      (hn : r.sim.cluster.node? (r.sim.seats.at node) = some n)
      (hd : r.Admits (r.sim.seats.at node) i d) (hs : n.Applies d m e) :
      Move r (r.put (r.sim.seats.at node) m r.sim.threads (some (i, e)))
  | finish (r : Race) (i t node keeper rest n d m won) (ht : r.sim.threads[i]? = some t)
      (hc : t.Due ⟨node, .apply keeper⟩ rest)
      (hn : r.sim.cluster.node? (r.sim.seats.at node) = some n)
      (hd : r.Admits (r.sim.seats.at node) i d) (hs : n.Returns d m won) :
      Move r (r.put (r.sim.seats.at node) m (r.sim.threads.set i
        { t with calls := rest, applied := won.map (·.record), keeper }) none)

abbrev Run := Relation.ReflTransGen Move

def Held (r : Race) : Prop :=
  ∀ a i d, r.applying a = some (i, d) → ∃ t node keeper rest, r.sim.threads[i]? = some t ∧
    t.Due ⟨node, .apply keeper⟩ rest ∧ r.sim.seats.at node = a

def Orderly (goal : Nat → Plan) (r : Race) : Prop :=
  r.Held ∧ ∃ plans past,
    Simulation.Orderly goal plans past r.drain r.sim.seats r.sim.cluster r.sim.threads

theorem eq_of_due {call call' : Call} {rest' : List Call} (h : t.Due call rest)
    (h' : t.Due call' rest') : call = call' := (List.cons.inj (h.calls.symm.trans h'.calls)).1

section Put

variable {n : Node} {threads : List Thread} {x : Option (Nat × Drain)} {b : Address}

theorem applying_put : (r.put a n threads x).applying b = if b = a then x else r.applying b :=
  Function.update_apply ..

theorem drain_put : (r.put a n threads x).drain b =
    if b = a then (x.map (·.2)).getD .idle else r.drain b := by
  rw [drain, applying_put]
  split <;> rfl

theorem Admits.drain_eq (h : r.Admits a i d) : r.drain a = d := by
  rcases h with ⟨hn, rfl⟩ | hs
  · rw [drain, hn]
    rfl
  · rw [drain, hs]
    rfl

end Put

section Take

variable {s : Simulation} {j : Nat}

theorem seats_take : (s.take turn).seats = s.seats := by
  cases turn with
  | thread i =>
    rw [take]
    split <;> rfl
  | _ => rfl

theorem threads_take (h : turn ≠ .thread j) : (s.take turn).threads[j]? = s.threads[j]? := by
  cases turn with
  | thread i =>
    rw [take]
    split
    · exact List.getElem?_set_ne fun hi => h (congrArg Turn.thread hi)
    · rfl
  | _ => rfl

theorem orderly_take {plans : Nat → Plan} {past : Address → List (List Delivery)}
    {drains : Address → Drain}
    (h : Simulation.Orderly goal plans past drains s.seats s.cluster s.threads)
    (hd : ∀ i t node keeper rest, turn = .thread i → s.threads[i]? = some t →
      t.Due ⟨node, .apply keeper⟩ rest → drains (s.seats.at node) = .idle) :
    ∃ plans' past', Simulation.Orderly goal plans' past' drains (s.take turn).seats
      (s.take turn).cluster (s.take turn).threads := by
  cases turn with
  | thread i =>
    rw [take]
    split
    next t ht => exact h.turn ht fun node keeper rest => hd i t node keeper rest rfl ht
    next => exact ⟨plans, past, h⟩
  | collector node k => exact ⟨plans, past, h.tend (h.housed.advance h.runs)⟩
  | millisecond => exact ⟨plans, past, h.tend (h.housed.tick h.runs)⟩

end Take

theorem Move.held (h : Move r r') (hr : r.Held) : r'.Held := by
  cases h with
  | turn u hu =>
    intro a i d hd
    obtain ⟨t, node, keeper, rest, ht, hdue, ha⟩ := hr a i d hd
    refine ⟨t, node, keeper, rest, ?_, hdue, by rw [seats_take, ha]⟩
    rw [threads_take, ht]
    intro he
    rw [← ha, hu i t node keeper rest he ht hdue] at hd
    cases hd
  | apply i t node keeper rest n d m e ht hdue hn hd hs =>
    intro a j f hf
    rw [applying_put] at hf
    split at hf
    next ha =>
      cases hf
      exact ⟨t, node, keeper, rest, ht, hdue, ha.symm⟩
    next => exact hr a j f hf
  | finish i t node keeper rest n d m won ht hdue hn hd hs =>
    intro a j f hf
    rw [applying_put] at hf
    split at hf
    next => cases hf
    next ha =>
      obtain ⟨t', node', keeper', rest', ht', hdue', ha'⟩ := hr a j f hf
      refine ⟨t', node', keeper', rest', ?_, hdue', ha'⟩
      rw [← ht']
      refine List.getElem?_set_ne fun hij => ha ?_
      subst hij
      rw [ht] at ht'
      cases ht'
      cases eq_of_due hdue hdue'
      exact ha'.symm

theorem orderly_put {plans : Nat → Plan} {past : Address → List (List Delivery)}
    {returned : List (List Delivery)} {n m : Node} {u : Thread} {x : Option (Nat × Drain)}
    (h : Simulation.Orderly goal plans past r.drain r.sim.seats r.sim.cluster r.sim.threads)
    (ht : r.sim.threads[i]? = some t) (hn : r.sim.cluster.node? a = some n)
    (hm : m.InOrder ((x.map (·.2)).getD .idle) returned) (hs : n.Serves n.sequencer.met 0 m)
    (hu : u = { t with calls := u.calls, applied := u.applied, keeper := u.keeper })
    (hp : (plans i).Plays u.calls (goal i)) :
    Simulation.Orderly goal plans (Function.update past a returned)
      (r.put a m (r.sim.threads.set i u) x).drain r.sim.seats
      (r.sim.cluster.editNode a fun _ => m) (r.sim.threads.set i u) := by
  refine h.apply ht hn ?_ (fun b hb => by rw [drain_put, if_neg hb])
    (fun b hb => Function.update_of_ne hb ..) hs ?_ (fun l => ?_) hp
  · rw [drain_put, if_pos rfl, Function.update_self]
    exact hm
  · rw [hu]
    exact (h.tracks i t ht).congr rfl rfl rfl rfl
  · rw [hu]
    rfl

theorem Move.orderly (h : Move r r') (hr : r.Orderly goal) : r'.Orderly goal := by
  obtain ⟨hheld, plans, past, ho⟩ := hr
  refine ⟨h.held hheld, ?_⟩
  cases h with
  | turn u hu =>
    refine orderly_take ho fun i t node keeper rest hi ht hdue => ?_
    rw [drain, hu i t node keeper rest hi ht hdue]
    rfl
  | apply i t node keeper rest n d m e ht hdue hn hd hs =>
    obtain ⟨hin, hserves⟩ := (ho.nodes _ n hn).applies (k := n.sequencer.met) (hd.drain_eq ▸ hs)
    have hput := orderly_put (x := some (i, e)) ho ht hn hin hserves rfl (ho.plays i t ht)
    obtain ⟨hi, rfl⟩ := List.getElem?_eq_some_iff.mp ht
    rw [List.set_getElem_self] at hput
    exact ⟨plans, _, hput⟩
  | finish i t node keeper rest n d m won ht hdue hn hd hs =>
    obtain ⟨hin, hserves⟩ := (ho.nodes _ n hn).returns (k := n.sequencer.met) (hd.drain_eq ▸ hs)
    have hp := ho.plays i t ht
    rw [hdue.calls] at hp
    obtain ⟨Q, hm, hp⟩ := hp
    have hQ : plans i = Q := by
      cases hm
      rfl
    exact ⟨plans, _, orderly_put (x := none) ho ht hn hin hserves rfl (hQ ▸ hp)⟩

theorem Run.orderly (h : Run r r') (hr : r.Orderly goal) : r'.Orderly goal := by
  induction h with
  | refl => exact hr
  | tail _ hm ih => exact hm.orderly ih

end Race

end Multiversion
