import Mathlib
import Multiversion.Proofs.Cluster.Asking
import Multiversion.Proofs.Cluster.Registry

namespace Multiversion

namespace Node

variable {n m : Node} {r : Request}

theorem handle_handle : ((n.handle r).1.handle r).1 = (n.handle r).1 := by
  cases r with
  | purge least => exact congrArg (fun views => { n with views }) ViewRegistry.purge_purge
  | _ => rfl

theorem Halts.handle (h : n.Halts m) : (n.handle r).1.Halts (m.handle r).1 := by
  obtain ⟨stopped, workers, rfl⟩ := h
  cases r <;> exact ⟨stopped, workers, rfl⟩

theorem response_handle (h : m.sequencer = n.sequencer) : (m.handle r).2 = (n.handle r).2 := by
  cases r with
  | minimumVersion => simp only [handle, localMinimum, log, position, h]
  | minimumView => simp only [handle, log, h]
  | purge least => rfl

theorem sequencer_handle : (n.handle r).1.sequencer = n.sequencer := by
  cases r <;> rfl

theorem Halts.sequencer (h : n.Halts m) : m.sequencer = n.sequencer := by
  obtain ⟨stopped, workers, rfl⟩ := h
  rfl

end Node

namespace Cluster

variable {c d e : Cluster} {a b : Address} {n m : Node} {r : Request} {bs : List Address}

def Reaches (c : Cluster) (b : Address) : Prop := c.faults.lookup b = none ∧ b ∈ c.roster

def Plain (c : Cluster) : Prop := ∀ b m, c.member? b = some m → ∃ n, m = .node n

theorem Plain.editNode {f : Node → Node} (h : c.Plain) : (c.editNode a f).Plain := by
  intro b m hm
  rw [Cluster.editNode, member?_edit] at hm
  obtain ⟨k, hk, rfl⟩ := Option.map_eq_some_iff.mp hm
  obtain ⟨n, rfl⟩ := h b k hk
  split
  · exact ⟨_, rfl⟩
  · exact ⟨n, rfl⟩

structure Frame (c d : Cluster) : Prop where
  view : d.view = c.view
  roster : d.roster = c.roster
  faults : d.faults = c.faults
  nextView : d.nextView = c.nextView
  plain : c.Plain → d.Plain
  absent : ∀ b, c.node? b = none → d.node? b = none

namespace Frame

theorem refl (c : Cluster) : Frame c c := ⟨rfl, rfl, rfl, rfl, id, fun _ => id⟩

theorem trans (h : Frame c d) (h' : Frame d e) : Frame c e where
  view := h'.view.trans h.view
  roster := h'.roster.trans h.roster
  faults := h'.faults.trans h.faults
  nextView := h'.nextView.trans h.nextView
  plain hp := h'.plain (h.plain hp)
  absent x hx := h'.absent x (h.absent x hx)

theorem editNode (f : Node → Node) : Frame c (c.editNode a f) :=
  ⟨rfl, rfl, rfl, rfl, Plain.editNode, fun x hx => by rw [node?_editNode, hx]; rfl⟩

end Frame

structure Heard (r : Request) (bs : List Address) (c d : Cluster) : Prop extends Frame c d where
  node : ∀ b n, c.node? b = some n → ∃ m, d.node? b = some m ∧
    ((b ∈ bs ∧ c.Reaches b) ∧ (n.handle r).1.Halts m ∨ ¬ (b ∈ bs ∧ c.Reaches b) ∧ n.Halts m) ∧
    (c.Plain → m.stopped = n.stopped)

namespace Heard

theorem refl (r : Request) (c : Cluster) : Heard r [] c c where
  toFrame := .refl c
  node b n hn := ⟨n, hn, .inr ⟨by simp, .refl n⟩, fun _ => rfl⟩

theorem reaches (h : Heard r bs c d) : d.Reaches b ↔ c.Reaches b := by
  rw [Reaches, Reaches, h.faults, h.roster]

theorem cons (h : Heard r [a] c d) (h' : Heard r bs d e) : Heard r (a :: bs) c e where
  toFrame := h.toFrame.trans h'.toFrame
  node b n hn := by
    obtain ⟨m, hm, hnm, hs⟩ := h.node b n hn
    obtain ⟨k, hk, hmk, hs'⟩ := h'.node b m hm
    refine ⟨k, hk, ?_, fun hp => (hs' (h.plain hp)).trans (hs hp)⟩
    rw [h.reaches] at hmk
    simp only [List.mem_cons, List.not_mem_nil, or_false] at hnm ⊢
    rcases hnm with ⟨⟨hb, hr⟩, hnm⟩ | ⟨hb, hnm⟩ <;> rcases hmk with ⟨⟨hb', hr'⟩, hmk⟩ | ⟨hb', hmk⟩
    · refine .inl ⟨⟨.inl hb, hr⟩, ?_⟩
      have htwice := (hnm.handle (r := r)).trans hmk
      rwa [Node.handle_handle] at htwice
    · exact .inl ⟨⟨.inl hb, hr⟩, hnm.trans hmk⟩
    · exact .inl ⟨⟨.inr hb', hr'⟩, hnm.handle.trans hmk⟩
    · refine .inr ⟨fun h => ?_, hnm.trans hmk⟩
      exact h.1.elim (fun h1 => hb ⟨h1, h.2⟩) fun h1 => hb' ⟨h1, h.2⟩

theorem asked (h : Heard r bs c d) (hr : ∀ n : Node, (n.handle r).1 = n)
    (hn : c.node? b = some n) : ∃ m, d.node? b = some m ∧ n.Halts m := by
  obtain ⟨m, hm, hnm, -⟩ := h.node b n hn
  rw [hr] at hnm
  exact ⟨m, hm, hnm.elim (·.2) (·.2)⟩

end Heard

section Deliver

variable {s : Scripted}

theorem frame_spring : Frame c (c.spring s r).1 := by
  rw [spring]
  cases s.trap with
  | none => exact .refl c
  | some t =>
    dsimp only
    split
    · rw [stop]
      cases c.node? t.2 with
      | none => exact .refl c
      | some n => exact .editNode _
    · exact .refl c

theorem heard_of_not_reaches (h : ¬ c.Reaches b ∨ c.member? b = none) : Heard r [b] c c where
  toFrame := .refl c
  node x n hn := by
    refine ⟨n, hn, .inr ⟨?_, .refl n⟩, fun _ => rfl⟩
    rintro ⟨hx, hr⟩
    obtain rfl := List.mem_singleton.mp hx
    rcases h with h | h
    · exact h hr
    · rw [node?_eq, h] at hn
      cases hn

theorem heard_node (hr : c.Reaches b) (hn : c.node? b = some n) :
    Heard r [b] c (c.editNode b fun _ => (n.handle r).1) where
  toFrame := .editNode _
  node x m hm := by
    refine exists_editNode hm (fun hx => ?_) fun hx => ?_
    · subst hx
      obtain rfl : m = n := Option.some.inj (hm.symm.trans hn)
      refine ⟨.inl ⟨⟨List.mem_singleton_self _, hr⟩, .refl _⟩, fun _ => ?_⟩
      cases r <;> rfl
    · refine ⟨.inr ⟨fun h => hx ?_, .refl m⟩, fun _ => rfl⟩
      exact List.mem_singleton.mp h.1

theorem heard_scripted (hm : c.member? b = some (.scripted s)) :
    Heard r [b] c
      ((c.edit b fun _ => .scripted { s with requests := s.requests ++ [r] }).spring s r).1 := by
  let told := c.edit b fun _ => .scripted { s with requests := s.requests ++ [r] }
  have hnode (x) : told.node? x = c.node? x := by
    rw [node?_eq, member?_edit]
    by_cases hx : x = b
    · rw [if_pos hx, hx, hm, node?_eq, hm]
      rfl
    · rw [if_neg hx, Option.map_id, node?_eq]
      rfl
  have hplain : ¬ c.Plain := fun hp => by
    obtain ⟨n, hn⟩ := hp b _ hm
    cases hn
  have htold : Frame c told :=
    ⟨rfl, rfl, rfl, rfl, fun hp => absurd hp hplain, fun x h => (hnode x).trans h⟩
  refine ⟨htold.trans frame_spring, fun x n hn => ?_⟩
  obtain ⟨m, hm', hnm⟩ := halts_spring (c := told) (m := s) (r := r) n ((hnode x).trans hn)
  refine ⟨m, hm', .inr ⟨fun h => ?_, hnm⟩, fun hp => absurd hp hplain⟩
  obtain rfl := List.mem_singleton.mp h.1
  rw [node?_eq, hm] at hn
  cases hn

theorem heard_deliver : Heard r [b] c (c.deliver b r).1 := by
  rw [deliver]
  cases hf : c.faults.lookup b with
  | some f => exact heard_of_not_reaches (.inl fun h => by simp [Reaches, hf] at h)
  | none =>
    dsimp only
    split
    next hr =>
      cases hm : c.member? b with
      | none => exact heard_of_not_reaches (.inr hm)
      | some m =>
        cases m with
        | node n => exact heard_node ⟨hf, hr⟩ (by rw [node?_eq, hm]; rfl)
        | scripted s => exact heard_scripted hm
    next hr => exact heard_of_not_reaches (.inl fun h => hr h.2)

theorem heard_deliverAll : Heard r bs c (c.deliverAll r bs).1 := by
  induction bs generalizing c with
  | nil => exact .refl r c
  | cons b bs ih => exact heard_deliver.cons ih

end Deliver

section Replies

def reply (c : Cluster) (r : Request) (b : Address) : Reply :=
  match c.faults.lookup b with
  | some f => f.reply
  | none =>
    if b ∈ c.roster then
      match c.node? b with
      | some n => .answered (n.handle r).2
      | none => .departed
    else .departed

theorem reply_deliver (hp : c.Plain) : (c.deliver b r).2.1 = c.reply r b := by
  rw [deliver, reply]
  cases c.faults.lookup b with
  | some f => rfl
  | none =>
    dsimp only
    split
    · rw [node?_eq]
      cases hm : c.member? b with
      | none => rfl
      | some m =>
        obtain ⟨n, rfl⟩ := hp b m hm
        rfl
    · rfl

theorem Heard.reply (h : Heard r bs c d) : d.reply r b = c.reply r b := by
  rw [Cluster.reply, Cluster.reply, h.faults, h.roster]
  cases hn : c.node? b with
  | none => rw [h.absent b hn]
  | some n =>
    obtain ⟨m, hm, hnm, -⟩ := h.node b n hn
    have hseq : m.sequencer = n.sequencer := by
      rcases hnm with ⟨-, hnm⟩ | ⟨-, hnm⟩
      · exact hnm.sequencer.trans Node.sequencer_handle
      · exact hnm.sequencer
    simp only [hm, Node.response_handle hseq]

theorem replies_deliverAll (hp : c.Plain) :
    (c.deliverAll r bs).2.1 = bs.map fun b => (b, c.reply r b) := by
  induction bs generalizing c with
  | nil => rfl
  | cons b bs ih =>
    have hheard : Heard r [b] c (c.deliver b r).1 := heard_deliver
    rw [deliverAll, List.map_cons, ← reply_deliver hp]
    refine congrArg _ ((ih (hheard.plain hp)).trans ?_)
    simp only [hheard.reply]

end Replies

end Cluster

end Multiversion
