import Mathlib
import Multiversion.Cluster
import Multiversion.Proofs.Node.Act

namespace Multiversion

namespace Member

def node? : Member → Option Node
  | node n => some n
  | scripted _ => none

end Member

namespace Cluster

variable {c d e : Cluster} {a b : Address} {f : Member → Member} {m : Member} {n : Node}

theorem node?_eq : c.node? b = (c.member? b).bind Member.node? := by
  rw [node?]
  cases c.member? b with
  | none => rfl
  | some m => cases m <;> rfl

theorem member?_edit : (c.edit a f).member? b = (c.member? b).map (if b = a then f else id) := by
  rw [member?, member?, edit]
  induction c.members with
  | nil => rfl
  | cons e l ih =>
    obtain ⟨u, m⟩ := e
    rw [List.map_cons]
    by_cases hb : b = u
    · subst hb
      by_cases ha : b = a <;> simp [ha]
    · rw [List.lookup_cons, List.lookup_cons, beq_eq_false_iff_ne.mpr hb]
      exact ih

theorem node?_editNode {f : Node → Node} : (c.editNode a f).node? b =
    (c.node? b).map (if b = a then f else id) := by
  rw [editNode, node?_eq, member?_edit, node?_eq]
  cases c.member? b with
  | none => rfl
  | some m => cases m <;> by_cases hb : b = a <;> simp [hb, Member.node?]

theorem node?_put {m : Node} (hn : c.node? a = some n) :
    (c.editNode a fun _ => m).node? b = if b = a then some m else c.node? b := by
  rw [node?_editNode]
  by_cases hb : b = a
  · rw [if_pos hb, if_pos hb, hb, hn]
    rfl
  · rw [if_neg hb, if_neg hb, Option.map_id]
    rfl

theorem exists_editNode {f : Node → Node} {P : Node → Prop} (hn : c.node? b = some n)
    (hf : b = a → P (f n)) (hid : b ≠ a → P n) : ∃ m, (c.editNode a f).node? b = some m ∧ P m := by
  rw [node?_editNode, hn]
  by_cases hb : b = a
  · exact ⟨f n, by rw [if_pos hb]; rfl, hf hb⟩
  · exact ⟨n, by rw [if_neg hb]; rfl, hid hb⟩

theorem editNode_editNode {f g : Node → Node} :
    (c.editNode a f).editNode a g = c.editNode a (g ∘ f) := by
  simp only [editNode, edit, List.map_map]
  congr 1
  refine List.map_congr_left fun e _ => ?_
  obtain ⟨u, k⟩ := e
  by_cases hu : u = a
  · cases k <;> simp [hu]
  · simp [hu]

theorem lookup_filter {l : List (Address × Member)} :
    (l.filter (·.1 ≠ a)).lookup b = if b = a then none else l.lookup b := by
  induction l with
  | nil => simp
  | cons e l ih =>
    obtain ⟨u, m⟩ := e
    by_cases hu : u = a
    · rw [List.filter_cons_of_neg (by simp [hu]), ih]
      by_cases hb : b = a
      · simp [hb]
      · rw [List.lookup_cons, beq_eq_false_iff_ne.mpr (hu ▸ hb)]
    · rw [List.filter_cons_of_pos (by simp [hu]), List.lookup_cons, List.lookup_cons, ih]
      by_cases hb : b = u
      · simp [hb, hu]
      · rw [beq_eq_false_iff_ne.mpr hb]

theorem fresh_install (h : ∀ e ∈ c.members, ∃ config, e.2 = .node (.create e.1 config)) :
    ∀ b n, c.install.1.node? b = some n → n.Fresh := by
  intro b n hn
  rw [node?_eq] at hn
  obtain ⟨m, hm, hmn⟩ := Option.bind_eq_some_iff.mp hn
  obtain ⟨us, vs, hl, -⟩ := List.lookup_eq_some_iff.mp hm
  have hmem : (b, m) ∈ c.install.1.members := hl ▸ List.mem_append_right us (List.mem_cons_self ..)
  obtain ⟨⟨u, k⟩, he, hk⟩ := List.mem_map.mp hmem
  obtain ⟨config, hc⟩ := h _ he
  obtain rfl : k = .node (Node.create u config) := hc
  cases hk
  by_cases hr : b ∈ c.roster
  · rw [if_pos hr] at hmn
    cases hmn
    exact Node.fresh_install ..
  · rw [if_neg hr] at hmn
    cases hmn
    exact Node.fresh_create ..

def Moves (c d : Cluster) : Prop :=
  ∀ b m, d.node? b = some m → ∃ n, c.node? b = some n ∧ (m = n ∨ n.Act m)

namespace Moves

theorem of_eq (h : ∀ b, d.node? b = c.node? b) : c.Moves d :=
  fun b m hm => ⟨m, (h b).symm.trans hm, .inl rfl⟩

theorem editNode {g : Node → Node} (h : ∀ n, c.node? a = some n → n.Act (g n)) :
    c.Moves (c.editNode a g) := by
  intro b m hm
  rw [node?_editNode] at hm
  obtain ⟨n, hn, rfl⟩ := Option.map_eq_some_iff.mp hm
  refine ⟨n, hn, ?_⟩
  by_cases hb : b = a
  · subst hb
    rw [if_pos rfl]
    exact .inr (h n hn)
  · rw [if_neg hb]
    exact .inl rfl

theorem drop : c.Moves (c.drop a).1 := by
  intro b m hm
  refine ⟨m, ?_, .inl rfl⟩
  rw [node?_eq] at hm ⊢
  change (((c.members.filter (·.1 ≠ a)).lookup b).bind Member.node?) = some m at hm
  change (c.members.lookup b).bind Member.node? = some m
  rw [lookup_filter] at hm
  by_cases hb : b = a
  · rw [if_pos hb] at hm
    cases hm
  · rwa [if_neg hb] at hm

end Moves

structure Keeps (c d : Cluster) : Prop where
  view : d.view = c.view
  moves : c.Moves d
  present : ∀ b, (c.node? b).isSome → (d.node? b).isSome

namespace Keeps

theorem of_eq (hv : d.view = c.view) (h : ∀ b, d.node? b = c.node? b) : c.Keeps d :=
  ⟨hv, .of_eq h, fun b hb => h b ▸ hb⟩

theorem editNode {g : Node → Node} (h : ∀ n, c.node? a = some n → n.Act (g n)) :
    c.Keeps (c.editNode a g) := by
  refine ⟨rfl, .editNode h, fun b hb => ?_⟩
  rwa [node?_editNode, Option.isSome_map]

theorem of_left (hv : d.view = c.view) (h : ∀ b, d.node? b = c.node? b) (hd : d.Keeps e) :
    c.Keeps e := by
  refine ⟨hd.view.trans hv, fun b m hm => ?_, fun b hb => hd.present b (h b ▸ hb)⟩
  obtain ⟨n, hn, ha⟩ := hd.moves b m hm
  exact ⟨n, (h b).symm.trans hn, ha⟩

end Keeps

section Deliver

theorem keeps_stop : c.Keeps (c.stop a).1 := by
  rw [stop]
  cases ha : c.node? a with
  | none => exact .of_eq rfl fun b => rfl
  | some n =>
    refine .editNode fun m hm => ?_
    rw [ha] at hm
    cases hm
    exact .aside n _ rfl rfl rfl

theorem keeps_spring {m : Scripted} {r : Request} : c.Keeps (c.spring m r).1 := by
  rw [spring]
  cases m.trap with
  | none => exact .of_eq rfl fun b => rfl
  | some t =>
    obtain ⟨on, target⟩ := t
    dsimp only
    split
    · exact keeps_stop
    · exact .of_eq rfl fun b => rfl

theorem node?_editNode_self (hn : c.node? b = some n) :
    (c.editNode b fun _ => n).node? a = c.node? a := by
  rw [node?_put hn]
  split
  next ha => rw [ha, hn]
  next => rfl

theorem node?_edit_scripted {m told : Scripted} (hm : c.member? b = some (.scripted m)) :
    (c.edit b fun _ => .scripted told).node? a = c.node? a := by
  rw [node?_eq, member?_edit]
  by_cases ha : a = b
  · rw [if_pos ha, ha, node?_eq, hm]
    rfl
  · rw [if_neg ha, Option.map_id, node?_eq]
    rfl

theorem deliver_minimum : c.Keeps (c.deliver b .minimumVersion).1 ∧
    ∀ v n, (c.deliver b .minimumVersion).2.1 = .answered (.version v) →
      (c.deliver b .minimumVersion).1.node? b = some n → v = n.localMinimum := by
  have same : c.Keeps c := .of_eq rfl fun b => rfl
  rw [deliver]
  cases hf : c.faults.lookup b with
  | some f =>
    refine ⟨same, fun v n hv => ?_⟩
    cases f <;> cases hv
  | none =>
    dsimp only
    by_cases hr : b ∈ c.roster
    · rw [if_pos hr]
      cases hm : c.member? b with
      | none => exact ⟨same, fun v n hv => by cases hv⟩
      | some m =>
        cases m with
        | node m =>
          have hnode : c.node? b = some m := by rw [node?_eq, hm]; rfl
          refine ⟨.of_eq rfl fun a => node?_editNode_self hnode, fun v n hv hn => ?_⟩
          cases hv
          cases hn.symm.trans ((node?_editNode_self hnode).trans hnode)
          rfl
        | scripted m =>
          let told : Scripted := { m with requests := m.requests ++ [.minimumVersion] }
          have hkeeps : c.Keeps ((c.edit b fun _ => .scripted told).spring m .minimumVersion).1 :=
            .of_left (d := c.edit b fun _ => .scripted told) rfl (fun _ => node?_edit_scripted hm)
              keeps_spring
          refine ⟨hkeeps, fun v n _ hn => ?_⟩
          obtain ⟨n', hn', -⟩ := hkeeps.moves b n hn
          rw [node?_eq, hm] at hn'
          cases hn'
    · rw [if_neg hr]
      exact ⟨same, fun v n hv => by cases hv⟩

end Deliver

end Cluster

end Multiversion
