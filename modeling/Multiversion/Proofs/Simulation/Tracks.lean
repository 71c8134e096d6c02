import Mathlib
import Multiversion.Proofs.Simulation.Housed
import Multiversion.Proofs.Simulation.Plan
import Multiversion.Simulation.Thread

namespace Multiversion

namespace Cluster

variable {c d : Cluster} {a b : Address} {n m : Node} {j k : Nat} {stage : Stage} {v : Version}
  {raised writes : Bool}

def Stands (c : Cluster) (a : Address) (k : Nat) (stage : Stage) : Prop :=
  ∃ n, c.node? a = some n ∧ n.sequencer.Holds k stage

def Chosen (c : Cluster) (a : Address) (k : Nat) (v : Version) (raised : Bool) : Prop :=
  ∃ n, c.node? a = some n ∧ n.sequencer.Fits k v ∧
    (raised = true → n.position.seq v ≤ n.sequencer.lastPrepared)

def Spares (a : Address) (k : Nat) (c d : Cluster) : Prop :=
  ∀ n, c.node? a = some n → k < n.sequencer.met →
    ∃ m, d.node? a = some m ∧ Sequencer.Spares k n.sequencer m.sequencer

theorem Stands.holds (h : c.Stands a k stage) (hn : c.node? a = some n) :
    n.sequencer.Holds k stage := by
  obtain ⟨m, hm, hk⟩ := h
  obtain rfl : n = m := Option.some.inj (hn.symm.trans hm)
  exact hk

theorem Stands.spared (h : c.Stands a k stage) (hs : Spares a k c d) : d.Stands a k stage := by
  obtain ⟨n, hn, hk⟩ := h
  obtain ⟨m, hm, hnm⟩ := hs n hn hk.lt_met
  exact ⟨m, hm, hnm.holds hk⟩

theorem Chosen.spared (h : c.Chosen a k v raised) (hk : c.Stands a k (.prepared writes))
    (hs : Spares a k c d) : d.Chosen a k v raised := by
  obtain ⟨n, hn, hf, hr⟩ := h
  have hk : n.sequencer.Holds k (.prepared writes) := hk.holds hn
  obtain ⟨m, hm, hnm⟩ := hs n hn hk.lt_met
  refine ⟨m, hm, hnm.fits hk hf, fun h => ?_⟩
  have hp : m.position = n.position := hnm.position
  rw [hp]
  exact (hr h).trans hnm.counter

theorem Tends.spares (h : c.Tends d) : Spares a k c d := by
  intro n hn _
  obtain ⟨m, hm, hnm⟩ := h.nodes a n hn
  exact ⟨m, hm, hnm.spares⟩

theorem Spares.edit (hn : c.node? a = some n)
    (hs : ∀ j < n.sequencer.met, j ≠ k → Sequencer.Spares j n.sequencer m.sequencer)
    (hne : b = a → j ≠ k) : Spares b j c (c.editNode a fun _ => m) := by
  intro l hl hj
  rw [node?_put hn]
  by_cases hb : b = a
  · subst hb
    obtain rfl : n = l := Option.some.inj (hn.symm.trans hl)
    exact ⟨m, if_pos rfl, hs j hj (hne rfl)⟩
  · exact ⟨l, by rw [if_neg hb, hl], .refl⟩

end Cluster

namespace Thread

variable {seats : Seats} {c d : Cluster} {t u : Thread} {P Q : Plan} {n m : Node}
  {node k l tx gain : Nat} {st : Standing} {stage : Stage} {action : Action}
  {visible : Nat → Option Version} {e : Drain} {past : List (List Delivery)}

theorem calls_act : (t.act n visible action).1.calls = t.calls := by
  cases action <;> rfl

theorem handle_begin_of_lt (hk : k < t.begun.length) :
    (t.act n visible .begin).1.handle k = t.handle k := by
  change (t.begun ++ [n.begin.1]).getD k 0 = t.begun.getD k 0
  rw [List.getD_eq_getElem?_getD, List.getD_eq_getElem?_getD, List.getElem?_append_left hk]

theorem handle_begin : (t.act n visible .begin).1.handle t.begun.length = n.sequencer.met := by
  change (t.begun ++ [n.begin.1]).getD t.begun.length 0 = n.sequencer.met
  rw [List.getD_eq_getElem?_getD, List.getElem?_concat_length]
  rfl

theorem getElem?_opened {standings : List Standing} {st : Standing} (k : Nat) :
    (standings ++ [st])[k]? = if k = standings.length then some st else standings[k]? := by
  rw [List.getElem?_append]
  by_cases hk : k < standings.length
  · rw [if_pos hk, if_neg hk.ne]
  · rw [if_neg hk, List.getElem?_singleton, List.getElem?_eq_none (Nat.le_of_not_lt hk)]
    exact if_congr (by omega) rfl rfl

structure Tracks (seats : Seats) (c : Cluster) (t : Thread) (P : Plan) : Prop where
  begun : t.begun.length = P.standings.length
  stands : ∀ k st, P.standings[k]? = some st → c.Stands (seats.at st.node) (t.handle k) st.stage
  chosen : ∀ k raised, P.hand = some (k, raised) → ∃ node writes,
    P.standings[k]? = some ⟨node, .prepared writes⟩ ∧
      c.Chosen (seats.at node) (t.handle k) t.version raised
  committed : t.committed = P.committed
  rolledBack : t.rolledBack = P.rolledBack

def post (seats : Seats) (t : Thread) (P : Plan) (k : Nat) : Option (Address × Nat) :=
  P.standings[k]?.map fun st => (seats.at st.node, t.handle k)

namespace Tracks

theorem spared (h : t.Tracks seats c P)
    (hs : ∀ k a j, t.post seats P k = some (a, j) → Cluster.Spares a j c d) :
    t.Tracks seats d P := by
  have each {k : Nat} {st : Standing} (hst : P.standings[k]? = some st) :
      Cluster.Spares (seats.at st.node) (t.handle k) c d := by
    refine hs k _ _ ?_
    rw [post, hst]
    rfl
  refine ⟨h.begun, fun k st hst => (h.stands k st hst).spared (each hst), fun k raised hh => ?_,
    h.committed, h.rolledBack⟩
  obtain ⟨node, writes, hst, hc⟩ := h.chosen k raised hh
  exact ⟨node, writes, hst, hc.spared (h.stands k _ hst) (each hst)⟩

theorem congr (h : t.Tracks seats c P) (hb : u.begun = t.begun) (hv : u.version = t.version)
    (hc : u.committed = t.committed) (hr : u.rolledBack = t.rolledBack) : u.Tracks seats c P := by
  have hh (k : Nat) : u.handle k = t.handle k := by rw [handle, handle, hb]
  refine ⟨hb ▸ h.begun, fun k st hst => hh k ▸ h.stands k st hst, fun k raised hk => ?_,
    hc.trans h.committed, hr.trans h.rolledBack⟩
  obtain ⟨node, writes, hst, hf⟩ := h.chosen k raised hk
  exact ⟨node, writes, hst, by rwa [hh, hv]⟩

theorem stands_node (h : t.Tracks seats c P) (hst : P.standings[tx]? = some ⟨node, stage⟩)
    (hn : c.node? (seats.at node) = some n) : n.sequencer.Holds (t.handle tx) stage :=
  (h.stands tx _ hst).holds hn

theorem chosen_node {raised : Bool} (h : t.Tracks seats c P) (hh : P.hand = some (tx, raised))
    (hst : P.standings[tx]? = some ⟨node, stage⟩) (hn : c.node? (seats.at node) = some n) :
    n.sequencer.Fits (t.handle tx) t.version ∧
      (raised = true → n.position.seq t.version ≤ n.sequencer.lastPrepared) := by
  obtain ⟨node', writes, hst', m, hm, hf, hle⟩ := h.chosen tx raised hh
  rw [hst] at hst'
  cases hst'
  obtain rfl : n = m := Option.some.inj (hn.symm.trans hm)
  exact ⟨hf, hle⟩

end Tracks

structure Does (seats : Seats) (c : Cluster) (node : Nat) (t : Thread) (P : Plan) (n : Node)
    (u : Thread) (Q : Plan) (m : Node) : Prop where
  serves : ∃ k gain, n.Serves k gain m ∧ Q.written = P.written + gain ∧
    (k = n.sequencer.met ∨ ∃ l, t.post seats P l = some (seats.at node, k))
  tracks : u.Tracks seats (c.editNode (seats.at node) fun _ => m) Q
  posts : ∀ l, u.post seats Q l = t.post seats P l

namespace Tracks

section Put

variable (h : t.Tracks seats c P) (hn : c.node? (seats.at node) = some n)
include h hn

theorem stands_aside (hs : n.Serves n.sequencer.met gain m) (hst : P.standings[k]? = some st) :
    (c.editNode (seats.at node) fun _ => m).Stands (seats.at st.node) (t.handle k) st.stage := by
  refine (h.stands k st hst).spared (.edit hn hs.spares fun ha => ?_)
  have hk : n.sequencer.Holds (t.handle k) st.stage := (h.stands k st hst).holds (by rw [ha, hn])
  exact hk.lt_met.ne

variable (own : ∀ k l p, t.post seats P k = some p → t.post seats P l = some p → k = l)
include own

theorem stands_put {old : Stage} (hs : n.Serves (t.handle tx) gain m)
    (htx : P.standings[tx]? = some ⟨node, old⟩) (hold : m.sequencer.Holds (t.handle tx) stage)
    (hst : (P.put tx ⟨node, stage⟩).standings[k]? = some st) :
    (c.editNode (seats.at node) fun _ => m).Stands (seats.at st.node) (t.handle k) st.stage := by
  rw [Plan.getElem?_put (List.getElem?_eq_some_iff.mp htx).1] at hst
  by_cases hk : k = tx
  · subst hk
    rw [if_pos rfl] at hst
    cases hst
    exact ⟨m, by rw [Cluster.node?_put hn, if_pos rfl], hold⟩
  · rw [if_neg hk] at hst
    refine (h.stands k st hst).spared (.edit hn hs.spares fun ha he => hk ?_)
    refine own k tx (seats.at node, t.handle tx) ?_ ?_
    · rw [post, hst, ← ha, ← he]
      rfl
    · rw [post, htx]
      rfl

theorem does_put {old : Stage} (hs : n.Serves (t.handle tx) gain m)
    (htx : P.standings[tx]? = some ⟨node, old⟩) (hold : m.sequencer.Holds (t.handle tx) stage)
    (hq : Q.standings = (P.put tx ⟨node, stage⟩).standings) (hf : Q.hand = none)
    (hw : Q.written = P.written + gain) (hb : u.begun = t.begun)
    (hc : u.committed = Q.committed) (hr : u.rolledBack = Q.rolledBack) :
    Does seats c node t P n u Q m := by
  have handle_eq (l : Nat) : u.handle l = t.handle l := by rw [handle, handle, hb]
  refine ⟨⟨_, gain, hs, hw, .inr ⟨tx, by rw [post, htx]; rfl⟩⟩, ⟨?_, fun k st hst => ?_,
    fun k raised hk => ?_, hc, hr⟩, fun l => ?_⟩
  · rw [hb, hq, Plan.length_put]
    exact h.begun
  · rw [handle_eq]
    exact h.stands_put hn own hs htx hold (hq ▸ hst)
  · rw [hf] at hk
    cases hk
  · rw [post, post, hq, Plan.getElem?_put (List.getElem?_eq_some_iff.mp htx).1, handle_eq]
    by_cases hl : l = tx
    · subst hl
      rw [if_pos rfl, htx]
      rfl
    · rw [if_neg hl]

omit own in
theorem does_aside (hs : n.Serves n.sequencer.met 0 m) (hq : Q.standings = P.standings)
    (hw : Q.written = P.written) (hb : u.begun = t.begun) (hc : u.committed = Q.committed)
    (hr : u.rolledBack = Q.rolledBack)
    (hh : ∀ k raised, Q.hand = some (k, raised) →
      (∃ writes, P.standings[k]? = some ⟨node, .prepared writes⟩) ∧
        m.sequencer.Fits (t.handle k) u.version ∧
        (raised = true → m.position.seq u.version ≤ m.sequencer.lastPrepared)) :
    Does seats c node t P n u Q m := by
  have handle_eq (l : Nat) : u.handle l = t.handle l := by rw [handle, handle, hb]
  refine ⟨⟨_, 0, hs, hw, .inl rfl⟩, ⟨by rw [hb, hq]; exact h.begun, fun k st hst => ?_,
    fun k raised hk => ?_, hc, hr⟩, fun l => by rw [post, post, hq, handle_eq]⟩
  · rw [handle_eq]
    exact h.stands_aside hn hs (hq ▸ hst)
  · obtain ⟨⟨writes, hst⟩, hf, hle⟩ := hh k raised hk
    rw [handle_eq, hq]
    exact ⟨node, writes, hst, m, by rw [Cluster.node?_put hn, if_pos rfl], hf, hle⟩

end Put

section Act

variable (h : t.Tracks seats c P) (hn : c.node? (seats.at node) = some n) (hi : n.InOrder e past)
include h hn hi

omit hn hi in
theorem post_begin (visible : Nat → Option Version) (l : Nat) :
    (t.act n visible .begin).1.post seats
        { P with standings := P.standings ++ [⟨node, .opened false⟩] } l =
      if l = P.standings.length then some (seats.at node, n.sequencer.met)
      else t.post seats P l := by
  rw [post, getElem?_opened, post]
  by_cases hl : l = P.standings.length
  · rw [if_pos hl, if_pos hl, hl, ← h.begun, Option.map_some, handle_begin]
  · rw [if_neg hl, if_neg hl]
    cases hs : P.standings[l]? with
    | none => rfl
    | some st =>
      have hlt : l < t.begun.length := h.begun ▸ (List.getElem?_eq_some_iff.mp hs).1
      rw [Option.map_some, Option.map_some, handle_begin_of_lt hlt]

theorem stands_begin (visible : Nat → Option Version)
    (hst : (P.standings ++ [⟨node, .opened false⟩])[k]? = some st) :
    (c.editNode (seats.at node) fun _ => (t.act n visible .begin).2.1).Stands (seats.at st.node)
      ((t.act n visible .begin).1.handle k) st.stage := by
  rw [getElem?_opened] at hst
  by_cases hk : k = P.standings.length
  · rw [if_pos hk] at hst
    cases hst
    rw [hk, ← h.begun, handle_begin]
    exact ⟨(t.act n visible .begin).2.1, by rw [Cluster.node?_put hn, if_pos rfl], hi.holds_begin⟩
  · rw [if_neg hk] at hst
    rw [handle_begin_of_lt (h.begun ▸ (List.getElem?_eq_some_iff.mp hst).1)]
    refine (h.stands k st hst).spared (.edit (k := n.sequencer.met) hn
      (fun j hj _ => Sequencer.spares_begin hj) fun ha => ?_)
    have hs : n.sequencer.Holds (t.handle k) st.stage :=
      (h.stands k st hst).holds (by rw [ha, hn])
    exact hs.lt_met.ne

theorem act_begin (visible : Nat → Option Version) :
    let r := t.act n visible .begin
    let Q := { P with standings := P.standings ++ [⟨node, .opened false⟩] }
    r.2.1.InOrder e past ∧ r.2.1.sequencer.met = n.sequencer.met + 1 ∧
      (∀ j < n.sequencer.met, Sequencer.Spares j n.sequencer r.2.1.sequencer) ∧
      r.2.1.queue.settled = n.queue.settled ∧
      (P.hand = none → r.1.Tracks seats (c.editNode (seats.at node) fun _ => r.2.1) Q) ∧
      ∀ l, r.1.post seats Q l = if l = P.standings.length then some (seats.at node, n.sequencer.met)
        else t.post seats P l := by
  intro r Q
  refine ⟨hi.begin, Sequencer.met_begin, fun j hj => Sequencer.spares_begin hj, rfl,
    fun hf => ⟨?_, fun k st hst => h.stands_begin hn hi visible hst, ?_, h.committed,
      h.rolledBack⟩, h.post_begin visible⟩
  · change (t.begun ++ [_]).length = (P.standings ++ [_]).length
    rw [List.length_append, List.length_append, h.begun]
    rfl
  · intro k raised hk
    change P.hand = some (k, raised) at hk
    rw [hf] at hk
    cases hk

variable (own : ∀ k l p, t.post seats P k = some p → t.post seats P l = some p → k = l)
include own

theorem act (visible : Nat → Option Version) (hm : P.Move ⟨node, action⟩ Q)
    (hb : action ≠ .begin) (ha : ∀ keeper, action ≠ .apply keeper) :
    let r := t.act n visible action
    r.2.1.InOrder e past ∧ Does seats c node t P n r.1 Q r.2.1 := by
  cases hm with
  | begin => exact absurd rfl hb
  | apply keeper => exact absurd rfl (ha keeper)
  | write tx _ w b hf htx =>
    obtain ⟨hi', hs⟩ := hi.write (k := t.handle tx) (w := w)
    exact ⟨hi', h.does_put hn own hs htx (Sequencer.holds_write (h.stands_node htx hn)) rfl hf rfl
      rfl h.committed h.rolledBack⟩
  | prepare tx _ b hf htx =>
    obtain ⟨hi', hs, hk⟩ := hi.prepare 0 (h.stands_node htx hn)
    exact ⟨hi', h.does_put hn own hs htx hk rfl hf rfl rfl h.committed h.rolledBack⟩
  | rollback tx _ hf htx =>
    obtain ⟨hi', hs, hk⟩ := hi.rollback 0 (h.stands_node htx hn)
    exact ⟨hi', h.does_put hn own hs htx hk rfl hf rfl rfl h.committed
      (congrArg (· + 1) h.rolledBack)⟩
  | settle tx _ b hh htx =>
    obtain ⟨hf, hle⟩ := h.chosen_node hh htx hn
    obtain ⟨hi', hs, hk⟩ := hi.settle 0 (h.stands_node htx hn) hf (hle rfl)
    exact ⟨hi', h.does_put hn own hs htx hk rfl rfl rfl rfl (congrArg (· + 1) h.committed)
      h.rolledBack⟩
  | keep tx _ hf htx =>
    refine ⟨hi, h.does_aside hn .refl rfl rfl rfl h.committed h.rolledBack fun k raised hk => ?_⟩
    cases hk
    exact ⟨⟨false, htx⟩, Sequencer.fits_of_readOnly (h.stands_node htx hn), fun hr => nomatch hr⟩
  | join tx _ peer bump hf htx =>
    refine ⟨hi, h.does_aside hn .refl rfl rfl rfl h.committed h.rolledBack fun k raised hk => ?_⟩
    cases hk
    exact ⟨⟨true, htx⟩, Sequencer.fits_finalVersion (h.stands_node htx hn), fun hr => nomatch hr⟩
  | raise tx _ b hh htx =>
    obtain ⟨hf, -⟩ := h.chosen_node hh htx hn
    obtain ⟨hi', hs⟩ := hi.raise (k := n.sequencer.met) (v := t.version)
    refine ⟨hi', h.does_aside hn hs rfl rfl rfl h.committed h.rolledBack fun k raised hk' => ?_⟩
    cases hk'
    exact ⟨⟨b, htx⟩, hf, fun _ => Nat.le_max_right ..⟩
  | finish tx _ hf =>
    have ht : n.Tended (n.finish (n.transaction (t.handle tx)).id) := ⟨rfl, rfl, rfl, rfl, rfl, rfl⟩
    refine ⟨ht.inOrder hi, h.does_aside hn ht.serves rfl rfl rfl h.committed h.rolledBack
      fun k raised hk' => ?_⟩
    rw [hf] at hk'
    cases hk'

end Act

end Tracks

end Thread

end Multiversion
