import Mathlib
import Multiversion.Proofs.Cluster.Positions
import Multiversion.Proofs.Gc.Views

namespace Multiversion

namespace Node

variable {n m k : Node} {u v : ViewRegistry} {r : Request}

def Sees (views : ViewRegistry) (n m : Node) : Prop :=
  ∃ retryView stopped workers metrics,
    m = { n with views, retryView, stopped, workers, metrics }

theorem Sees.refl (n : Node) : Sees n.views n n :=
  ⟨n.retryView, n.stopped, n.workers, n.metrics, rfl⟩

theorem Sees.trans (h : Sees u n m) (h' : Sees v m k) : Sees v n k := by
  obtain ⟨retry, stopped, workers, metrics, rfl⟩ := h
  obtain ⟨retry', stopped', workers', metrics', rfl⟩ := h'
  exact ⟨retry', stopped', workers', metrics', rfl⟩

theorem Sees.views (h : Sees u n m) : m.views = u := by
  obtain ⟨retry, stopped, workers, metrics, rfl⟩ := h
  rfl

theorem Sees.sequencer (h : Sees u n m) : m.sequencer = n.sequencer := by
  obtain ⟨retry, stopped, workers, metrics, rfl⟩ := h
  rfl

theorem Sees.address (h : Sees u n m) : m.address = n.address := by
  obtain ⟨retry, stopped, workers, metrics, rfl⟩ := h
  rfl

theorem Halts.sees (h : n.Halts m) : Sees n.views n m := by
  obtain ⟨stopped, workers, rfl⟩ := h
  exact ⟨n.retryView, stopped, workers, n.metrics, rfl⟩

theorem sees_handle : Sees (n.handle r).1.views n (n.handle r).1 := by
  cases r <;> exact ⟨n.retryView, n.stopped, n.workers, n.metrics, rfl⟩

end Node

namespace Cluster

variable {c d : Cluster} {a b : Address} {n m : Node} {r : Request} {bs : List Address}

def TakesPart (c : Cluster) (a b : Address) : Prop := b = a ∨ b ∈ c.view.members ∧ c.Reaches b

theorem mem_beside (hb : b ≠ a) : b ∈ c.view.members.filter (· ≠ a) ↔ b ∈ c.view.members := by
  simp [hb]

theorem node?_closed (retry : Bool) (notices : List Notice) (hn : c.node? b = some n) :
    ∃ m, (Cycle.closed (transport a) c retry notices).node? b = some m ∧ Node.Sees n.views n m := by
  change ∃ m, ((c.editNode a _).editNode a _).node? b = some m ∧ _
  rw [editNode_editNode]
  exact exists_editNode hn (fun _ => ⟨retry, n.stopped, n.workers, _, rfl⟩) fun _ => .refl n

theorem sees_purge (hn : c.node? b = some n) (least : Nat) :
    let first := (transport a).ask c .minimumView
    let second := (transport a).ask (Cycle.purged (transport a) first.1 least) (.purge least)
    ∃ m, second.1.node? b = some m ∧
      (TakesPart c a b ∧ Node.Sees (n.views.purge least).1 n m ∨
        ¬ TakesPart c a b ∧ Node.Sees n.views n m) := by
  intro first second
  let told := first.1.editNode a fun _ =>
    (((transport a).node first.1).purgeViews least).1
  have hfirst : Heard .minimumView (c.view.members.filter (· ≠ a)) c first.1 := heard_deliverAll
  have hsecond : Heard (.purge least) (told.view.members.filter (· ≠ a)) told second.1 :=
    heard_deliverAll
  obtain ⟨m, hm, hnm⟩ := hfirst.asked (fun _ => rfl) hn
  have hreaches : told.Reaches b ↔ c.Reaches b := hfirst.reaches
  have hview : told.view = c.view := hfirst.view
  by_cases hb : b = a
  · subst hb
    have htold : told.node? b = some (m.purgeViews least).1 := by
      rw [node?_editNode, hm, node_transport hm, if_pos rfl]
      rfl
    obtain ⟨k, hk, ⟨⟨hmem, -⟩, -⟩ | ⟨-, hmk⟩, -⟩ := hsecond.node b _ htold
    · simp at hmem
    · refine ⟨k, hk, .inl ⟨.inl rfl, ?_⟩⟩
      rw [← hnm.sees.views]
      exact hnm.sees.trans ((Node.sees_handle (r := .purge least)).trans hmk.sees)
  · have htold : told.node? b = some m := by
      rw [node?_editNode, hm, if_neg hb]
      rfl
    obtain ⟨k, hk, hmk, -⟩ := hsecond.node b m htold
    rw [hreaches, hview, mem_beside hb] at hmk
    refine ⟨k, hk, hmk.imp (fun ⟨hp, hmk⟩ => ⟨.inr hp, ?_⟩) fun ⟨hp, hmk⟩ => ⟨?_, ?_⟩⟩
    · rw [← hnm.sees.views]
      exact hnm.sees.trans (Node.sees_handle.trans hmk.sees)
    · exact fun h => h.elim hb hp
    · rw [← hnm.sees.views]
      exact hnm.sees.trans hmk.sees

theorem sees_closed
    (h : ∀ b n, c.node? b = some n → ∃ m, d.node? b = some m ∧ Node.Sees n.views n m)
    (retry : Bool) (notices : List Notice) (hn : c.node? b = some n) :
    ∃ m, (Cycle.closed (transport a) d retry notices).node? b = some m ∧ Node.Sees n.views n m := by
  obtain ⟨m, hm, hnm⟩ := h b n hn
  obtain ⟨k, hk, hmk⟩ := node?_closed retry notices hm
  rw [hnm.views] at hmk
  exact ⟨k, hk, hnm.trans hmk⟩

theorem viewGc_error (hn : c.node? a = some n) (hc : c.coordinates a = true) (ms : Nat)
    {e : GcError} (hl : Cycle.least? n ((transport a).ask c .minimumView).2.1
      ((transport a).node ((transport a).ask c .minimumView).1).stopped = .error e) :
    (c.viewGc a ms).2.1 = .error e ∧
      ∀ b m, c.node? b = some m → ∃ k, (c.viewGc a ms).1.node? b = some k ∧
        Node.Sees m.views m k := by
  have hi : (c.node? a).isSome := Option.isSome_of_eq_some hn
  rw [← node_transport hn] at hl
  obtain ⟨hr, retry, notices, hafter⟩ := Cycle.views_error lawful_transport hi hc ms hl
  refine ⟨hr, fun b m hm => ?_⟩
  rw [show (c.viewGc a ms).1 = _ from hafter]
  refine sees_closed (fun x k hk => ?_) retry notices hm
  split
  · exact ⟨k, hk, .refl k⟩
  · have hfirst : Heard .minimumView (c.view.members.filter (· ≠ a)) c
        ((transport a).ask c .minimumView).1 := heard_deliverAll
    obtain ⟨l, hl, hkl⟩ := hfirst.asked (fun _ => rfl) hk
    exact ⟨l, hl, hkl.sees⟩

theorem viewGc_ok (hn : c.node? a = some n) (hc : c.coordinates a = true) (ms : Nat) {least : Nat}
    (hl : Cycle.least? n ((transport a).ask c .minimumView).2.1
      ((transport a).node ((transport a).ask c .minimumView).1).stopped = .ok least) :
    let first := (transport a).ask c .minimumView
    let second := (transport a).ask (Cycle.purged (transport a) first.1 least) (.purge least)
    (c.viewGc a ms).2.1 =
        (Gather.answers Response.acknowledged? n.config.rpcTimeoutMs second.2.1).1.map
          (fun _ => .views least (n.views.purge least).2) ∧
      ∀ b m, c.node? b = some m → ∃ k, (c.viewGc a ms).1.node? b = some k ∧
        (TakesPart c a b ∧ Node.Sees (m.views.purge least).1 m k ∨
          ¬ TakesPart c a b ∧ Node.Sees m.views m k) := by
  intro first second
  have hi : (c.node? a).isSome := Option.isSome_of_eq_some hn
  rw [← node_transport hn] at hl
  obtain ⟨hr, retry, notices, hafter⟩ := Cycle.views_ok lawful_transport hi hc ms hl
  rw [node_transport hn] at hr
  refine ⟨hr, fun b m hm => ?_⟩
  obtain ⟨k, hk, hmk⟩ := sees_purge (a := a) hm least
  obtain ⟨l, hl, hkl⟩ := node?_closed (a := a) retry notices hk
  rw [show (c.viewGc a ms).1 = _ from hafter]
  refine ⟨l, hl, hmk.imp (fun h => ⟨h.1, ?_⟩) fun h => ⟨h.1, ?_⟩⟩
  all_goals
    rw [h.2.views] at hkl
    exact h.2.trans hkl

theorem frame_viewGc (ms : Nat) : Frame c (c.viewGc a ms).1 :=
  Cycle.views_induct (P := Frame c) (.refl c) (fun _ _ h => h.trans heard_deliverAll.toFrame)
    (fun _ f h => h.trans (.editNode f)) ms

theorem viewGc_of_not_coordinates (hc : c.coordinates a = false) (ms : Nat) :
    (c.viewGc a ms).2.1 = .ok (.skipped "not coordinator") ∧
      ∀ b m, c.node? b = some m → ∃ k, (c.viewGc a ms).1.node? b = some k ∧
        Node.Sees m.views m k := by
  have hcoordinates : ¬ (transport a).coordinates c = true := by
    rw [show (transport a).coordinates c = false from hc]
    exact Bool.false_ne_true
  rw [viewGc, Cycle.views, if_neg hcoordinates]
  refine ⟨rfl, fun b m hm => ?_⟩
  exact exists_editNode hm (fun _ => ⟨false, m.stopped, m.workers, m.metrics, rfl⟩) fun _ => .refl m

section Plain

def referred (c : Cluster) (a : Address) : Set Nat :=
  {id | ∃ b m v, TakesPart c a b ∧ c.node? b = some m ∧ v ∈ m.log.versions ∧ v.view = id}

/-- Nobody keeps a cycle of the member at `a` from its end. -/
def Unhindered (c : Cluster) (a : Address) : Prop :=
  ∀ b ∈ c.view.members, b ≠ a → c.faults.lookup b = none ∨ c.faults.lookup b = some .departed

variable {α : Type} {accept : Response → Option α}

theorem passes_reply (h : ∀ n : Node, (accept (n.handle r).2).isSome) :
    Gather.Passes accept (c.reply r b) ↔
      c.faults.lookup b = none ∨ c.faults.lookup b = some .departed := by
  rw [reply]
  cases c.faults.lookup b with
  | some f => cases f <;> simp [Fault.reply, Gather.Passes]
  | none =>
    simp only [true_or, iff_true]
    split
    · cases c.node? b with
      | none => exact .inl rfl
      | some n =>
        obtain ⟨x, hx⟩ := Option.isSome_iff_exists.mp (h n)
        exact .inr ⟨_, x, rfl, hx⟩
    · exact .inl rfl

theorem passes_replies (h : ∀ n : Node, (accept (n.handle r).2).isSome) :
    (∀ e ∈ (c.view.members.filter (· ≠ a)).map fun b => (b, c.reply r b),
      Gather.Passes accept e.2) ↔ c.Unhindered a := by
  rw [List.forall_mem_map]
  simp only [List.mem_filter, decide_eq_true_eq, and_imp, passes_reply h]
  rfl

theorem answer?_reply {id : Nat} :
    Gather.answer? Response.view? (c.reply .minimumView b) = some id ↔
      c.Reaches b ∧ ∃ m, c.node? b = some m ∧ m.log.oldestView = id := by
  rw [reply, Reaches]
  cases c.faults.lookup b with
  | some f => cases f <;> simp [Fault.reply, Gather.answer?]
  | none =>
    by_cases hr : b ∈ c.roster
    · cases c.node? b <;> simp [hr, Gather.answer?, Node.handle, Response.view?]
    · simp [hr, Gather.answer?]

theorem mem_found {id : Nat} : id ∈ Gather.found Response.view?
    ((c.view.members.filter (· ≠ a)).map fun b => (b, c.reply .minimumView b)) ↔
      ∃ b m, b ≠ a ∧ TakesPart c a b ∧ c.node? b = some m ∧ m.log.oldestView = id := by
  rw [Gather.found, List.filterMap_map, List.mem_filterMap]
  constructor
  · rintro ⟨b, hb, hid⟩
    obtain ⟨hv, hba⟩ := List.mem_filter.mp hb
    obtain ⟨hr, m, hm, hid⟩ := answer?_reply.mp hid
    exact ⟨b, m, of_decide_eq_true hba, .inr ⟨hv, hr⟩, hm, hid⟩
  · rintro ⟨b, m, hba, hp, hm, hid⟩
    obtain ⟨hv, hr⟩ := hp.resolve_left hba
    exact ⟨b, List.mem_filter.mpr ⟨hv, decide_eq_true hba⟩, answer?_reply.mpr ⟨hr, m, hm, hid⟩⟩

theorem isLeast_referred (hn : c.node? a = some n) :
    IsLeast (c.referred a) ((Gather.found Response.view?
      ((c.view.members.filter (· ≠ a)).map fun b => (b, c.reply .minimumView b))).foldl min
        n.log.oldestView) := by
  obtain ⟨hmem, hle⟩ := isLeast_foldl_min n.log.oldestView (Gather.found Response.view?
    ((c.view.members.filter (· ≠ a)).map fun b => (b, c.reply .minimumView b)))
  refine ⟨?_, fun id hid => ?_⟩
  · rcases List.mem_cons.mp hmem with h | h
    · rw [h]
      obtain ⟨v, hv, hid⟩ := CommitLog.isLeast_oldestView.1
      exact ⟨a, n, v, .inl rfl, hn, hv, hid⟩
    · obtain ⟨b, m, -, hp, hm, hid⟩ := mem_found.mp h
      obtain ⟨v, hv, hvid⟩ := (CommitLog.isLeast_oldestView : IsLeast _ m.log.oldestView).1
      exact ⟨b, m, v, hp, hm, hv, hvid.trans hid⟩
  · obtain ⟨b, m, v, hp, hm, hv, hid⟩ := hid
    have hown : m.log.oldestView ≤ id := CommitLog.isLeast_oldestView.2 ⟨v, hv, hid⟩
    by_cases hb : b = a
    · subst hb
      obtain rfl : n = m := Option.some.inj (hn.symm.trans hm)
      exact (hle (List.mem_cons_self ..)).trans hown
    · exact (hle (List.mem_cons_of_mem _ (mem_found.mpr ⟨b, m, hb, hp, hm, rfl⟩))).trans hown

theorem least?_plain (hp : c.Plain) (hn : c.node? a = some n) :
    let first := (transport a).ask c .minimumView
    let result := Cycle.least? n first.2.1 ((transport a).node first.1).stopped
    ((∃ least, result = .ok least) ↔ n.stopped = false ∧ c.Unhindered a) ∧
      ∀ least, result = .ok least → IsLeast (c.referred a) least := by
  intro first result
  have hfirst : Heard .minimumView (c.view.members.filter (· ≠ a)) c first.1 := heard_deliverAll
  have hreplies : first.2.1 = (c.view.members.filter (· ≠ a)).map fun b =>
      (b, c.reply .minimumView b) := replies_deliverAll hp
  have hstops : ((transport a).node first.1).stopped = n.stopped := by
    obtain ⟨m, hm, -, hs⟩ := hfirst.node a n hn
    rw [node_transport hm]
    exact hs hp
  have hpass : (∀ e ∈ first.2.1, Gather.Passes Response.view? e.2) ↔ c.Unhindered a := by
    rw [hreplies]
    exact passes_replies fun n => rfl
  refine ⟨⟨fun ⟨least, hl⟩ => ?_, fun ⟨hs, hu⟩ => ?_⟩, fun least hl => ?_⟩
  · obtain ⟨hs, -, hall, -⟩ := Cycle.least?_ok hl
    exact ⟨hs, hpass.mp hall⟩
  · rw [show result = Cycle.least? n first.2.1 _ from rfl, hstops, hs]
    exact ⟨_, Cycle.least?_of_passes hs (hpass.mpr hu)⟩
  · obtain ⟨-, -, -, hleast⟩ := Cycle.least?_ok hl
    rw [hleast, hreplies]
    exact isLeast_referred hn

theorem acknowledged_plain (hp : c.Plain) (hu : c.Unhindered a) (least ms : Nat) :
    let first := (transport a).ask c .minimumView
    let second := (transport a).ask (Cycle.purged (transport a) first.1 least) (.purge least)
    ∃ acks, (Gather.answers Response.acknowledged? ms second.2.1).1 = .ok acks := by
  intro first second
  have hfirst : Heard .minimumView (c.view.members.filter (· ≠ a)) c first.1 := heard_deliverAll
  let told := first.1.editNode a fun _ => (((transport a).node first.1).purgeViews least).1
  have htold : told.Plain := (hfirst.plain hp).editNode
  have hview : told.view = c.view := hfirst.view
  have hfaults : told.faults = c.faults := hfirst.faults
  have hreplies : second.2.1 = (told.view.members.filter (· ≠ a)).map fun b =>
      (b, told.reply (.purge least) b) := replies_deliverAll htold
  have hu' : told.Unhindered a := by rwa [Unhindered, hview, hfaults]
  rw [hreplies]
  exact ⟨_, Gather.answers_of_passes ((passes_replies fun n => rfl).mpr hu')⟩

theorem viewGc_plain (hp : c.Plain) (hn : c.node? a = some n) (hc : c.coordinates a = true)
    (ms : Nat) :
    (∃ e, (c.viewGc a ms).2.1 = .error e ∧ ¬ (n.stopped = false ∧ c.Unhindered a) ∧
      ∀ b m, c.node? b = some m → ∃ k, (c.viewGc a ms).1.node? b = some k ∧
        Node.Sees m.views m k) ∨
    ∃ least, (c.viewGc a ms).2.1 = .ok (.views least (n.views.purge least).2) ∧
      (n.stopped = false ∧ c.Unhindered a) ∧ IsLeast (c.referred a) least ∧
      ∀ b m, c.node? b = some m → ∃ k, (c.viewGc a ms).1.node? b = some k ∧
        (TakesPart c a b ∧ Node.Sees (m.views.purge least).1 m k ∨
          ¬ TakesPart c a b ∧ Node.Sees m.views m k) := by
  obtain ⟨hiff, hleast⟩ := least?_plain hp hn
  obtain ⟨result, hl⟩ : ∃ result, Cycle.least? n ((transport a).ask c .minimumView).2.1
    ((transport a).node ((transport a).ask c .minimumView).1).stopped = result := ⟨_, rfl⟩
  simp only [hl] at hiff hleast
  cases result with
  | error e =>
    obtain ⟨hr, hsees⟩ := viewGc_error hn hc ms hl
    refine .inl ⟨e, hr, fun h => ?_, hsees⟩
    obtain ⟨least, h⟩ := hiff.mpr h
    cases h
  | ok least =>
    have hgo := hiff.mp ⟨least, rfl⟩
    obtain ⟨hr, hsees⟩ := viewGc_ok hn hc ms hl
    obtain ⟨acks, ha⟩ := acknowledged_plain hp hgo.2 least n.config.rpcTimeoutMs
    refine .inr ⟨least, ?_, hgo, hleast least rfl, hsees⟩
    rw [hr, ha]
    rfl

theorem exists_of_sees (h : ∃ k, d.node? b = some k ∧ Node.Sees m.views m k) :
    ∃ k, d.node? b = some k ∧ k.views = m.views ∧ k.log = m.log := by
  obtain ⟨k, hk, hmk⟩ := h
  exact ⟨k, hk, hmk.views, congrArg Sequencer.log hmk.sequencer⟩

theorem viewGc_ok_iff (hp : c.Plain) (hn : c.node? a = some n) (hc : c.coordinates a = true)
    (ms : Nat) :
    (∃ outcome, (c.viewGc a ms).2.1 = .ok outcome) ↔ n.stopped = false ∧ c.Unhindered a := by
  rcases viewGc_plain hp hn hc ms with ⟨e, hr, hno, -⟩ | ⟨least, hr, hgo, -, -⟩
  · refine iff_of_false (fun ⟨_, ho⟩ => ?_) hno
    cases hr.symm.trans ho
  · exact iff_of_true ⟨_, hr⟩ hgo

theorem sees_of_error (hp : c.Plain) (hn : c.node? a = some n) (hc : c.coordinates a = true)
    {ms : Nat} (he : (c.viewGc a ms).2.1 = .error e) (hm : c.node? b = some m) :
    ∃ k, (c.viewGc a ms).1.node? b = some k ∧ k.views = m.views ∧ k.log = m.log := by
  rcases viewGc_plain hp hn hc ms with ⟨_, -, -, hsees⟩ | ⟨least, hr, -⟩
  · exact exists_of_sees (hsees b m hm)
  · cases hr.symm.trans he

theorem sees_of_ok (hp : c.Plain) (hn : c.node? a = some n) (hc : c.coordinates a = true)
    {ms : Nat} {outcome : GcOutcome} (ho : (c.viewGc a ms).2.1 = .ok outcome) :
    ∃ least, outcome = .views least (n.views.purge least).2 ∧ IsLeast (c.referred a) least ∧
      ∀ b m, c.node? b = some m → ∃ k, (c.viewGc a ms).1.node? b = some k ∧ k.log = m.log ∧
        (TakesPart c a b → k.views = (m.views.purge least).1) ∧
        (¬ TakesPart c a b → k.views = m.views) := by
  rcases viewGc_plain hp hn hc ms with ⟨e, hr, -⟩ | ⟨least, hr, -, hleast, hsees⟩
  · cases hr.symm.trans ho
  · cases hr.symm.trans ho
    refine ⟨least, rfl, hleast, fun b m hm => ?_⟩
    obtain ⟨k, hk, hmk⟩ := hsees b m hm
    refine ⟨k, hk, ?_, fun hb => ?_, fun hb => ?_⟩
    · rcases hmk with ⟨-, hmk⟩ | ⟨-, hmk⟩ <;> exact congrArg Sequencer.log hmk.sequencer
    · exact (hmk.resolve_right fun h => h.1 hb).2.views
    · exact (hmk.resolve_left fun h => hb h.1).2.views

/-- A view cycle that succeeds is exact: it finds the least view that the logs of the members taking
    part refer to, and purges precisely what these members hold below it. Only a fault or its own
    stop makes it fail, and then all stays as it is, as it does at a member that does not
    coordinate. Whatever is purged, the current view of a registry is the latest one that was
    installed. -/
theorem viewGc_exact (hp : c.Plain)
    (hrecords : ∀ b m, c.node? b = some m → ∃ vs, ViewRegistry.Records vs m.views)
    (hn : c.node? a = some n) (ms : Nat) :
    let result := (c.viewGc a ms).2.1
    let after := (c.viewGc a ms).1
    (c.coordinates a = false → result = .ok (.skipped "not coordinator") ∧
      ∀ b m, c.node? b = some m → ∃ k, after.node? b = some k ∧ k.views = m.views ∧
        k.log = m.log) ∧
    (c.coordinates a = true →
      ((∃ outcome, result = .ok outcome) ↔ n.stopped = false ∧ c.Unhindered a) ∧
      (∀ e, result = .error e → ∀ b m, c.node? b = some m → ∃ k, after.node? b = some k ∧
        k.views = m.views ∧ k.log = m.log) ∧
      ∀ outcome, result = .ok outcome → ∃ least removed, outcome = .views least removed ∧
        IsLeast (c.referred a) least ∧
        ∀ b m, c.node? b = some m → ∃ k, after.node? b = some k ∧ k.log = m.log ∧
          (b = a → removed + k.views.views.length = m.views.views.length) ∧
          (TakesPart c a b → k.views = { m.views with
            views := m.views.views.filter fun v =>
              least ≤ v.id ∨ m.views.current? = some v }) ∧
          (¬ TakesPart c a b → k.views = m.views)) ∧
    ∀ vs r, ViewRegistry.Records vs r → vs ≠ [] →
      ∃ v, ViewRegistry.Latest v vs ∧ r.current? = some v := by
  intro result after
  refine ⟨fun hc => ?_, fun hc => ?_, fun vs r h hvs => ?_⟩
  · obtain ⟨hr, hsees⟩ := viewGc_of_not_coordinates hc ms
    exact ⟨hr, fun b m hm => exists_of_sees (hsees b m hm)⟩
  · refine ⟨viewGc_ok_iff hp hn hc ms, fun e he b m hm => sees_of_error hp hn hc he hm,
      fun outcome ho => ?_⟩
    obtain ⟨least, rfl, hleast, hsees⟩ := sees_of_ok hp hn hc ho
    refine ⟨least, _, rfl, hleast, fun b m hm => ?_⟩
    obtain ⟨k, hk, hlog, hpart, haside⟩ := hsees b m hm
    refine ⟨k, hk, hlog, fun hb => ?_, fun hb => ?_, haside⟩
    · subst hb
      obtain rfl : n = m := Option.some.inj (hn.symm.trans hm)
      rw [hpart (.inl rfl)]
      exact ViewRegistry.length_purge
    · obtain ⟨vs, hvs⟩ := hrecords b m hm
      rw [hpart hb, ← hvs.valid.views_purge]
      rfl
  · exact h.current?.resolve_left fun h => hvs h.1

def graded : Cluster :=
  ((after [.join elder {}, .join younger {}, .join latecomer {}, .install, .install, .install,
    .setFault latecomer .departed]).editNode elder (·.learn ⟨3, 0, [1]⟩)).editNode younger
      (·.learn ⟨2, 0, [1]⟩)

theorem regular_graded : graded.Regular := by
  refine .editNode (.editNode (.after _) fun n _ => ?_) fun n _ => ?_
  · exact ⟨rfl, rfl⟩
  · exact ⟨rfl, rfl⟩

theorem viewGc_exact_graded : graded.Plain ∧
    (∀ b m, graded.node? b = some m → ∃ vs, ViewRegistry.Records vs m.views) ∧
    graded.coordinates elder = true ∧ (graded.viewGc elder 0).2.1 = .ok (.views 2 1) ∧
    IsLeast (graded.referred elder) 2 ∧
    (((graded.viewGc elder 0).1.node? younger).map fun k => k.views.views.map (·.id)) =
      some [2, 3] ∧
    (((graded.viewGc elder 0).1.node? latecomer).map fun k => k.views.views.map (·.id)) =
      some [1, 2, 3] := by
  have hrecords (b m) (hm : graded.node? b = some m) : ∃ vs, ViewRegistry.Records vs m.views :=
    (regular_graded.records b m hm).imp fun _ h => h.1
  have hn : graded.node? elder = some ((graded.node? elder).getD (Node.create elder {})) := rfl
  have hy : graded.node? younger = some ((graded.node? younger).getD (Node.create elder {})) := rfl
  have hl : graded.node? latecomer =
    some ((graded.node? latecomer).getD (Node.create elder {})) := rfl
  have hc : graded.coordinates elder = true := by decide +kernel
  have hr : (graded.viewGc elder 0).2.1 = .ok (.views 2 1) := rfl
  obtain ⟨-, -, hok⟩ := (viewGc_exact regular_graded.plain hrecords hn 0).2.1 hc
  obtain ⟨least, removed, hviews, hleast, hnode⟩ := hok _ hr
  cases hviews
  obtain ⟨k, hk, -, -, hpurged, -⟩ := hnode younger _ hy
  obtain ⟨j, hj, -, -, -, hkept⟩ := hnode latecomer _ hl
  refine ⟨regular_graded.plain, hrecords, hc, hr, hleast, ?_, ?_⟩
  · have hpart : TakesPart graded elder younger :=
      .inr ⟨by decide +kernel, by decide +kernel, by decide +kernel⟩
    rw [hk, Option.map_some, hpurged hpart]
    decide +kernel
  · rw [hj, Option.map_some, hkept fun h => ?_]
    · decide +kernel
    · rcases h with h | ⟨-, h, -⟩
      · cases h
      · cases h

end Plain

end Cluster

end Multiversion
