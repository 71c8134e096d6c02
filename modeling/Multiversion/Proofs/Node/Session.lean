import Mathlib
import Multiversion.Gc.Cycle
import Multiversion.Node
import Multiversion.Proofs.Queue.Drain

/-!
Runs of one node at a fixed position. The application of what is ready and the version cycles are
taken apart into their steps, and any other call may fall between two of them.
-/

namespace Multiversion

inductive Drain where
  | idle
  | applying (done todo : List Delivery)
  | inserted (won : List Delivery)
  | marked (won : List Delivery)
  deriving Repr

namespace Drain

def won : Drain → List Delivery
  | idle => []
  | applying done todo => done ++ todo
  | inserted won => won
  | marked won => won

def done : Drain → List Delivery
  | idle => []
  | applying done _ => done
  | inserted won => won
  | marked won => won

def isMarked : Drain → Bool
  | marked _ => true
  | _ => false

end Drain

inductive Sweep where
  | measured (own : Version)
  | gathered (floor : Version)
  | pruned (needed : Version)
  deriving Repr

namespace Node

def deliveries (n : Node) (won : List Nat) : List Delivery :=
  won.map fun e => ⟨e, n.sequencer.inFlight.record e⟩

def insertBatch (n : Node) (txs : List Committed) : Node :=
  { n with sequencer := n.sequencer.insertAll txs }

def markBatch (n : Node) (won : List Nat) (now : Time) : Node :=
  { n with sequencer := n.sequencer.markAll won now }

def detachBatch (n : Node) (k : Nat) (now : Time) : Node :=
  let (s, detached) := n.sequencer.detach now
  (n.adopt s
    [.counted .transactionsCommitted k,
      .logged (Event.transactionsCommitted.trace
        [("count", toString k), ("detached", toString detached)])]).notifyCommitted k

theorem sequencer_prepare (n : Node) (tx : Nat) (now : Time) :
    (n.prepare tx now).1.sequencer = (n.sequencer.prepare tx now).1 ∨
      (n.prepare tx now).1.sequencer = (n.sequencer.prepareReadOnly tx).1 := by
  by_cases hm : (n.transaction tx).modifies = true
  · refine .inl ?_
    rw [prepare, if_pos hm]
    rfl
  · refine .inr ?_
    rw [prepare, if_neg hm]
    rfl

theorem sequencer_detachBatch (n : Node) (k : Nat) (now : Time) :
    (n.detachBatch k now).sequencer = (n.sequencer.detach now).1 := by
  simp only [detachBatch, notifyCommitted]
  split <;> rfl

theorem publish_eq (n : Node) (txs : List Committed) (won : List Nat) (now : Time) :
    (n.publish txs won now).1 =
      ((n.insertBatch txs).markBatch won now).detachBatch txs.length now := rfl

end Node

structure Session where
  node : Node
  /-- Commits whose first half is done. -/
  raised : List Version := []
  drain : Drain := .idle
  calls : List (List Delivery) := []
  sweeps : List Sweep := []

namespace Session

def applied (s : Session) : List Delivery := s.calls.flatten ++ s.drain.done

/-- `may` tells which versions may be folded into the log without an entry. -/
inductive Step (may : Node → Version → Prop) : Session → Session → Prop
  | begin (s) : Step may s { s with node := s.node.begin.2 }
  | finish (s g) : Step may s { s with node := s.node.finish g }
  | write (s tx w) : Step may s { s with node := s.node.write tx w }
  | enlist (s) (t : Transaction) : Step may s { s with node := (s.node.enlist t).2 }
  -- whatever has become of a transaction, its snapshot stays
  | renew (s) (t : Transaction)
      (ht : ∀ n < s.node.sequencer.inFlight.transactions.all.size,
        (s.node.transaction n).id = t.id → (s.node.transaction n).snapshot = t.snapshot) :
      Step may s { s with node := s.node.renew t }
  | prepare (s tx now) (ht : tx < s.node.sequencer.inFlight.transactions.all.size)
      (hc : ∀ n, s.node.queue.find? (s.node.transaction tx).id = some n →
        (s.node.queue.entry n).claimed = false) :
      Step may s { s with node := (s.node.prepare tx now).1 }
  | raise (s v) : Step may s { s with node := s.node.raise v, raised := v :: s.raised }
  | settle (s g v now) (hv : v ∈ s.raised)
      (hu : ∀ n, s.node.queue.find? g = some n → (s.node.queue.entry n).received = false ∧
        s.node.queue.order n ≤ s.node.position.seq v)
      (hm : s.node.queue.find? g = none → may s.node v) :
      Step may s { s with node := (s.node.settle g v now).1, raised := s.raised.erase v }
  | rollback (s g now)
      (hc : ∀ n, s.node.queue.find? g = some n → (s.node.queue.entry n).claimed = false) :
      Step may s { s with node := (s.node.rollback g now).1 }
  | learn (s v) (hm : may s.node v) : Step may s { s with node := s.node.learn v }
  | cache (s tx) : Step may s { s with node := s.node.cache tx }
  | collectL1 (s minimum) : Step may s { s with node := (s.node.collectL1 minimum).1 }
  -- nothing but what a node keeps beside its transactions and their values
  | aside (s n) (hs : n.sequencer = s.node.sequencer) (hd : n.data = s.node.data)
      (hl : n.l1 = s.node.l1) (hi : n.ids = s.node.ids) : Step may s { s with node := n }
  | claim (s) (hd : s.drain = .idle) (hw : s.node.claimReady.2 ≠ []) :
      Step may s
        { s with
          node := s.node.claimReady.1
          drain := .applying [] (s.node.claimReady.1.deliveries s.node.claimReady.2) }
  -- nothing is ready, so the call is over
  | pass (s) (hd : s.drain = .idle) (hw : s.node.claimReady.2 = []) :
      Step may s { s with node := s.node.claimReady.1, calls := s.calls ++ [[]] }
  | apply (s done x todo) (hd : s.drain = .applying done (x :: todo)) :
      Step may s
        { s with node := s.node.applyOne x.record, drain := .applying (done ++ [x]) todo }
  | insert (s won) (hd : s.drain = .applying won []) :
      Step may s
        { s with node := s.node.insertBatch (won.map (·.record)), drain := .inserted won }
  | mark (s won now) (hd : s.drain = .inserted won) :
      Step may s
        { s with node := s.node.markBatch (won.map (·.entry)) now, drain := .marked won }
  | detach (s won now) (hd : s.drain = .marked won) :
      Step may s
        { s with
          node := s.node.detachBatch won.length now
          drain := .idle
          calls := s.calls ++ [won] }
  | measure (s) :
      Step may s { s with sweeps := s.sweeps ++ [.measured s.node.localMinimum] }
  -- whatever the other members reply, as long as the cycle goes on
  | gather (s before own behind ms replies vs heard floor)
      (hs : s.sweeps = before ++ .measured own :: behind)
      (ha : Gather.answers Response.version? ms replies = (.ok vs, heard))
      (hf : s.node.position.meet? (own :: vs) = some floor) :
      Step may s { s with sweeps := before ++ .gathered floor :: behind }
  | prune (s before floor behind) (hs : s.sweeps = before ++ .gathered floor :: behind) :
      Step may s
        { s with
          node := (s.node.pruneLog floor).1
          sweeps := before ++ .pruned (s.node.pruneLog floor).2 :: behind }
  | collect (s before needed behind) (hs : s.sweeps = before ++ .pruned needed :: behind) :
      Step may s
        { s with node := (s.node.collectData needed).1, sweeps := before ++ behind }

abbrev Run (may : Node → Version → Prop) := Relation.ReflTransGen (Step may)

section Calls

variable {may : Node → Version → Prop} {s : Session} {g : TransactionId} {v : Version} {now : Time}

theorem Run.commit
    (hu : ∀ n, s.node.queue.find? g = some n → (s.node.queue.entry n).received = false ∧
      s.node.queue.order n ≤ s.node.position.seq v)
    (hm : s.node.queue.find? g = none → may (s.node.raise v) v) :
    Run may s { s with node := (s.node.commit g v now).1 } := by
  let t : Session := { s with node := s.node.raise v, raised := v :: s.raised }
  have h : Step may t { s with
      node := (s.node.commit g v now).1, raised := (v :: s.raised).erase v } :=
    .settle t g v now (List.mem_cons_self ..) hu hm
  rw [List.erase_cons_head] at h
  exact (Relation.ReflTransGen.single (.raise s v)).tail h

section Apply

variable (may : Node → Version → Prop) (node : Node) (raised : List Version)
  (calls : List (List Delivery)) (sweeps : List Sweep)

theorem Run.applyAll (done todo : List Delivery) :
    Run may ⟨node, raised, .applying done todo, calls, sweeps⟩
    ⟨(todo.map (·.record)).foldl Node.applyOne node, raised, .applying (done ++ todo) [], calls,
      sweeps⟩ := by
  induction todo generalizing node done with
  | nil =>
    rw [List.append_nil]
    exact .refl
  | cons x todo ih =>
    have h := ih (node.applyOne x.record) (done ++ [x])
    rw [List.append_assoc, List.singleton_append] at h
    exact h.head (.apply ⟨node, raised, _, calls, sweeps⟩ done x todo rfl)

theorem Run.publish (won : List Delivery) (now : Time) :
    Run may ⟨node, raised, .applying won [], calls, sweeps⟩
    ⟨(node.publish (won.map (·.record)) (won.map (·.entry)) now).1, raised, .idle, calls ++ [won],
      sweeps⟩ := by
  rw [Node.publish_eq, List.length_map]
  refine .head (.insert ⟨node, raised, _, calls, sweeps⟩ won rfl) ?_
  refine .head (.mark ⟨_, raised, _, calls, sweeps⟩ won now rfl) ?_
  exact .single (.detach ⟨_, raised, _, calls, sweeps⟩ won now rfl)

/-- An application that nothing interrupts is a run of its steps. -/
theorem Run.applyReady (now : Time) : ∃ won : List Delivery,
    (node.applyReady now).2.1 = won.map (·.record) ∧
    Run may ⟨node, raised, .idle, calls, sweeps⟩
      ⟨(node.applyReady now).1, raised, .idle, calls ++ [won], sweeps⟩ := by
  obtain ⟨⟨n, won⟩, hc⟩ : ∃ c, node.claimReady = c := ⟨_, rfl⟩
  have hrecords : (n.deliveries won).map (·.record) = n.sequencer.records won := by
    rw [Node.deliveries, List.map_map, Sequencer.records]
    rfl
  have hentries : (n.deliveries won).map (·.entry) = won := by
    rw [Node.deliveries, List.map_map]
    exact List.map_id won
  refine ⟨n.deliveries won, ?_⟩
  cases won with
  | nil =>
    have h := @Step.pass may ⟨node, raised, .idle, calls, sweeps⟩ rfl (by rw [hc])
    rw [hc] at h
    rw [Node.applyReady, hc]
    exact ⟨rfl, .single h⟩
  | cons e won =>
    have h := @Step.claim may ⟨node, raised, .idle, calls, sweeps⟩ rfl
      (by rw [hc]; exact List.cons_ne_nil e won)
    rw [hc] at h
    have happly := Run.applyAll may n raised calls sweeps [] (n.deliveries (e :: won))
    have hpublish := happly.trans (Run.publish may _ raised calls sweeps _ now)
    rw [List.nil_append, hrecords, hentries] at hpublish
    rw [Node.applyReady, hc]
    exact ⟨hrecords.symm, hpublish.head h⟩

end Apply

end Calls

section Cycle

variable {may : Node → Version → Prop} {s : Session}

def transport (replies : List (Address × Reply)) : Transport Session where
  node s := s.node
  update s f := { s with node := f s.node }
  coordinates _ := false
  ask s _ := (s, replies, [])

theorem Run.count (notices : List Notice) :
    Run may s { s with node := s.node.count notices } :=
  .single (.aside s _ rfl rfl rfl rfl)

theorem Run.collected {own floor : Version} {vs : List Version} {ms : Nat}
    {replies : List (Address × Reply)} {heard : List Notice} (ho : own = s.node.localMinimum)
    (ha : Gather.answers Response.version? ms replies = (.ok vs, heard))
    (hf : s.node.position.meet? (own :: vs) = some floor) :
    Run may s { s with
      node := ((s.node.pruneLog floor).1.collectData (s.node.pruneLog floor).2).1 } := by
  subst ho
  refine .head (.measure s) ?_
  refine .head (.gather _ s.sweeps _ [] ms replies vs heard floor rfl ha hf) ?_
  refine .head (.prune _ s.sweeps floor [] rfl) (.single ?_)
  have h := @Step.collect may { s with
    node := (s.node.pruneLog floor).1
    sweeps := s.sweeps ++ [.pruned (s.node.pruneLog floor).2] } s.sweeps _ [] rfl
  rw [List.append_nil] at h
  exact h

/-- A version cycle that nothing interrupts is a run of its steps, however the others reply. -/
theorem Run.versions (replies : List (Address × Reply)) (ms : Nat) :
    Run may s (Cycle.versions (transport replies) ms s).1 := by
  refine .head (.aside s { s.node with since := 0 } rfl rfl rfl rfl) ?_
  obtain ⟨r, hr⟩ : ∃ r, ({ s with node := { s.node with since := 0 } } : Session) = r := ⟨_, rfl⟩
  have hstart : (transport replies).update s (fun n => { n with since := 0 }) = r := hr
  rw [hr, Cycle.versions, hstart]
  by_cases hstop : r.node.stopped = true
  · have hv : Cycle.versionFloor (transport replies) r = (r, .error .interrupted, []) := by
      rw [Cycle.versionFloor]
      exact if_pos hstop
    simp only [hv]
    exact Run.count _
  · obtain ⟨⟨found, heard⟩, ha⟩ : ∃ c, Gather.answers Response.version?
        r.node.config.rpcTimeoutMs replies = c := ⟨_, rfl⟩
    cases found with
    | error e =>
      have hv : Cycle.versionFloor (transport replies) r = (r, .error e, heard) := by
        simp only [Cycle.versionFloor, Cycle.gatherFloor, transport, hstop, ha]
        rfl
      simp only [hv]
      exact Run.count _
    | ok vs =>
      have hv : Cycle.versionFloor (transport replies) r =
          (r, .ok (r.node.position.meet r.node.localMinimum vs), heard) := by
        simp only [Cycle.versionFloor, Cycle.gatherFloor, transport, hstop, ha, Position.meet?]
        rfl
      simp only [hv]
      exact (Run.collected rfl ha rfl).trans (Run.count _)

end Cycle

end Session

/-- A node at a position over some log, before anything is begun or applied. -/
def Node.Fresh (n : Node) : Prop :=
  ∃ p log, n.sequencer = Sequencer.onLog p log n.config.trackWaiting ∧ n.data = {} ∧ n.l1 = {}

theorem Node.fresh_create (a : Address) (c : Config) : (create a c).Fresh := ⟨_, _, rfl, rfl, rfl⟩

theorem Node.fresh_install (a : Address) (c : Config) (v : View) :
    ((create a c).install v).Fresh := by
  have hz (q : Position) : q.seq (Position.of 0 0 1).zero = 0 := Version.component_zero ..
  cases hi : v.indexOf a with
  | none =>
    refine ⟨.of 0 0 1, .empty (.of 0 0 1), ?_, ?_, ?_⟩ <;>
      simp only [Node.install, create, hi] <;> split <;> rfl
  | some i =>
    refine ⟨.of i v.id v.members.length, .empty (.of 0 0 1), ?_, ?_, ?_⟩ <;>
      simp only [Node.install, create, hi, Sequencer.onLog, CommitLog.empty, hz] <;> split <;> rfl

end Multiversion
