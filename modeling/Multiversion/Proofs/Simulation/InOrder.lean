import Mathlib
import Multiversion.Proofs.Node.DrainOrder
import Multiversion.Proofs.Simulation.Standing

namespace Multiversion

namespace Node

variable {n m : Node} {d e : Drain} {past : List (List Delivery)} {won : List Delivery}
  {g : TransactionId} {v : Version} {k tx : Nat} {b : Bool} {w : Write} {now : Time}

structure InOrder (n : Node) (d : Drain) (past : List (List Delivery)) : Prop where
  drained : Session.Drained ⟨n, [], d, past, []⟩
  applied : n.applied = (past.flatten ++ d.done).map (·.seq n.position)
  named : n.sequencer.Named n.ids.next
  running : n.stopped = false

theorem InOrder.onto (h : n.InOrder d past) (hd : Session.Drained ⟨m, [], d, past, []⟩)
    (ha : m.applied = n.applied) (hp : m.position = n.position)
    (hn : m.sequencer.Named m.ids.next) (hs : m.stopped = n.stopped) : m.InOrder d past := by
  refine ⟨hd, ?_, hn, hs.trans h.running⟩
  rw [ha, hp]
  exact h.applied

structure Tended (n m : Node) : Prop where
  position : m.position = n.position
  inFlight : m.sequencer.inFlight = n.sequencer.inFlight
  counter : m.sequencer.lastPrepared = n.sequencer.lastPrepared
  ids : m.ids = n.ids
  applied : m.applied = n.applied
  stopped : m.stopped = n.stopped

namespace Tended

theorem refl : n.Tended n := ⟨rfl, rfl, rfl, rfl, rfl, rfl⟩

theorem trans {l : Node} (h : n.Tended m) (h' : m.Tended l) : n.Tended l :=
  ⟨h'.position.trans h.position, h'.inFlight.trans h.inFlight, h'.counter.trans h.counter,
    h'.ids.trans h.ids, h'.applied.trans h.applied, h'.stopped.trans h.stopped⟩

variable (h : n.Tended m)
include h

theorem queue : m.queue = n.queue := congrArg InFlight.queue h.inFlight

theorem transaction (k : Nat) : m.transaction k = n.transaction k :=
  congrArg (fun f : InFlight => f.transaction k) h.inFlight

theorem spares : Sequencer.Spares k n.sequencer m.sequencer := by
  refine ⟨?_, h.position, h.counter.ge, h.transaction k, ?_⟩
  · exact (congrArg (fun f : InFlight => f.transactions.all.size) h.inFlight).ge
  · change Queue.Bypasses _ n.queue m.queue
    rw [h.queue]
    exact .refl

theorem inOrder (hn : n.InOrder d past) : m.InOrder d past := by
  have hd : Session.Drained ⟨m, [], d, past, []⟩ :=
    hn.drained.congr h.queue h.position h.counter (fun v hv => hv) rfl rfl rfl
  refine hn.onto hd h.applied h.position ?_ h.stopped
  rw [h.ids]
  refine hn.named.congr ?_ (fun k _ => congrArg _ (h.transaction k)) ?_
  · exact congrArg (fun f : InFlight => f.transactions.all.size) h.inFlight
  · have hq : m.sequencer.queue = n.sequencer.queue := h.queue
    rw [hq]
    exact hn.named.owned

end Tended

/-- A call about transaction `k`, by which `gain` entries have received their commits. -/
structure Serves (n : Node) (k gain : Nat) (m : Node) : Prop where
  met : m.sequencer.met = n.sequencer.met
  spares : ∀ j < n.sequencer.met, j ≠ k → Sequencer.Spares j n.sequencer m.sequencer
  gain : m.queue.settled = n.queue.settled + gain

theorem Serves.refl : n.Serves k 0 n := ⟨rfl, fun _ _ _ => .refl, rfl⟩

theorem Serves.trans {gain more : Nat} {l : Node} (h : n.Serves k gain m)
    (h' : m.Serves k more l) : n.Serves k (gain + more) l := by
  refine ⟨h'.met.trans h.met, fun j hj hjk => (h.spares j hj hjk).trans (h'.spares j ?_ hjk), ?_⟩
  · rwa [h.met]
  · rw [h'.gain, h.gain, Nat.add_assoc]

theorem Tended.serves (h : n.Tended m) : n.Serves k 0 m :=
  ⟨congrArg (fun f : InFlight => f.transactions.all.size) h.inFlight, fun _ _ _ => h.spares,
    congrArg Queue.settled h.queue⟩

theorem unreceived {i : Nat} (hk : n.sequencer.Holds k (.prepared b))
    (hi : n.queue.find? (n.transaction k).id = some i) :
    b = true ∧ (n.queue.entry i).received = false := by
  cases b with
  | false =>
    rw [show n.queue.find? (n.transaction k).id = none from hk.2] at hi
    cases hi
  | true =>
    obtain ⟨-, e, he, hu, -⟩ := hk
    obtain rfl : i = e := Option.some.inj (hi.symm.trans he)
    exact ⟨rfl, hu⟩

namespace InOrder

variable (h : n.InOrder d past)
include h

theorem valid : n.sequencer.queue.Valid := h.drained.exact.valid

theorem exact : n.sequencer.queue.Exact := h.drained.exact.exact

theorem unclaimed {e : Nat} (he : n.queue.find? g = some e)
    (hu : (n.queue.entry e).received = false) : (n.queue.entry e).claimed = false := by
  by_contra hc
  have hl := (h.valid.find?_eq_some_iff.mp he).1
  obtain ⟨x, hx, rfl⟩ := List.mem_map.mp
    ((h.drained.drains.claimed e hl).mp (Bool.eq_true_of_not_eq_false hc))
  have hr := (h.drained.drains.stated x (List.mem_append_right _ hx)).received
  change (n.queue.entry x.entry).received = true at hr
  rw [hu] at hr
  cases hr

theorem kept {e : Nat} (he : n.queue.find? g = some e)
    (hu : (n.queue.entry e).received = false) : (n.queue.entry e).isAborted = false := by
  have hv := h.drained.drains.undecided e (h.valid.find?_eq_some_iff.mp he).1 (h.unclaimed he hu)
  rw [Entry.isAborted, Notifier.isAborted, hv]
  decide

theorem begin : n.begin.2.InOrder d past :=
  h.onto (h.drained.congr rfl rfl rfl (fun _ hv => hv) rfl rfl rfl) rfl rfl
    (Sequencer.named_begin h.named rfl) rfl

theorem holds_begin : n.begin.2.sequencer.Holds n.sequencer.met (.opened false) :=
  Sequencer.holds_begin h.named h.valid rfl

theorem write : (n.write k w).InOrder d past ∧ n.Serves k 0 (n.write k w) := by
  have hd : Session.Drained ⟨n.write k w, [], d, past, []⟩ :=
    h.drained.congr rfl rfl rfl (fun v hv => hv) rfl rfl rfl
  have hn : (n.write k w).sequencer.Named n.ids.next := Sequencer.named_edit h.named fun _ => rfl
  exact ⟨h.onto hd rfl rfl hn rfl, Sequencer.met_edit,
    fun j hj hjk => Sequencer.spares_edit hj hjk, rfl⟩

theorem drained_prepare (now : Time) (hk : n.sequencer.Holds k (.opened b)) :
    Session.Drained ⟨(n.prepare k now).1, [], d, past, []⟩ := by
  refine h.drained.prepare hk.1 fun e he => ?_
  rw [show n.queue.find? (n.transaction k).id = none from hk.2.2] at he
  cases he

theorem prepare_writing (now : Time) (hk : n.sequencer.Holds k (.opened true)) :
    (n.prepare k now).1.InOrder d past ∧ n.Serves k 0 (n.prepare k now).1 ∧
      (n.prepare k now).1.sequencer.Holds k (.prepared true) := by
  have hs : (n.prepare k now).1.sequencer = (n.sequencer.prepare k now).1 := by
    rw [Node.prepare, if_pos (show (n.transaction k).modifies = true from hk.2.1)]
    rfl
  have hp : (n.prepare k now).1.position = n.position := by
    rw [Node.position, hs]
    rfl
  refine ⟨h.onto (h.drained_prepare now hk) rfl hp ?_ rfl, ⟨?_, fun j hj hjk => ?_, ?_⟩, ?_⟩
  · rw [hs]
    exact Sequencer.named_prepare h.valid hk.1 hk.2.2 h.named
  · rw [hs]
    exact Sequencer.met_prepare
  · rw [hs]
    exact Sequencer.spares_prepare h.valid hk.1 hk.2.2 h.named hj hjk
  · rw [Node.queue, hs, Sequencer.queue_prepare hk.1]
    exact h.valid.settled_prepare hk.2.2
  · rw [hs]
    exact Sequencer.holds_prepare h.valid hk.1 hk.2.2

theorem prepare_readOnly (now : Time) (hk : n.sequencer.Holds k (.opened false)) :
    (n.prepare k now).1.InOrder d past ∧ n.Serves k 0 (n.prepare k now).1 ∧
      (n.prepare k now).1.sequencer.Holds k (.prepared false) := by
  have hm : ¬ (n.transaction k).modifies = true := by
    rw [show (n.transaction k).modifies = false from hk.2.1]
    exact Bool.false_ne_true
  have hs : (n.prepare k now).1.sequencer = n.sequencer.edit k (·.stamp n.log.current) := by
    rw [Node.prepare, if_neg hm]
    rfl
  have hp : (n.prepare k now).1.position = n.position := by
    rw [Node.position, hs]
    rfl
  refine ⟨h.onto (h.drained_prepare now hk) rfl hp ?_ rfl, ⟨?_, fun j hj hjk => ?_, ?_⟩, ?_⟩
  · rw [hs]
    exact Sequencer.named_edit h.named fun _ => rfl
  · rw [hs]
    exact Sequencer.met_edit
  · rw [hs]
    exact Sequencer.spares_edit hj hjk
  · rw [Node.queue, hs]
    rfl
  · rw [hs]
    exact Sequencer.holds_prepareReadOnly hk

theorem prepare (now : Time) (hk : n.sequencer.Holds k (.opened b)) :
    (n.prepare k now).1.InOrder d past ∧ n.Serves k 0 (n.prepare k now).1 ∧
      (n.prepare k now).1.sequencer.Holds k (.prepared b) := by
  cases b with
  | true => exact h.prepare_writing now hk
  | false => exact h.prepare_readOnly now hk

theorem rollback (now : Time) (hk : n.sequencer.Holds k (.prepared true)) :
    (n.rollback (n.transaction k).id now).1.InOrder d past ∧
      n.Serves k 0 (n.rollback (n.transaction k).id now).1 ∧
      (n.rollback (n.transaction k).id now).1.sequencer.Holds k .decided := by
  have hd : Session.Drained ⟨(n.rollback (n.transaction k).id now).1, [], d, past, []⟩ :=
    h.drained.rollback fun i hi => h.unclaimed hi (unreceived hk hi).2
  refine ⟨h.onto hd rfl Sequencer.position_rollback ?_ rfl,
    ⟨Sequencer.met_rollback h.valid, fun j hj hjk => ?_, ?_⟩,
    Sequencer.holds_rollback h.valid hk.lt_met⟩
  · exact Sequencer.named_rollback h.valid h.named
  · exact Sequencer.spares_rollback h.valid fun hi =>
      hjk (h.named.distinct j hj k hk.lt_met hi)
  · change (n.sequencer.rollback _ now).1.queue.settled = _
    rw [Sequencer.queue_rollback h.valid]
    exact h.valid.settled_rollback fun i hi => (unreceived hk hi).2

theorem raise : (n.raise v).InOrder d past ∧ n.Serves k 0 (n.raise v) := by
  have hd : Session.Drained ⟨n.raise v, [], d, past, []⟩ :=
    h.drained.raise.congr rfl rfl rfl (fun v hv => absurd hv List.not_mem_nil) rfl rfl rfl
  have hn : (n.raise v).sequencer.Named n.ids.next :=
    h.named.congr rfl (fun _ _ => rfl) h.named.owned
  exact ⟨h.onto hd rfl rfl hn rfl, rfl,
    fun j hj _ => ⟨Nat.le_refl _, rfl, Nat.le_max_left .., rfl, .refl⟩, rfl⟩

theorem settle (now : Time) (hk : n.sequencer.Holds k (.prepared b))
    (hf : n.sequencer.Fits k v) (hv : n.position.seq v ≤ n.sequencer.lastPrepared) :
    (n.settle (n.transaction k).id v now).1.InOrder d past ∧
      n.Serves k b.toNat (n.settle (n.transaction k).id v now).1 ∧
      (n.settle (n.transaction k).id v now).1.sequencer.Holds k .decided := by
  have hlt := hk.lt_met
  have hraised : Session.Drained ⟨n, [v], d, past, []⟩ := by
    refine ⟨h.drained.exact.congr rfl rfl (Nat.le_refl _) fun u hu => .inr ?_, h.drained.drains,
      h.drained.ordered, h.drained.apart⟩
    rw [List.mem_singleton.mp hu]
    exact hv
  have hd : Session.Drained ⟨(n.settle (n.transaction k).id v now).1, [v].erase v, d, past, []⟩ :=
    hraised.settle (List.mem_singleton_self v) fun i hi =>
      ⟨(unreceived hk hi).2, hf i hi⟩
  have hd' : Session.Drained ⟨(n.settle (n.transaction k).id v now).1, [], d, past, []⟩ :=
    hd.congr rfl rfl rfl (fun v hv => absurd hv List.not_mem_nil) rfl rfl rfl
  refine ⟨h.onto hd' rfl Sequencer.position_settle ?_ rfl,
    ⟨Sequencer.met_settle h.valid, fun j hj hjk => ?_, ?_⟩, Sequencer.holds_settle h.valid hlt⟩
  · exact Sequencer.named_settle h.valid h.named
  · exact Sequencer.spares_settle h.valid h.named hj fun hi => hjk (h.named.distinct j hj k hlt hi)
  · change (n.sequencer.settle _ v now).1.queue.settled = _
    rw [Sequencer.queue_settle h.valid]
    cases hq : n.sequencer.queue.find? (n.transaction k).id with
    | some i =>
      obtain ⟨rfl, hu⟩ := unreceived hk hq
      exact h.valid.settled_commit hq hu (h.kept hq hu)
    | none =>
      rw [Queue.Valid.commit_none hq]
      cases b with
      | false => rfl
      | true =>
        obtain ⟨-, e, he, -⟩ := hk
        rw [show n.sequencer.queued? k = none from hq] at he
        cases he

end InOrder

inductive Applies : Node → Drain → Node → Drain → Prop
  | claim (n : Node) (hw : n.claimReady.2 ≠ []) :
      Applies n .idle n.claimReady.1 (.applying [] (n.claimReady.1.deliveries n.claimReady.2))
  | apply (n : Node) (done x todo) :
      Applies n (.applying done (x :: todo)) (n.applyOne x.record) (.applying (done ++ [x]) todo)
  | insert (n : Node) (won) :
      Applies n (.applying won []) (n.insertBatch (won.map (·.record))) (.inserted won)
  | mark (n : Node) (won now) :
      Applies n (.inserted won) (n.markBatch (won.map (·.entry)) now) (.marked won)

inductive Returns : Node → Drain → Node → List Delivery → Prop
  | pass (n : Node) (hw : n.claimReady.2 = []) : Returns n .idle n.claimReady.1 []
  | detach (n : Node) (won now) : Returns n (.marked won) (n.detachBatch won.length now) won

abbrev Applying := Relation.ReflTransGen fun x y : Node × Drain => x.1.Applies x.2 y.1 y.2

theorem applying_all (n : Node) (done todo : List Delivery) : Applying (n, .applying done todo)
    ((todo.map (·.record)).foldl applyOne n, .applying (done ++ todo) []) := by
  induction todo generalizing n done with
  | nil =>
    rw [List.append_nil]
    exact .refl
  | cons x todo ih =>
    have h := ih (n.applyOne x.record) (done ++ [x])
    rw [List.append_assoc, List.singleton_append] at h
    exact .head (.apply n done x todo) h

theorem applying_publish (n : Node) (won : List Delivery) (now : Time) :
    Applying (n, .applying won [])
      ((n.insertBatch (won.map (·.record))).markBatch (won.map (·.entry)) now, .marked won) := by
  have hinsert : Applying (n, .applying won [])
      (n.insertBatch (won.map (·.record)), .inserted won) := .single (.insert n won)
  exact hinsert.tail (.mark _ won now)

theorem applyReady_steps (n : Node) (now : Time) : ∃ l e won, Applying (n, .idle) (l, e) ∧
    l.Returns e (n.applyReady now).1 won ∧ (n.applyReady now).2.1 = won.map (·.record) := by
  obtain ⟨⟨l, won⟩, hc⟩ : ∃ c, n.claimReady = c := ⟨_, rfl⟩
  cases won with
  | nil =>
    have h := Returns.pass n (by rw [hc])
    rw [hc] at h
    refine ⟨n, .idle, [], .refl, ?_, ?_⟩ <;> rw [applyReady, hc]
    · exact h
    · rfl
  | cons e won =>
    have hclaim := Applies.claim n (by rw [hc]; exact List.cons_ne_nil e won)
    rw [hc] at hclaim
    obtain ⟨ds, hds⟩ : ∃ ds, l.deliveries (e :: won) = ds := ⟨_, rfl⟩
    rw [hds] at hclaim
    have hrecords : l.sequencer.records (e :: won) = ds.map (·.record) := by
      rw [← hds, deliveries, List.map_map, Sequencer.records]
      rfl
    have hentries : ds.map (·.entry) = e :: won := by
      rw [← hds, deliveries, List.map_map]
      exact List.map_id _
    have hready : n.applyReady now = (((ds.map (·.record)).foldl applyOne l).publish
        (ds.map (·.record)) (ds.map (·.entry)) now |>.1, ds.map (·.record),
        ((ds.map (·.record)).foldl applyOne l).publish (ds.map (·.record)) (ds.map (·.entry)) now
          |>.2) := by
      rw [hentries, ← hrecords, applyReady, hc]
    refine ⟨_, _, ds, .head hclaim ((applying_all l [] ds).trans
      (applying_publish ((ds.map (·.record)).foldl applyOne l) ds now)), ?_, by rw [hready]⟩
    rw [hready, publish_eq, List.length_map]
    exact .detach _ ds now

theorem exists_returns (n : Node) (d : Drain) :
    ∃ l e m won, Applying (n, d) (l, e) ∧ l.Returns e m won := by
  have apply_from (n done todo) : ∃ l e m won, Applying (n, .applying done todo) (l, e) ∧
      l.Returns e m won :=
    ⟨_, _, _, done ++ todo, (applying_all n done todo).trans (applying_publish _ _ 0),
      .detach _ _ 0⟩
  cases d with
  | idle =>
    by_cases hw : n.claimReady.2 = []
    · exact ⟨n, .idle, _, [], .refl, .pass n hw⟩
    · obtain ⟨l, e, m, won, hs, hr⟩ := apply_from n.claimReady.1 []
        (n.claimReady.1.deliveries n.claimReady.2)
      exact ⟨l, e, m, won, .head (.claim n hw) hs, hr⟩
  | applying done todo => exact apply_from n done todo
  | inserted won => exact ⟨_, _, _, won, .single (.mark n won 0), .detach _ won 0⟩
  | marked won => exact ⟨n, _, _, won, .refl, .detach n won 0⟩

namespace InOrder

variable (h : n.InOrder d past)
include h

theorem spares_of_copies {q : Queue} (hq : q.Valid) (hc : n.queue.Copies q) :
    Sequencer.Spares k n.sequencer (n.sequencer.setQueue q) :=
  ⟨Nat.le_refl _, rfl, Nat.le_refl _, rfl, .of_copies h.valid hq hc⟩

theorem named_of_within {q : Queue} (hw : n.queue.Within q) :
    (n.sequencer.setQueue q).Named n.ids.next :=
  h.named.congr rfl (fun _ _ => rfl) (h.named.within hw)

theorem serves_of_copies {q : Queue} (hq : q.Valid) (hc : n.queue.Copies q)
    (hs : m.sequencer = n.sequencer.setQueue q) : n.Serves k 0 m := by
  refine ⟨by rw [hs]; rfl, fun j _ _ => hs ▸ h.spares_of_copies hq hc, ?_⟩
  rw [Node.queue, hs]
  exact hc.settled_eq

theorem claimReady : n.claimReady.1.sequencer.Named n.ids.next ∧ n.Serves k 0 n.claimReady.1 := by
  have hc : n.queue.Copies (n.queue.claimAll n.queue.readyPrefix).1 := .claimAll
  refine ⟨h.named_of_within (.of_copies hc), h.serves_of_copies ?_ hc rfl⟩
  exact (Sequencer.Run.claimAll.exact h.drained.exact).1.valid

theorem applies {e : Drain} (ha : n.Applies d m e) : m.InOrder e past ∧ n.Serves k 0 m := by
  cases ha with
  | claim hw =>
    have hd := (@Session.Step.claim (fun _ _ => True) _ rfl hw).drained h.drained
    obtain ⟨hn, hs⟩ := h.claimReady
    exact ⟨⟨hd, h.applied, hn, h.running⟩, hs⟩
  | apply done x todo =>
    have hd := (@Session.Step.apply (fun _ _ => True) _ done x todo rfl).drained h.drained
    refine ⟨⟨hd, ?_, h.named, h.running⟩, rfl, fun j _ _ => .refl, rfl⟩
    change n.applied ++ [n.position.seq x.record.version] =
      (past.flatten ++ (done ++ [x])).map (·.seq n.position)
    simp only [h.applied, Drain.done, List.map_append, List.append_assoc]
    rfl
  | insert won =>
    have hd := (@Session.Step.insert (fun _ _ => True) _ won rfl).drained h.drained
    exact ⟨⟨hd, h.applied, h.named.congr rfl (fun _ _ => rfl) h.named.owned, h.running⟩, rfl,
      fun j _ _ => ⟨Nat.le_refl _, rfl, Nat.le_refl _, rfl, .refl⟩, rfl⟩
  | mark won now =>
    have hd := (@Session.Step.mark (fun _ _ => True) _ won now rfl).drained h.drained
    have hc : n.queue.Copies (n.queue.markAll (won.map (·.entry)) now) := .markAll
    exact ⟨⟨hd, h.applied, h.named_of_within (.of_copies hc), h.running⟩,
      h.serves_of_copies hd.exact.valid hc rfl⟩

theorem returns (ha : n.Returns d m won) : m.InOrder .idle (past ++ [won]) ∧ n.Serves k 0 m := by
  cases ha with
  | pass hw =>
    have hd := (@Session.Step.pass (fun _ _ => True) _ rfl hw).drained h.drained
    obtain ⟨hn, hs⟩ := h.claimReady
    refine ⟨⟨hd, ?_, hn, h.running⟩, hs⟩
    have hflat : (past ++ [[]]).flatten = past.flatten := by simp
    rw [hflat]
    exact h.applied
  | detach won now =>
    have hd := (@Session.Step.detach (fun _ _ => True) _ won now rfl).drained h.drained
    have hs := n.sequencer_detachBatch won.length now
    have hq : (n.detachBatch won.length now).queue = (n.queue.detach now).1 := by
      rw [Node.queue, hs]
      rfl
    have hkeep : (n.detachBatch won.length now).applied = n.applied ∧
        (n.detachBatch won.length now).ids = n.ids ∧
        (n.detachBatch won.length now).stopped = n.stopped := by
      unfold detachBatch notifyCommitted
      dsimp only
      split <;> exact ⟨rfl, rfl, rfl⟩
    have hcommitted : ∀ e ∈ n.queue.line, (n.queue.entry e).committed = true →
        (n.queue.entry e).received = true := by
      intro e he hc
      have hc' := ((h.drained.drains.committed e he).mp hc).2
      obtain ⟨x, hx, rfl⟩ := List.mem_map.mp ((h.drained.drains.claimed e he).mp hc')
      exact (h.drained.drains.stated x (List.mem_append_right _ hx)).received
    have hflat : (past ++ [won]).flatten ++ Drain.done .idle =
        past.flatten ++ Drain.done (.marked won) := by simp [Drain.done]
    refine ⟨⟨hd, ?_, ?_, hkeep.2.2.trans h.running⟩, ?_, fun j _ _ => ?_, ?_⟩
    · rw [hkeep.1, Node.position, hs, h.applied, hflat]
      rfl
    · rw [hs, hkeep.2.1]
      exact h.named_of_within h.valid.detach_within
    · rw [hs]
      rfl
    · rw [hs]
      exact ⟨Nat.le_refl _, rfl, Nat.le_refl _, rfl, h.valid.detach_bypasses hcommitted⟩
    · rw [hq]
      exact h.valid.settled_detach

theorem applying {x : Node × Drain} (ha : Applying (n, d) x) :
    x.1.InOrder x.2 past ∧ n.Serves k 0 x.1 := by
  induction ha with
  | refl => exact ⟨h, .refl⟩
  | tail _ ha ih =>
    obtain ⟨hi, hs⟩ := ih.1.applies ha
    exact ⟨hi, ih.2.trans hs⟩

theorem applyReady (now : Time) (hd : d = .idle) :
    ∃ won, (n.applyReady now).1.InOrder .idle (past ++ [won]) ∧
      n.Serves k 0 (n.applyReady now).1 := by
  subst hd
  obtain ⟨l, e, won, ha, hr, -⟩ := n.applyReady_steps now
  obtain ⟨hl, hs⟩ := h.applying ha
  obtain ⟨hm, hs'⟩ := hl.returns hr
  exact ⟨won, hm, hs.trans hs'⟩

theorem length_applied (hd : d = .idle) (hl : n.queue.line = []) :
    n.applied.length = n.queue.settled := by
  subst hd
  have he := congrArg List.length (h.drained.returned_eq rfl hl)
  rw [List.length_map, Queue.committedOrder, List.length_insertionSort,
    ← List.countP_eq_length_filter] at he
  rw [h.applied, List.length_map, Drain.done, List.append_nil]
  exact he

theorem ordered : n.applied.Pairwise (· ≤ ·) := by
  have hsub : d.done.Sublist d.won := by
    cases d with
    | applying done todo => exact List.sublist_append_left ..
    | _ => exact .refl _
  have ho := h.drained.ordered.sublist ((List.Sublist.refl past.flatten).append hsub)
  rw [h.applied, List.pairwise_map]
  refine ho.imp fun hxy => ?_
  rcases hxy with hlt | ⟨he, -⟩
  · exact hlt.le
  · exact he.le

end InOrder

end Node

end Multiversion
