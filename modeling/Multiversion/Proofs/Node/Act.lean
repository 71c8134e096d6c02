import Mathlib
import Multiversion.Proofs.Gc.Floor
import Multiversion.Proofs.Node.Session
import Multiversion.Proofs.Sequencer.Calls
import Multiversion.Proofs.Store.Newest

namespace Multiversion

namespace Node

def pins (n : Node) : List Version := n.sequencer.live.pinned.map (·.2)

inductive Act : Node → Node → Prop
  | begin (n) : Act n n.begin.2
  | finish (n g) : Act n (n.finish g)
  | write (n tx w) : Act n (n.write tx w)
  | enlist (n t) : Act n (n.enlist t).2
  | renew (n t) : Act n (n.renew t)
  | prepare (n tx now) : Act n (n.prepare tx now).1
  | raise (n v) : Act n (n.raise v)
  | settle (n g v now) : Act n (n.settle g v now).1
  | rollback (n g now) : Act n (n.rollback g now).1
  | learn (n v) : Act n (n.learn v)
  | claim (n) : Act n n.claimReady.1
  | apply (n tx) : Act n (n.applyOne tx)
  | insert (n txs) : Act n (n.insertBatch txs)
  | mark (n won now) : Act n (n.markBatch won now)
  | detach (n k now) : Act n (n.detachBatch k now)
  | restore (n tx) : Act n (n.restore tx)
  | cache (n tx) : Act n (n.cache tx)
  | prune (n floor) : Act n (n.pruneLog floor).1
  | collect (n minimum) : Act n (n.collectData minimum).1
  | collectL1 (n minimum) : Act n (n.collectL1 minimum).1
  | aside (n m) (hs : m.sequencer = n.sequencer) (hd : m.data = n.data) (hl : m.l1 = n.l1) : Act n m

variable {l m n : Node}

structure Later (n m : Node) : Prop where
  position : m.position = n.position
  current : n.log.current ≤ m.log.current
  pinned : ∀ v ∈ m.pins, v ∈ n.pins ∨ n.log.current ≤ v ∧ v ≤ m.log.current

namespace Later

theorem of_eq (hp : m.position = n.position) (hc : m.log.current = n.log.current)
    (hl : m.sequencer.live = n.sequencer.live) : n.Later m := by
  refine ⟨hp, hc.ge, ?_⟩
  rw [pins, hl]
  exact fun v hv => .inl hv

theorem of_sequencer (h : m.sequencer = n.sequencer) : n.Later m :=
  of_eq (congrArg (·.position) h) (congrArg (·.log.current) h) (congrArg (·.live) h)

theorem trans (h : l.Later m) (h' : m.Later n) : l.Later n := by
  refine ⟨h'.position.trans h.position, h.current.trans h'.current, ?_⟩
  intro v hv
  rcases h'.pinned v hv with hv | ⟨hv, hn⟩
  · exact (h.pinned v hv).imp_right fun ⟨hl, hm⟩ => ⟨hl, hm.trans h'.current⟩
  · exact .inr ⟨h.current.trans hv, hn⟩

theorem of_log (hp : m.position = n.position) (hc : n.log.current ≤ m.log.current)
    (hl : m.sequencer.live = n.sequencer.live) : n.Later m := by
  refine ⟨hp, hc, ?_⟩
  rw [pins, hl]
  exact fun v hv => .inl hv

end Later

theorem grows_insertAll {p : Position} {log : CommitLog} {txs : List Committed} :
    log.current.Grows (log.insertAll p txs).current := by
  rw [CommitLog.insertAll]
  induction txs generalizing log with
  | nil => exact .refl
  | cons tx txs ih =>
    have first : log.current.Grows (log.insert p tx).current := .single ⟨p, tx.version, rfl⟩
    exact first.trans ih

theorem Act.grows (h : n.Act m) : n.log.current.Grows m.log.current := by
  have same {s : Sequencer} (h : s.log = n.log) : n.log.current.Grows s.log.current := by
    rw [h]
  cases h with
  | prepare tx now =>
    rcases n.sequencer_prepare tx now with e | e
    · exact same (congrArg (·.log) e)
    · exact same (congrArg (·.log) e)
  | settle g v now =>
    change n.log.current.Grows (n.sequencer.settle g v now).1.log.current
    rcases n.sequencer.log_settle g v now with e | e
    · exact same e
    · rw [e]
      exact .single ⟨_, v, rfl⟩
  | rollback g now => exact same Sequencer.log_rollback
  | learn v => exact .single ⟨_, v, rfl⟩
  | insert txs => exact grows_insertAll
  | detach k now => exact same (congrArg (·.log) (n.sequencer_detachBatch k now))
  | restore tx => exact grows_insertAll
  | prune floor =>
    change n.log.current.Grows (n.log.prune n.position floor).1.current
    rw [CommitLog.current_prune]
  | aside _ hs => exact same (congrArg (·.log) hs)
  | _ => exact .refl

theorem Act.later (h : n.Act m) : n.Later m := by
  have hc := h.grows.le.1
  cases h with
  | begin =>
    refine ⟨rfl, le_rfl, ?_⟩
    intro v hv
    obtain ⟨e, he, rfl⟩ := List.mem_map.mp hv
    rcases Live.mem_register he with he | rfl
    · exact .inl (List.mem_map_of_mem he)
    · exact .inr ⟨le_rfl, le_rfl⟩
  | finish g =>
    refine ⟨rfl, le_rfl, ?_⟩
    intro v hv
    obtain ⟨e, he, rfl⟩ := List.mem_map.mp hv
    exact .inl (List.mem_map_of_mem (List.mem_filter.mp he).1)
  | prepare tx now =>
    rcases n.sequencer_prepare tx now with e | e
    · exact .of_eq (congrArg (·.position) e) (congrArg (·.log.current) e) (congrArg (·.live) e)
    · exact .of_eq (congrArg (·.position) e) (congrArg (·.log.current) e) (congrArg (·.live) e)
  | settle g v now => exact .of_log Sequencer.position_settle hc Sequencer.live_settle
  | rollback g now =>
    exact .of_eq Sequencer.position_rollback (congrArg CommitLog.current Sequencer.log_rollback)
      Sequencer.live_rollback
  | learn v => exact .of_log rfl hc rfl
  | insert txs => exact .of_log rfl hc rfl
  | detach k now =>
    have e := n.sequencer_detachBatch k now
    exact .of_eq (congrArg (·.position) e) (congrArg (·.log.current) e) (congrArg (·.live) e)
  | restore tx => exact .of_log rfl hc rfl
  | prune floor => exact .of_eq rfl CommitLog.current_prune rfl
  | aside _ hs => exact .of_sequencer hs
  | _ => exact .of_eq rfl rfl rfl

structure Sound (n : Node) : Prop where
  pinned : ∀ v ∈ n.pins, v ≤ n.log.current
  data : n.data.Keyed
  l1 : n.l1.Keyed

theorem Fresh.sound (h : n.Fresh) : n.Sound := by
  obtain ⟨p, log, hs, hd, hl⟩ := h
  refine ⟨?_, hd ▸ Store.Keyed.empty, hl ▸ Store.Keyed.empty⟩
  intro v hv
  rw [pins, hs] at hv
  cases hv

theorem Act.stores (h : n.Act m) (hn : n.data.Keyed ∧ n.l1.Keyed) : m.data.Keyed ∧ m.l1.Keyed := by
  cases h with
  | apply tx => exact ⟨hn.1.apply, hn.2⟩
  | restore tx => exact ⟨hn.1.apply, hn.2⟩
  | cache tx => exact ⟨hn.1, hn.2.apply⟩
  | collect minimum => exact ⟨hn.1.collect, hn.2⟩
  | collectL1 minimum => exact ⟨hn.1, hn.2.collect⟩
  | detach k now =>
    simp only [detachBatch, notifyCommitted]
    split <;> exact hn
  | aside _ hs hd hl => exact ⟨hd ▸ hn.1, hl ▸ hn.2⟩
  | _ => exact hn

theorem Act.sound (h : n.Act m) (hn : n.Sound) : m.Sound := by
  obtain ⟨hd, hl⟩ := h.stores ⟨hn.data, hn.l1⟩
  refine ⟨fun v hv => ?_, hd, hl⟩
  rcases h.later.pinned v hv with hv | ⟨-, hv⟩
  · exact (hn.pinned v hv).trans h.later.current
  · exact hv

theorem Sound.localMinimum_le (h : n.Sound) :
    n.localMinimum ≤ n.log.current ∧ ∀ v ∈ n.pins, n.localMinimum ≤ v := by
  refine ⟨fun i => Live.component_minimum_le fun e he => ?_, fun v hv => ?_⟩
  · exact h.pinned e.2 (List.mem_map_of_mem he) i
  · obtain ⟨e, he, rfl⟩ := List.mem_map.mp hv
    exact Live.minimum_le he

theorem Later.bound {v : Version} (h : n.Later m)
    (hn : v ≤ n.log.current ∧ ∀ w ∈ n.pins, v ≤ w) : v ≤ m.log.current ∧ ∀ w ∈ m.pins, v ≤ w := by
  refine ⟨hn.1.trans h.current, fun w hw => ?_⟩
  rcases h.pinned w hw with hw | ⟨hw, -⟩
  · exact hn.2 w hw
  · exact hn.1.trans hw

end Node

namespace Session

variable {may : Node → Version → Prop} {s t : Session}

theorem Step.act (h : Step may s t) : t.node = s.node ∨ s.node.Act t.node := by
  cases h with
  | begin => exact .inr (.begin _)
  | finish g => exact .inr (.finish ..)
  | write tx w => exact .inr (.write ..)
  | enlist tx => exact .inr (.enlist ..)
  | renew tx => exact .inr (.renew ..)
  | prepare tx now => exact .inr (.prepare ..)
  | raise v => exact .inr (.raise ..)
  | settle g v now => exact .inr (.settle ..)
  | rollback g now => exact .inr (.rollback ..)
  | learn v => exact .inr (.learn ..)
  | cache tx => exact .inr (.cache ..)
  | collectL1 minimum => exact .inr (.collectL1 ..)
  | aside n hs hd hl hi => exact .inr (.aside _ _ hs hd hl)
  | claim => exact .inr (.claim _)
  | pass => exact .inr (.claim _)
  | apply done x todo => exact .inr (.apply ..)
  | insert won => exact .inr (.insert ..)
  | mark won now => exact .inr (.mark ..)
  | detach won now => exact .inr (.detach ..)
  | measure => exact .inl rfl
  | gather => exact .inl rfl
  | prune before floor behind => exact .inr (.prune ..)
  | collect before needed behind => exact .inr (.collect ..)

theorem Step.later (h : Step may s t) : s.node.Later t.node := by
  rcases h.act with e | ha
  · exact .of_sequencer (congrArg Node.sequencer e)
  · exact ha.later

theorem Run.later (h : Run may s t) : s.node.Later t.node := by
  induction h with
  | refl => exact .of_sequencer rfl
  | tail _ hs ih => exact ih.trans hs.later

end Session

end Multiversion
