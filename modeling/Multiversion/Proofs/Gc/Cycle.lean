import Mathlib
import Multiversion.Gc.Cycle
import Multiversion.Proofs.Gc.Floor
import Multiversion.Proofs.Gc.Gather
import Multiversion.Proofs.Store.Newest

namespace Multiversion

namespace Node

/-- All that may happen to a node while its collector waits for the others. -/
def Halts (n m : Node) : Prop := ∃ stopped workers, m = { n with stopped, workers }

theorem Halts.refl (n : Node) : n.Halts n := ⟨n.stopped, n.workers, rfl⟩

theorem Halts.trans {n m k : Node} (h : n.Halts m) (h' : m.Halts k) : n.Halts k := by
  obtain ⟨stopped, workers, rfl⟩ := h
  obtain ⟨stopped', workers', rfl⟩ := h'
  exact ⟨stopped', workers', rfl⟩

def needed (n : Node) (floor : Version) : Version := (n.log.prune n.position floor).2

def cleared (n : Node) (floor : Version) : Node :=
  { n with
    sequencer := { n.sequencer with log := (n.log.prune n.position floor).1 }
    data := (n.data.collect n.position (n.needed floor)).1 }

theorem valueCount_cleared {n : Node} {floor : Version} : (n.cleared floor).data.valueCount +
    (n.data.collect n.position (n.needed floor)).2 = n.data.valueCount :=
  Store.valueCount_collect

theorem current_cleared {n : Node} {floor : Version} :
    (n.cleared floor).log.current = n.log.current :=
  CommitLog.current_prune

def Spares (n m : Node) : Prop :=
  m.address = n.address ∧ m.views = n.views ∧ m.log.current = n.log.current

theorem Spares.refl (n : Node) : n.Spares n := ⟨rfl, rfl, rfl⟩

theorem Spares.trans {n m k : Node} (h : n.Spares m) (h' : m.Spares k) : n.Spares k :=
  ⟨h'.1.trans h.1, h'.2.1.trans h.2.1, h'.2.2.trans h.2.2⟩

theorem Halts.spares {n m : Node} (h : n.Halts m) : n.Spares m := by
  obtain ⟨stopped, workers, rfl⟩ := h
  exact .refl n

end Node

structure Transport.Lawful {σ : Type} (t : Transport σ) (I : σ → Prop) : Prop where
  update : ∀ s f, I s → I (t.update s f) ∧ t.node (t.update s f) = f (t.node s)
  ask : ∀ s r, I s → I (t.ask s r).1 ∧ (t.node s).Halts (t.node (t.ask s r).1)

namespace Cycle

variable {σ : Type} {t : Transport σ} {I : σ → Prop} {s : σ} {n : Node} {floor : Version}
  {replies : List (Address × Reply)} {stops : Bool} {e : GcError}

def gathered (n : Node) (replies : List (Address × Reply)) : Except GcError Version :=
  match replies.find? fun e => Gather.offends Response.version? e.2 with
  | some (member, reply) => .error (Gather.failure n.config.rpcTimeoutMs member reply)
  | none => .ok (n.position.meet n.localMinimum (Gather.reported replies))

theorem gathered_ok : gathered n replies = .ok floor ↔
    (∀ e ∈ replies, Gather.Passes Response.version? e.2) ∧
      n.position.meet? (n.localMinimum :: Gather.reported replies) = some floor := by
  simp only [gathered, ← Gather.offends_eq_false, ← Bool.not_eq_true, ← List.find?_eq_none,
    Position.meet?]
  cases replies.find? fun e => Gather.offends Response.version? e.2 <;> simp

/-- What the gathering comes to at node `n`, `stops` telling whether it is stopped meanwhile. -/
def verdict (n : Node) (replies : List (Address × Reply)) (stops : Bool) : Except GcError Version :=
  if n.stopped then .error .interrupted
  else
    match replies.find? fun e => Gather.offends Response.version? e.2 with
    | some (member, reply) => .error (Gather.failure n.config.rpcTimeoutMs member reply)
    | none =>
      if stops then .error .interrupted
      else .ok (n.position.meet n.localMinimum (Gather.reported replies))

theorem verdict_ok : verdict n replies stops = .ok floor ↔
    (n.stopped = false ∧ stops = false ∧ ∀ e ∈ replies, Gather.Fits e.2) ∧
      n.position.meet? (n.localMinimum :: Gather.reported replies) = some floor := by
  rw [← Gather.find?_offends_eq_none, verdict, Position.meet?]
  cases n.stopped with
  | true => simp
  | false =>
    cases replies.find? fun e => Gather.offends Response.version? e.2 with
    | some e => simp
    | none => cases stops <;> simp

theorem verdict_error (h : verdict n replies stops = .error e) :
    e = .interrupted ∧
      (n.stopped = true ∨ stops = true ∧ ∀ e ∈ replies, Gather.Fits e.2) ∨
    n.stopped = false ∧ ∃ before member reply behind,
      replies = before ++ (member, reply) :: behind ∧ (∀ e ∈ before, Gather.Fits e.2) ∧
      ¬ Gather.Fits reply ∧ e = Gather.failure n.config.rpcTimeoutMs member reply := by
  rw [verdict] at h
  cases hs : n.stopped with
  | true =>
    rw [hs, if_pos rfl] at h
    cases h
    exact .inl ⟨rfl, .inl rfl⟩
  | false =>
    rw [hs, if_neg Bool.false_ne_true] at h
    cases hf : replies.find? fun e => Gather.offends Response.version? e.2 with
    | some e =>
      obtain ⟨before, behind, hr, hb, ho⟩ := Gather.find?_offends_eq_some hf
      rw [hf] at h
      cases h
      exact .inr ⟨rfl, before, _, _, behind, hr, hb, ho, rfl⟩
    | none =>
      rw [hf] at h
      cases stops with
      | true =>
        cases h
        exact .inl ⟨rfl, .inr ⟨rfl, Gather.find?_offends_eq_none.mp hf⟩⟩
      | false => cases h

theorem verdict_ne_noVersion {reason : String} :
    verdict n replies stops ≠ .error (.noVersion reason) := by
  intro h
  rcases verdict_error h with ⟨he, -⟩ | ⟨-, _, _, _, _, -, -, -, hf⟩
  · cases he
  · exact Gather.failure_ne_noVersion hf.symm

theorem gatherFloor_eq (ht : t.Lawful I) (hs : I s) :
    (gatherFloor t s).1 = (t.ask s .minimumVersion).1 ∧
      (gatherFloor t s).2.1 = gathered (t.node s) (t.ask s .minimumVersion).2.1 := by
  obtain ⟨⟨u, replies, asked⟩, hu⟩ : ∃ u, t.ask s .minimumVersion = u := ⟨_, rfl⟩
  obtain ⟨-, stopped, workers, hn⟩ := ht.ask s .minimumVersion hs
  rw [hu] at hn ⊢
  have hconfig : (t.node u).config = (t.node s).config := by rw [hn]
  have hposition : (t.node u).position = (t.node s).position := by rw [hn]; rfl
  simp only [gatherFloor, hu, hconfig, hposition, gathered]
  obtain ⟨⟨found, heard⟩, hf⟩ : ∃ f, Gather.answers Response.version?
    (t.node s).config.rpcTimeoutMs replies = f := ⟨_, rfl⟩
  have ha := congrArg (·.1) hf.symm
  rw [Gather.answers_eq] at ha
  simp only [hf]
  cases ho : replies.find? fun e => Gather.offends Response.version? e.2 with
  | some e =>
    rw [ho] at ha
    obtain rfl : found = _ := ha
    exact ⟨rfl, rfl⟩
  | none =>
    rw [ho] at ha
    obtain rfl : found = _ := ha
    exact ⟨rfl, rfl⟩

theorem versionFloor_eq (ht : t.Lawful I) (hs : I s) :
    (versionFloor t s).1 =
        (if (t.node s).stopped then s else (t.ask s .minimumVersion).1) ∧
      (versionFloor t s).2.1 = verdict (t.node s) (t.ask s .minimumVersion).2.1
        (t.node (t.ask s .minimumVersion).1).stopped := by
  obtain ⟨hstate, hresult⟩ := gatherFloor_eq ht hs
  rw [versionFloor, verdict, ← hstate]
  split
  · exact ⟨rfl, rfl⟩
  · obtain ⟨⟨u, result, heard⟩, hg⟩ : ∃ g, gatherFloor t s = g := ⟨_, rfl⟩
    rw [hg] at hresult ⊢
    obtain rfl : result = _ := hresult
    rw [gathered]
    cases (t.ask s .minimumVersion).2.1.find? fun e => Gather.offends Response.version? e.2 with
    | some e => exact ⟨rfl, rfl⟩
    | none => cases hs : (t.node u).stopped <;> simp [hs]

theorem versionFloor_halts (ht : t.Lawful I) (hs : I s) :
    I (versionFloor t s).1 ∧ (t.node s).Halts (t.node (versionFloor t s).1) := by
  rw [(versionFloor_eq ht hs).1]
  split
  · exact ⟨hs, .refl _⟩
  · exact ht.ask s .minimumVersion hs

theorem close_spec (ht : t.Lawful I) (hs : I s) (scope : Scope) (ms : Nat) (done failed : Counter)
    (result : Except GcError (Version × Nat)) (heard : List Notice) :
    let r := closeVersions t s scope ms done failed result heard
    I r.1 ∧ r.2.1 = result.map (fun r => .versions r.1 r.2) ∧
      ∃ metrics, t.node r.1 = { t.node s with metrics } := by
  cases result with
  | ok r => exact ⟨(ht.update s _ hs).1, rfl, _, (ht.update s _ hs).2⟩
  | error e => exact ⟨(ht.update s _ hs).1, rfl, _, (ht.update s _ hs).2⟩

theorem versions_induct {P : σ → Prop} (hs : P s)
    (hask : ∀ s, P s → P (t.ask s .minimumVersion).1)
    (hupdate : ∀ s f, P s → (t.node s).Spares (f (t.node s)) → P (t.update s f)) (ms : Nat) :
    P (versions t ms s).1 := by
  have hgather (s) (hs : P s) : P (gatherFloor t s).1 := by
    unfold gatherFloor
    dsimp only
    split
    · exact hask _ hs
    · split <;> exact hask _ hs
  have hfloor (s) (hs : P s) : P (versionFloor t s).1 := by
    unfold versionFloor
    split
    · exact hs
    · have hu := hgather s hs
      obtain ⟨⟨u, result, heard⟩, hg⟩ : ∃ g, gatherFloor t s = g := ⟨_, rfl⟩
      rw [hg] at hu ⊢
      cases result with
      | error e => exact hu
      | ok floor =>
        dsimp only
        split <;> exact hu
  have hclose (s result heard) (hs : P s) : P (closeVersions t s versionScope ms .versionCycles
      .versionFailures result heard).1 := by
    cases result <;> exact hupdate _ _ hs (.refl _)
  have hu := hfloor _ (hupdate s (fun n => { n with since := 0 }) hs (.refl _))
  rw [versions]
  obtain ⟨⟨u, result, heard⟩, hv⟩ : ∃ v,
    versionFloor t (t.update s fun n => { n with since := 0 }) = v := ⟨_, rfl⟩
  rw [hv] at hu
  simp only [hv]
  cases result with
  | error e => exact hclose _ _ _ hu
  | ok floor => exact hclose _ _ _ (hupdate _ _ hu ⟨rfl, rfl, CommitLog.current_prune⟩)

/-- What a cycle of the node comes to before it collects anything. -/
def reckoned (t : Transport σ) (s : σ) : Except GcError Version :=
  let asked := t.ask (t.update s fun n => { n with since := 0 }) .minimumVersion
  verdict (t.node s) asked.2.1 (t.node asked.1).stopped

theorem versionFloor_spec (ht : t.Lawful I) (hs : I s) : ∃ u heard stopped workers,
    versionFloor t (t.update s fun n => { n with since := 0 }) = (u, reckoned t s, heard) ∧
      I u ∧ t.node u = { t.node s with since := 0, stopped, workers } := by
  obtain ⟨hi, hn⟩ := ht.update s (fun n => { n with since := 0 }) hs
  have hresult := (versionFloor_eq ht hi).2
  have hhalts := versionFloor_halts ht hi
  rw [hn] at hresult hhalts
  obtain ⟨⟨u, found, heard⟩, hv⟩ : ∃ v,
    versionFloor t (t.update s fun n => { n with since := 0 }) = v := ⟨_, rfl⟩
  rw [hv] at hresult hhalts ⊢
  obtain rfl : found = reckoned t s := hresult
  obtain ⟨hu, stopped, workers, hnu⟩ := hhalts
  exact ⟨u, heard, stopped, workers, rfl, hu, hnu⟩

theorem versions_error (ht : t.Lawful I) (hs : I s) (ms : Nat) (hr : reckoned t s = .error e) :
    (versions t ms s).2.1 = .error e ∧ ∃ metrics stopped workers,
      t.node (versions t ms s).1 = { t.node s with since := 0, metrics, stopped, workers } := by
  obtain ⟨u, heard, stopped, workers, hv, hu, hn⟩ := versionFloor_spec ht hs
  rw [hr] at hv
  obtain ⟨-, hresult, metrics, hnode⟩ :=
    close_spec ht hu versionScope ms .versionCycles .versionFailures (.error e) heard
  rw [versions]
  simp only [hv]
  refine ⟨hresult, metrics, stopped, workers, ?_⟩
  rw [hnode, hn]

theorem versions_ok (ht : t.Lawful I) (hs : I s) (ms : Nat) (hr : reckoned t s = .ok floor) :
    let n := t.node s
    (versions t ms s).2.1 =
        .ok (.versions (n.needed floor) (n.data.collect n.position (n.needed floor)).2) ∧
      ∃ metrics stopped workers, t.node (versions t ms s).1 =
        { n.cleared floor with since := 0, metrics, stopped, workers } := by
  intro n
  obtain ⟨u, heard, stopped, workers, hv, hu, hn⟩ := versionFloor_spec ht hs
  rw [hr] at hv
  obtain ⟨⟨k, removed⟩, hk⟩ : ∃ c, ((t.node u).pruneLog floor).1.collectData
    ((t.node u).pruneLog floor).2 = c := ⟨_, rfl⟩
  obtain ⟨hi, hnk⟩ := ht.update u (fun _ => k) hu
  obtain ⟨-, hresult, metrics, hnode⟩ := close_spec ht hi versionScope ms .versionCycles
    .versionFailures (.ok ((t.node u).needed floor, removed)) heard
  rw [versions]
  simp only [hv, hk]
  rw [hn] at hk
  cases hk
  refine ⟨hresult.trans ?_, metrics, stopped, workers, hnode.trans ?_⟩
  · rw [hn]
    rfl
  · rw [hnk]
    rfl

theorem versions_ok_iff (ht : t.Lawful I) (hs : I s) (ms : Nat) :
    let asked := t.ask (t.update s fun n => { n with since := 0 }) .minimumVersion
    (∃ outcome, (versions t ms s).2.1 = .ok outcome) ↔
      (t.node s).stopped = false ∧ (t.node asked.1).stopped = false ∧
        ∀ e ∈ asked.2.1, Gather.Fits e.2 := by
  intro asked
  cases hr : reckoned t s with
  | ok floor => exact iff_of_true ⟨_, (versions_ok ht hs ms hr).1⟩ (verdict_ok.mp hr).1
  | error e =>
    refine iff_of_false (fun ⟨_, ho⟩ => ?_) fun hgo => ?_
    · cases (versions_error ht hs ms hr).1.symm.trans ho
    · cases hr.symm.trans (verdict_ok.mpr ⟨hgo, rfl⟩)

theorem exists_floor (ht : t.Lawful I) (hs : I s) {ms : Nat} {outcome : GcOutcome}
    (ho : (versions t ms s).2.1 = .ok outcome) : ∃ floor, reckoned t s = .ok floor := by
  cases hr : reckoned t s with
  | ok floor => exact ⟨floor, rfl⟩
  | error e => cases (versions_error ht hs ms hr).1.symm.trans ho

theorem reckoned_error (ht : t.Lawful I) (hs : I s) {ms : Nat}
    (he : (versions t ms s).2.1 = .error e) : reckoned t s = .error e := by
  cases hr : reckoned t s with
  | ok floor => cases (versions_ok ht hs ms hr).1.symm.trans he
  | error e' =>
    cases (versions_error ht hs ms hr).1.symm.trans he
    rfl

/-- A version cycle succeeds if it is not stopped and all members answer or have departed. It is
    all or nothing: an error, that of the first member to fail, leaves the node as it was. -/
theorem versions_all_or_nothing (ht : t.Lawful I) (hs : I s) (ms : Nat) :
    let n := t.node s
    let asked := t.ask (t.update s fun n => { n with since := 0 }) .minimumVersion
    let replies := asked.2.1
    let stops := (t.node asked.1).stopped
    let result := (versions t ms s).2.1
    let after := t.node (versions t ms s).1
    ((∃ outcome, result = .ok outcome) ↔
      n.stopped = false ∧ stops = false ∧ ∀ e ∈ replies, Gather.Fits e.2) ∧
    (∀ outcome, result = .ok outcome → ∃ floor removed,
      n.position.meet? (n.localMinimum :: Gather.reported replies) = some floor ∧
      outcome = .versions (n.needed floor) removed ∧
      after.data.valueCount + removed = n.data.valueCount ∧
      after.log.current = n.log.current ∧
      ∃ metrics stopped workers,
        after = { n.cleared floor with since := 0, metrics, stopped, workers }) ∧
    ∀ e, result = .error e →
      (∀ reason, e ≠ .noVersion reason) ∧
      (e = .interrupted ∧
          (n.stopped = true ∨ stops = true ∧ ∀ e ∈ replies, Gather.Fits e.2) ∨
        n.stopped = false ∧ ∃ before member reply behind,
          replies = before ++ (member, reply) :: behind ∧ (∀ e ∈ before, Gather.Fits e.2) ∧
          ¬ Gather.Fits reply ∧ e = Gather.failure n.config.rpcTimeoutMs member reply) ∧
      ∃ metrics stopped workers, after = { n with since := 0, metrics, stopped, workers } := by
  intro n asked replies stops result after
  refine ⟨versions_ok_iff ht hs ms, fun outcome ho => ?_, fun e he => ?_⟩
  · obtain ⟨floor, hr⟩ := exists_floor ht hs ho
    obtain ⟨hresult, metrics, stopped, workers, hafter⟩ := versions_ok ht hs ms hr
    cases hresult.symm.trans ho
    have hdata : after.data = (n.cleared floor).data := (congrArg Node.data hafter).trans rfl
    have hlog : after.log = (n.cleared floor).log := (congrArg Node.log hafter).trans rfl
    refine ⟨floor, _, (verdict_ok.mp hr).2, rfl, ?_, ?_, metrics, stopped, workers, hafter⟩
    · rw [hdata]
      exact Node.valueCount_cleared
    · rw [hlog]
      exact Node.current_cleared
  · have hr := reckoned_error ht hs he
    refine ⟨fun reason hn => ?_, verdict_error hr, (versions_error ht hs ms hr).2⟩
    exact verdict_ne_noVersion (hn ▸ hr)

def answering (replies : List (Address × Reply)) (stops : Bool) : Transport Node where
  node n := n
  update n f := f n
  coordinates _ := true
  ask n _ := ({ n with stopped := n.stopped || stops }, replies, [])

theorem lawful_answering : (answering replies stops).Lawful fun _ => True where
  update _ _ _ := ⟨trivial, rfl⟩
  ask n _ _ := ⟨trivial, n.stopped || stops, n.workers, rfl⟩

def overwritten : Node :=
  let n := Node.create default {}
  let n := n.restore ⟨⟨default, 1⟩, ⟨1, 0, [1]⟩, [⟨"k", some [1]⟩], 0, 0⟩
  n.restore ⟨⟨default, 2⟩, ⟨1, 0, [2]⟩, [⟨"k", some [2]⟩], 0, 0⟩

theorem versions_all_or_nothing_departed :
    let t := answering [(⟨1⟩, .departed), (⟨2⟩, .answered (.version ⟨1, 1, [2, 7]⟩))] false
    let r := versions t 0 overwritten
    r.2.1 = .ok (.versions ⟨1, 0, [2, 0]⟩ 1) ∧
      (t.node r.1).data.valueCount + 1 = (t.node overwritten).data.valueCount ∧
      (t.node r.1).log.current = (t.node overwritten).log.current := by
  intro t r
  have ht : t.Lawful fun _ => True := lawful_answering
  have hr : r.2.1 = .ok (.versions ⟨1, 0, [2, 0]⟩ 1) := by decide +kernel
  clear_value t
  obtain ⟨-, hkeep, -⟩ := versions_all_or_nothing (s := overwritten) ht trivial 0
  obtain ⟨floor, removed, -, ho, hcount, hcurrent, -⟩ := hkeep _ hr
  rw [GcOutcome.versions.injEq] at ho
  obtain ⟨-, rfl⟩ := ho
  exact ⟨hr, hcount, hcurrent⟩

end Cycle

end Multiversion
