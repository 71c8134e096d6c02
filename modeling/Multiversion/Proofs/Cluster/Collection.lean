import Mathlib
import Multiversion.Proofs.Cluster.Members

/-!
One collection at a time by the member at `a`, taken apart into its steps, while every member goes
on with calls of its own. The version that is collected at bounds what any reader comes with whose
member has been asked, from the moment it was asked.
-/

namespace Multiversion.Cluster

inductive Phase where
  | idle
  | asking (own : Version) (replies : List (Address × Reply))
  | agreed (floor : Version)
  | pruned (needed : Version)
  -- the cache is collected at the minimum of its own node
  | caching (own : Version)

structure Round where
  cluster : Cluster
  phase : Phase := .idle
  /-- The members whose minimum was taken, each with it. -/
  taken : List (Address × Version) := []
  /-- Every version that was pinned on such a member at that time or later. -/
  readers : List Version := []

namespace Round

def watched (c : Cluster) (taken : List (Address × Version)) : List Version :=
  taken.flatMap fun e => ((c.node? e.1).map Node.pins).getD []

def answer (b : Address) : Reply → List (Address × Version)
  | .answered (.version v) => [(b, v)]
  | _ => []

def goOn (r : Round) (c : Cluster) (phase : Phase) (taken : List (Address × Version)) : Round :=
  ⟨c, phase, taken, r.readers ++ watched c taken⟩

inductive Step (a : Address) : Round → Round → Prop
  | act (r b g) (hg : ∀ n, r.cluster.node? b = some n → n.Act (g n)) :
      Step a r (r.goOn (r.cluster.editNode b g) r.phase r.taken)
  | drop (r b) : Step a r (r.goOn (r.cluster.drop b).1 r.phase r.taken)
  | setFault (r b f) : Step a r (r.goOn (r.cluster.setFault b f) r.phase r.taken)
  | clearFault (r b) : Step a r (r.goOn (r.cluster.clearFault b) r.phase r.taken)
  | measure (r n) (hp : r.phase = .idle) (hn : r.cluster.node? a = some n) :
      Step a r
        ⟨r.cluster, .asking n.localMinimum [], [(a, n.localMinimum)],
          watched r.cluster [(a, n.localMinimum)]⟩
  | ask (r own replies b) (hp : r.phase = .asking own replies) (hb : b ∈ r.cluster.view.members) :
      Step a r
        (r.goOn (r.cluster.deliver b .minimumVersion).1
          (.asking own (replies ++ [(b, (r.cluster.deliver b .minimumVersion).2.1)]))
          (r.taken ++ answer b (r.cluster.deliver b .minimumVersion).2.1))
  | agree (r own replies n ordered vs heard floor) (hp : r.phase = .asking own replies)
      (hn : r.cluster.node? a = some n)
      (hall : ∀ b ∈ r.cluster.view.members, b ≠ a → b ∈ replies.map (·.1))
      (ho : ordered.Perm replies)
      (hv : Gather.answers Response.version? n.config.rpcTimeoutMs ordered = (.ok vs, heard))
      (hf : n.position.meet? (own :: vs) = some floor) :
      Step a r (r.goOn r.cluster (.agreed floor) r.taken)
  | prune (r floor n) (hp : r.phase = .agreed floor) (hn : r.cluster.node? a = some n) :
      Step a r
        (r.goOn (r.cluster.editNode a fun _ => (n.pruneLog floor).1)
          (.pruned (n.pruneLog floor).2) r.taken)
  | collect (r needed n) (hp : r.phase = .pruned needed) (hn : r.cluster.node? a = some n) :
      Step a r ⟨r.cluster.editNode a fun _ => (n.collectData needed).1, .idle, [], []⟩
  | measureL1 (r n) (hp : r.phase = .idle) (hn : r.cluster.node? a = some n) :
      Step a r
        ⟨r.cluster, .caching n.localMinimum, [(a, n.localMinimum)],
          watched r.cluster [(a, n.localMinimum)]⟩
  | collectL1 (r own n) (hp : r.phase = .caching own) (hn : r.cluster.node? a = some n) :
      Step a r ⟨r.cluster.editNode a fun _ => (n.collectL1 own).1, .idle, [], []⟩
  | abandon (r) : Step a r ⟨r.cluster, .idle, [], []⟩

abbrev Run (a : Address) := Relation.ReflTransGen (Step a)

def Bounds : Phase → Address × Version → Prop
  | .idle, _ => True
  | .asking own replies, e => e.2 = own ∨ (e.1, .answered (.version e.2)) ∈ replies
  | .agreed floor, e => floor ≤ e.2
  | .pruned needed, e => needed ≤ e.2
  | .caching own, e => own ≤ e.2

def Held (c : Cluster) (e : Address × Version) : Prop :=
  ∀ n, c.node? e.1 = some n → e.2 ≤ n.log.current ∧ ∀ v ∈ n.pins, e.2 ≤ v

theorem Held.moves {c d : Cluster} {e : Address × Version} (h : Held c e) (hc : c.Moves d) :
    Held d e := by
  intro m hm
  obtain ⟨n, hn, rfl | ha⟩ := hc e.1 m hm
  · exact h m hn
  · exact ha.later.bound (h n hn)

structure Safe (r : Round) : Prop where
  sound : ∀ b n, r.cluster.node? b = some n → n.Sound
  held : ∀ e ∈ r.taken, Held r.cluster e
  readers : ∀ v ∈ r.readers, ∃ e ∈ r.taken, e.2 ≤ v
  bounds : ∀ e ∈ r.taken, Bounds r.phase e

variable {a b : Address} {r s : Round} {c : Cluster} {phase : Phase} {n : Node}
  {taken : List (Address × Version)}

theorem le_of_watched {v : Version} (h : ∀ e ∈ taken, Held c e) (hv : v ∈ watched c taken) :
    ∃ e ∈ taken, e.2 ≤ v := by
  obtain ⟨e, he, hv⟩ := List.mem_flatMap.mp hv
  cases hn : c.node? e.1 with
  | none =>
    rw [hn] at hv
    cases hv
  | some n =>
    rw [hn] at hv
    exact ⟨e, he, (h e he n hn).2 v hv⟩

namespace Safe

theorem sound_moves (h : r.Safe) (hc : r.cluster.Moves c) :
    ∀ b n, c.node? b = some n → n.Sound := by
  intro b m hm
  obtain ⟨n, hn, rfl | ha⟩ := hc b m hm
  · exact h.sound b m hn
  · exact ha.sound (h.sound b n hn)

theorem goOn (h : r.Safe) (hc : r.cluster.Moves c) (hsub : r.taken ⊆ taken)
    (hnew : ∀ e ∈ taken, e ∉ r.taken → Held c e) (hb : ∀ e ∈ taken, Bounds phase e) :
    (r.goOn c phase taken).Safe := by
  have hh : ∀ e ∈ taken, Held c e := by
    intro e he
    by_cases hr : e ∈ r.taken
    · exact (h.held e hr).moves hc
    · exact hnew e he hr
  refine ⟨h.sound_moves hc, hh, ?_, hb⟩
  intro v hv
  rcases List.mem_append.mp hv with hv | hv
  · obtain ⟨e, he, hev⟩ := h.readers v hv
    exact ⟨e, hsub he, hev⟩
  · exact le_of_watched hh hv

theorem keep (h : r.Safe) (hc : r.cluster.Moves c) (hb : ∀ e ∈ r.taken, Bounds phase e) :
    (r.goOn c phase r.taken).Safe :=
  h.goOn hc (List.Subset.refl _) (fun _ he hn => absurd he hn) hb

theorem start (h : r.Safe) (hn : r.cluster.node? a = some n)
    (hb : Bounds phase (a, n.localMinimum)) :
    Safe ⟨r.cluster, phase, [(a, n.localMinimum)],
      watched r.cluster [(a, n.localMinimum)]⟩ := by
  have hh : ∀ e ∈ [(a, n.localMinimum)], Held r.cluster e := by
    intro e he m hm
    obtain rfl := List.mem_singleton.mp he
    rw [hn] at hm
    cases hm
    exact (h.sound a n hn).localMinimum_le
  refine ⟨h.sound, hh, fun v hv => le_of_watched hh hv, ?_⟩
  intro e he
  rw [List.mem_singleton.mp he]
  exact hb

theorem idle (h : ∀ b n, c.node? b = some n → n.Sound) : Safe ⟨c, .idle, [], []⟩ :=
  ⟨h, fun _ he => absurd he List.not_mem_nil, fun _ hv => absurd hv List.not_mem_nil,
    fun _ he => absurd he List.not_mem_nil⟩

end Safe

theorem mem_of_answers {ms : Nat} {replies : List (Address × Reply)} {vs : List Version}
    {heard : List Notice} {v : Version}
    (h : Gather.answers Response.version? ms replies = (.ok vs, heard))
    (hv : (b, .answered (.version v)) ∈ replies) : v ∈ vs := by
  induction replies generalizing vs heard with
  | nil => cases hv
  | cons x rest ih =>
    obtain ⟨member, reply⟩ := x
    obtain ⟨⟨found, ns⟩, hr⟩ : ∃ f, Gather.answers Response.version? ms rest = f := ⟨_, rfl⟩
    cases reply with
    | timedOut => cases h
    | failed reason => cases h
    | departed =>
      rw [Gather.answers, hr] at h
      cases h
      exact ih hr ((List.mem_cons.mp hv).resolve_left fun e => by cases e)
    | answered response =>
      cases response with
      | view id => cases h
      | acknowledged => cases h
      | version w =>
        rw [Gather.answers, hr] at h
        cases found with
        | error e => cases h
        | ok ws =>
          cases h
          rcases List.mem_cons.mp hv with e | hv
          · cases e
            exact List.mem_cons_self ..
          · exact List.mem_cons_of_mem w (ih hr hv)

theorem mem_answer {reply : Reply} {e : Address × Version} (he : e ∈ answer b reply) :
    e.1 = b ∧ reply = .answered (.version e.2) := by
  cases reply with
  | answered response =>
    cases response with
    | version v =>
      obtain rfl := List.mem_singleton.mp he
      exact ⟨rfl, rfl⟩
    | view id => cases he
    | acknowledged => cases he
  | departed => cases he
  | timedOut => cases he
  | failed reason => cases he

theorem Step.moves (h : Step a r s) : r.cluster.Moves s.cluster := by
  have same : r.cluster.Moves r.cluster := .of_eq fun _ => rfl
  have edit {b n m} (hn : r.cluster.node? b = some n) (hm : n.Act m) :
      r.cluster.Moves (r.cluster.editNode b fun _ => m) := by
    refine .editNode fun k hk => ?_
    rw [hn] at hk
    cases hk
    exact hm
  cases h with
  | act b g hg => exact .editNode hg
  | drop b => exact .drop
  | ask own replies b hp hb => exact deliver_minimum.1.moves
  | prune floor n hp hn => exact edit hn (.prune n floor)
  | collect needed n hp hn => exact edit hn (.collect n needed)
  | collectL1 own n hp hn => exact edit hn (.collectL1 n own)
  | _ => exact same

theorem Step.safe (h : Step a r s) (hr : r.Safe) : s.Safe := by
  have hmoves := h.moves
  have hbounds {p} (hp : r.phase = p) {e} (he : e ∈ r.taken) : Bounds p e := hp ▸ hr.bounds e he
  cases h with
  | act b g hg => exact hr.keep hmoves hr.bounds
  | drop b => exact hr.keep hmoves hr.bounds
  | setFault b f => exact hr.keep hmoves hr.bounds
  | clearFault b => exact hr.keep hmoves hr.bounds
  | measure n hp hn => exact hr.start hn (.inl rfl)
  | ask own replies b hp hb =>
    refine hr.goOn hmoves (List.subset_append_left ..) ?_ ?_
    · intro e he hold n hn
      obtain ⟨rfl, hreply⟩ := mem_answer ((List.mem_append.mp he).resolve_left hold)
      rw [deliver_minimum.2 e.2 n hreply hn]
      exact (hr.sound_moves hmoves e.1 n hn).localMinimum_le
    · intro e he
      rcases List.mem_append.mp he with he | he
      · exact (hbounds hp he).imp_right (List.mem_append_left _)
      · obtain ⟨rfl, hreply⟩ := mem_answer he
        refine .inr (List.mem_append_right _ ?_)
        rw [hreply]
        exact List.mem_singleton_self _
  | agree own replies n ordered vs heard floor hp hn hall ho hv hf =>
    refine hr.keep hmoves fun e he => Position.meet?_le hf ?_
    rcases hbounds hp he with hb | hb
    · rw [hb]
      exact List.mem_cons_self ..
    · exact List.mem_cons_of_mem own (mem_of_answers hv (ho.mem_iff.mpr hb))
  | prune floor n hp hn =>
    exact hr.keep hmoves fun e he => CommitLog.prune_le.trans (hbounds hp he)
  | collect needed n hp hn => exact .idle (hr.sound_moves hmoves)
  | measureL1 n hp hn => exact hr.start hn le_rfl
  | collectL1 own n hp hn => exact .idle (hr.sound_moves hmoves)
  | abandon => exact .idle hr.sound

theorem Run.safe (h : Run a r s) (hr : r.Safe) : s.Safe := by
  induction h with
  | refl => exact hr
  | tail _ hst ih => exact hst.safe ih

theorem Run.held (h : Run a r s) {e : Address × Version} (he : Held r.cluster e) :
    Held s.cluster e := by
  induction h with
  | refl => exact he
  | tail _ hst ih => exact ih.moves hst.moves

/-- What a member whose minimum was taken has pinned since, or pins at any time to come. -/
def Reader (a : Address) (r : Round) (v : Version) : Prop :=
  v ∈ r.readers ∨ ∃ s, Run a r s ∧ v ∈ watched s.cluster r.taken

theorem Safe.le_reader {floor v : Version} (h : r.Safe) (hb : ∀ e ∈ r.taken, floor ≤ e.2)
    (hv : Reader a r v) : floor ≤ v := by
  obtain ⟨e, he, hev⟩ : ∃ e ∈ r.taken, e.2 ≤ v := by
    rcases hv with hv | ⟨s, hs, hv⟩
    · exact h.readers v hv
    · exact le_of_watched (fun e he => Run.held hs (h.held e he)) hv
  exact (hb e he).trans hev

/-- A reader of the collecting node, or of a member that was asked, loses nothing to a collection,
    and a reader of the collecting node loses nothing to a collection of its cache. -/
theorem collection_keeps_reads {c : Cluster} (hc : ∀ b n, c.node? b = some n → n.Fresh)
    (h : Run a { cluster := c } r) (hn : r.cluster.node? a = some n) :
    (∀ needed, r.phase = .pruned needed → ∀ v, Reader a r v → needed ≤ v ∧
      ∀ key, (n.collectData needed).1.data.read n.position key v = n.data.read n.position key v) ∧
    ∀ own, r.phase = .caching own → ∀ v, Reader a r v → own ≤ v ∧
      ∀ key, (n.collectL1 own).1.l1.read n.position key v = n.l1.read n.position key v := by
  have hsafe : r.Safe := h.safe (.idle fun b n hn => (hc b n hn).sound)
  have hs := hsafe.sound a n hn
  refine ⟨fun needed hp v hv => ?_, fun own hp v hv => ?_⟩
  · have hle : needed ≤ v := hsafe.le_reader (fun e he => by
      have hb := hsafe.bounds e he
      rwa [hp] at hb) hv
    exact ⟨hle, fun key => Store.read_collect hs.data (hle _)⟩
  · have hle : own ≤ v := hsafe.le_reader (fun e he => by
      have hb := hsafe.bounds e he
      rwa [hp] at hb) hv
    exact ⟨hle, fun key => Store.read_collect hs.l1 (hle _)⟩

section Pair

def left : Address := ⟨0⟩

def right : Address := ⟨1⟩

def pair : Cluster := ((({} : Cluster).join left {}).join right {}).install.1

theorem fresh_pair : ∀ b n, pair.node? b = some n → n.Fresh := by
  refine fresh_install fun e he => ?_
  change e ∈ [(left, Member.node (Node.create left {})),
    (right, .node (Node.create right {}))] at he
  simp only [List.mem_cons, List.not_mem_nil, or_false] at he
  rcases he with rfl | rfl
  · exact ⟨{}, rfl⟩
  · exact ⟨{}, rfl⟩

def valueAt (n : Nat) : Committed := ⟨⟨left, n⟩, ⟨1, 0, [n]⟩, [⟨"a", some [UInt8.ofNat n]⟩], 0, 0⟩

def populated : Cluster :=
  let c := ((pair.editNode left (·.restore (valueAt 1))).editNode left
    (·.restore (valueAt 2))).editNode left (·.restore (valueAt 3))
  (c.editNode right (·.learn ⟨1, 0, [2]⟩)).editNode right (·.begin.2)

theorem Run.act {c : Cluster} (b : Address) (g : Node → Node) (hg : ∀ n : Node, n.Act (g n)) :
    Run a { cluster := c } { cluster := c.editNode b g } :=
  .single (.act { cluster := c } b g fun n _ => hg n)

theorem run_populated : Run left { cluster := pair } { cluster := populated } := by
  have restore (c : Cluster) (k : Nat) :
      Run left { cluster := c } { cluster := c.editNode left (·.restore (valueAt k)) } :=
    .act left _ fun n => .restore n _
  refine (restore _ 1).trans ((restore _ 2).trans ((restore _ 3).trans ?_))
  exact (Run.act right (·.learn ⟨1, 0, [2]⟩) fun n => .learn n _).trans (Run.act right _ .begin)

def collector (c : Cluster) : Node := (c.node? left).getD (Node.create left {})

def measured : Round :=
  let own := (collector populated).localMinimum
  ⟨populated, .asking own [], [(left, own)], watched populated [(left, own)]⟩

def asked : Round :=
  let (c, reply, _) := populated.deliver right .minimumVersion
  measured.goOn c (.asking (collector populated).localMinimum [(right, reply)])
    (measured.taken ++ answer right reply)

def agreed : Round := asked.goOn asked.cluster (.agreed ⟨1, 0, [2]⟩) asked.taken

def trimmed : Round :=
  let (n, needed) := (collector agreed.cluster).pruneLog ⟨1, 0, [2]⟩
  agreed.goOn (agreed.cluster.editNode left fun _ => n) (.pruned needed) agreed.taken

theorem run_trimmed : Run left { cluster := pair } trimmed := by
  have hmeasure : Step left { cluster := populated } measured :=
    .measure _ (collector populated) rfl rfl
  have hask : Step left measured asked :=
    .ask measured (collector populated).localMinimum [] right rfl (by decide +kernel)
  have hagree : Step left asked agreed := by
    refine .agree asked (collector populated).localMinimum _ (collector asked.cluster) _
      [⟨1, 1, [2]⟩] [] ⟨1, 0, [2]⟩ rfl rfl ?_ (.refl _) ?_ ?_
    · decide +kernel
    · decide +kernel
    · decide +kernel
  exact (((run_populated.tail hmeasure).tail hask).tail hagree).tail
    (.prune agreed ⟨1, 0, [2]⟩ (collector agreed.cluster) rfl rfl)

theorem collection_keeps_reads_trimmed : ∃ n, trimmed.cluster.node? left = some n ∧
    (⟨1, 0, [2]⟩ : Version) ≤ ⟨1, 1, [2]⟩ ∧ (n.collectData ⟨1, 0, [2]⟩).2 = 1 ∧
    (n.collectData ⟨1, 0, [2]⟩).1.data.read n.position "a" ⟨1, 1, [2]⟩ = some [2] := by
  have hn : trimmed.cluster.node? left = some (collector trimmed.cluster) := rfl
  have hreader : (⟨1, 1, [2]⟩ : Version) ∈ trimmed.readers := by decide +kernel
  have hread : (collector trimmed.cluster).data.read (collector trimmed.cluster).position "a"
      ⟨1, 1, [2]⟩ = some [2] := by decide +kernel
  obtain ⟨hle, hkeep⟩ := (collection_keeps_reads fresh_pair run_trimmed hn).1 ⟨1, 0, [2]⟩ rfl
    ⟨1, 1, [2]⟩ (.inl hreader)
  exact ⟨_, hn, hle, by decide +kernel, (hkeep "a").trans hread⟩

end Pair

end Round

end Multiversion.Cluster
