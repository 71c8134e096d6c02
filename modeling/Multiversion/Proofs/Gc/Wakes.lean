import Mathlib
import Multiversion.Gc.Worker

namespace Multiversion.Worker

inductive Occurrence where
  | triggered
  | raised
  | sent
  | begun (k : Wake)
  deriving DecidableEq

def Occurrence.isBegun : Occurrence → Bool
  | begun _ => true
  | _ => false

structure Traffic where
  worker : Worker
  stop : Bool := false
  /-- Shutdowns that have raised the flag and not sent their message yet. -/
  raising : Nat := 0
  past : List Occurrence := []

inductive Act where
  | trigger
  | raise
  | send
  | step
  | sleep (ms : Nat)
  | finish

def Traffic.act (t : Traffic) : Act → Traffic
  | .trigger => { t with worker := t.worker.trigger, past := t.past ++ [.triggered] }
  | .raise => { t with stop := true, raising := t.raising + 1, past := t.past ++ [.raised] }
  | .send =>
    match t.raising with
    | 0 => t
    | n + 1 => { t with worker := t.worker.sendShutdown, raising := n, past := t.past ++ [.sent] }
  | .step =>
    match t.worker.step? t.stop with
    | some w => { t with worker := w, past := t.past ++ w.cycle?.toList.map .begun }
    | none => t
  | .sleep ms => { t with worker := t.worker.sleep ms }
  | .finish => { t with worker := t.worker.finishCycle }

def Traffic.run (t : Traffic) (acts : List Act) : Traffic := acts.foldl act t

section Since

def Since (o : Occurrence) (P : List Occurrence → Prop) (past : List Occurrence) : Prop :=
  ∀ before after, past = before ++ o :: after → P after

variable {o e : Occurrence} {P Q : List Occurrence → Prop} {past : List Occurrence}

theorem Since.nil : Since o P [] := fun before after h => absurd h (by simp)

theorem Since.mono (h : Since o P past) (hpq : ∀ after, P after → Q after) : Since o Q past :=
  fun before after hp => hpq after (h before after hp)

theorem Since.append (h : Since o P past) (hkeep : ∀ after, P after → Q (after ++ [e]))
    (hnew : e = o → Q []) : Since o Q (past ++ [e]) := by
  intro before after hp
  rcases after.eq_nil_or_concat with rfl | ⟨after, f, rfl⟩
  · exact hnew (List.append_inj_right' hp rfl |> List.singleton_inj.mp)
  · rw [List.concat_eq_append, ← List.cons_append, ← List.append_assoc] at hp
    obtain ⟨hpast, hef⟩ := List.append_inj' hp rfl
    obtain rfl := List.singleton_inj.mp hef
    rw [List.concat_eq_append]
    exact hkeep after (h before after hpast)

theorem Since.of_notMem (h : o ∉ past) : Since o P past :=
  fun before after hp => absurd (hp ▸ by simp) h

end Since

variable {w u : Worker} {stop : Bool} {t : Traffic} {k : Wake} {ms : Nat}

theorem step?_cases (h : w.step? stop = some u) :
    (w.phase = .checking ∧
      u = { w with phase := if stop then .stopped else .receiving, slept := 0 }) ∨
    (w.phase = .receiving ∧ w.channel = some .trigger ∧
      u = { w with channel := none, phase := .woken .triggered }) ∨
    (w.phase = .receiving ∧ w.channel = some .shutdown ∧
      u = { w with channel := none, phase := .stopped }) ∨
    (∃ k, w.phase = .woken k ∧
      u = { w with phase := if stop then .stopped else .entering k }) ∨
    ∃ k, w.phase = .entering k ∧ u = { w with phase := .running k } := by
  unfold step? at h
  cases hp : w.phase <;> rw [hp] at h
  case checking => exact .inl ⟨rfl, (Option.some.inj h).symm⟩
  case receiving =>
    cases hc : w.channel with
    | none => simp [hc] at h
    | some m =>
      cases m <;> simp only [hc] at h
      case trigger => exact .inr (.inl ⟨rfl, rfl, (Option.some.inj h).symm⟩)
      case shutdown => exact .inr (.inr (.inl ⟨rfl, rfl, (Option.some.inj h).symm⟩))
  case woken k => exact .inr (.inr (.inr (.inl ⟨k, rfl, (Option.some.inj h).symm⟩)))
  case entering k => exact .inr (.inr (.inr (.inr ⟨k, rfl, (Option.some.inj h).symm⟩)))
  case running k => cases h
  case stopped => cases h

theorem isBlocked_iff : w.isBlocked = true ↔ w.phase = .receiving ∧ w.channel = none := by
  simp [isBlocked]

theorem channel_send_of_some {m n : WorkerMessage} (h : w.channel = some n) :
    (w.send m).channel = some n := by
  simp [send, h]

theorem channel_send_of_none {m : WorkerMessage} (h : w.channel = none) :
    (w.send m).channel = some m := by
  simp [send, h]

theorem channel_send_ne_none {m : WorkerMessage} : (w.send m).channel ≠ none := by
  cases hc : w.channel with
  | none => simp [channel_send_of_none hc]
  | some _ => simp [channel_send_of_some hc]

def ahead (w : Worker) : Nat :=
  match w.phase with
  | .entering _ => 1
  | _ => 0

namespace Traffic

def Due (t : Traffic) : Prop :=
  t.stop = true ∨ t.worker.channel = some .trigger ∨ t.worker.phase = .woken .triggered ∨
    t.worker.phase = .entering .triggered

theorem Due.of_phase (h : t.Due) (hw : t.worker.phase ≠ .woken .triggered)
    (he : t.worker.phase ≠ .entering .triggered) :
    t.stop = true ∨ t.worker.channel = some .trigger :=
  h.imp_right fun h => h.resolve_right fun h => h.elim hw he

structure Sound (t : Traffic) : Prop where
  addressed : t.worker.channel = some .shutdown → t.stop = true
  raising : 0 < t.raising → t.stop = true
  raised : .raised ∈ t.past → t.stop = true
  sent : .sent ∈ t.past → t.stop = true
  awake : .sent ∈ t.past → t.worker.phase = .receiving → t.worker.channel ≠ none
  answered : Since .triggered (fun after => .begun .triggered ∈ after ∨ t.Due) t.past
  last : Since .raised (fun after => after.countP (·.isBegun) + t.worker.ahead ≤ 1) t.past

theorem sound_start {name : String} {idleMs : Nat} :
    Sound { worker := { name, idleMs } } :=
  ⟨nofun, nofun, nofun, nofun, nofun, .nil, .nil⟩

namespace Sound

variable (h : t.Sound)
include h

theorem answered_append {s : Traffic} {e : Occurrence} (hkeep : t.Due → s.Due)
    (hnew : e = .triggered → s.Due) :
    Since .triggered (fun after => .begun .triggered ∈ after ∨ s.Due) (t.past ++ [e]) :=
  h.answered.append (fun _ ha => ha.imp (List.mem_append_left _) hkeep) fun he => .inr (hnew he)

theorem last_append {e : Occurrence} (he : e.isBegun = false) (ha : u.ahead = t.worker.ahead) :
    Since .raised (fun after => after.countP (·.isBegun) + u.ahead ≤ 1) (t.past ++ [e]) := by
  refine h.last.append (fun after hle => ?_) fun _ => ?_
  · rwa [List.countP_append, List.countP_singleton, he, ha]
  · rw [ahead]
    split <;> simp

theorem trigger : (t.act .trigger).Sound := by
  have hdue : t.Due → (t.act .trigger).Due := fun hd =>
    hd.imp_right fun hd => hd.imp_left channel_send_of_some
  refine ⟨fun hc => ?_, h.raising, fun hp => h.raised ?_, fun hp => h.sent ?_,
    fun _ _ => channel_send_ne_none, h.answered_append hdue fun _ => ?_, h.last_append rfl rfl⟩
  · cases hw : t.worker.channel with
    | none => cases (channel_send_of_none hw).symm.trans hc
    | some m => exact h.addressed (hw.trans ((channel_send_of_some hw).symm.trans hc))
  · simpa [act] using hp
  · simpa [act] using hp
  · cases hw : t.worker.channel with
    | none => exact .inr (.inl (channel_send_of_none hw))
    | some m =>
      cases m with
      | trigger => exact .inr (.inl (channel_send_of_some hw))
      | shutdown => exact .inl (h.addressed hw)

theorem raise : (t.act .raise).Sound :=
  ⟨fun _ => rfl, fun _ => rfl, fun _ => rfl, fun _ => rfl,
    fun hp => h.awake (by simpa [act] using hp),
    h.answered_append (fun _ => .inl rfl) nofun, h.last_append rfl rfl⟩

theorem send : (t.act .send).Sound := by
  cases hr : t.raising with
  | zero => rwa [act, hr]
  | succ n =>
    have hstop : t.stop = true := h.raising (by omega)
    simp only [act, hr]
    exact ⟨fun _ => hstop, fun _ => hstop, fun _ => hstop, fun _ => hstop,
      fun _ _ => channel_send_ne_none, h.answered_append (fun _ => .inl hstop) nofun,
      h.last_append rfl rfl⟩

theorem moved (hc : u.channel = t.worker.channel ∨ u.channel = none)
    (hr : u.phase = .receiving →
      t.stop = false ∨ t.worker.phase = .receiving ∧ u.channel = t.worker.channel)
    (hd : t.Due → Due { t with worker := u }) (ha : t.stop = true → u.ahead ≤ t.worker.ahead) :
    Sound { t with worker := u } := by
  refine ⟨fun hs => ?_, h.raising, h.raised, h.sent, fun hp hu => ?_,
    h.answered.mono fun _ => Or.imp_right hd, ?_⟩
  · rcases hc with hc | hc
    · exact h.addressed (hc.symm.trans hs)
    · cases hc.symm.trans hs
  · rcases hr hu with hstop | ⟨hw, hc⟩
    · cases hstop.symm.trans (h.sent hp)
    · rw [hc]
      exact h.awake hp hw
  · by_cases hp : .raised ∈ t.past
    · have hle := ha (h.raised hp)
      exact h.last.mono fun _ hl => (Nat.add_le_add_left hle _).trans hl
    · exact .of_notMem hp

theorem begins (hp : t.worker.phase = .entering k) :
    Sound { t with
      worker := { t.worker with phase := .running k }, past := t.past ++ [.begun k] } := by
  refine ⟨h.addressed, h.raising, fun hm => h.raised (by simpa using hm),
    fun hm => h.sent (by simpa using hm), nofun, h.answered.append (fun after ha => ?_) nofun,
    h.last.append (fun after ha => ?_) nofun⟩
  · rcases ha with ha | hstop | hc | hw | he
    · exact .inl (List.mem_append_left _ ha)
    · exact .inr (.inl hstop)
    · exact .inr (.inr (.inl hc))
    · cases hp.symm.trans hw
    · cases hp.symm.trans he
      exact .inl (List.mem_append_right _ (List.mem_singleton_self _))
  · rw [ahead, hp] at ha
    rw [List.countP_append]
    exact ha

theorem step : (t.act .step).Sound := by
  cases hu : t.worker.step? t.stop with
  | none => rwa [act, hu]
  | some u =>
    have hact (hn : u.cycle? = none) : t.act .step = { t with worker := u } := by
      rw [act, hu]
      simp [hn]
    rcases step?_cases hu with
      ⟨hp, rfl⟩ | ⟨hp, hc, rfl⟩ | ⟨hp, hc, rfl⟩ | ⟨k, hp, rfl⟩ | ⟨k, hp, rfl⟩
    · -- the round opens
      rw [hact (by cases t.stop <;> rfl)]
      refine h.moved (.inl rfl) (fun hr => .inl ?_) (fun hd => ?_) fun hs => by simp [hs, ahead]
      · cases hs : t.stop <;> simp [hs] at hr ⊢
      · exact (hd.of_phase (by simp [hp]) (by simp [hp])).imp_right .inl
    · -- a trigger is received
      rw [hact rfl]
      exact h.moved (.inr rfl) nofun (fun _ => .inr (.inr (.inl rfl))) fun _ => Nat.zero_le _
    · -- a shutdown is received, and its flag is up
      rw [hact rfl]
      exact h.moved (.inr rfl) nofun (fun _ => .inl (h.addressed hc)) fun _ => Nat.zero_le _
    · -- the second look at the flag
      rw [hact (by cases t.stop <;> rfl)]
      refine h.moved (.inl rfl) (fun hr => ?_) (fun hd => ?_) fun hs => by simp [hs, ahead]
      · cases hs : t.stop <;> simp [hs] at hr
      · by_cases hs : t.stop = true
        · exact .inl hs
        · rcases hd with hd | hd | hd | hd
          · exact .inl hd
          · exact .inr (.inl hd)
          · cases hp.symm.trans hd
            exact .inr (.inr (.inr (if_neg hs)))
          · cases hp.symm.trans hd
    · rw [act, hu]
      exact h.begins hp

theorem sleep : (t.act (.sleep ms)).Sound := by
  by_cases hb : t.worker.isBlocked = true
  · have hp := (isBlocked_iff.mp hb).1
    rw [act, Worker.sleep, if_pos hb]
    dsimp only
    split
    · refine h.moved (.inl rfl) nofun (fun hd => ?_) fun _ => Nat.zero_le _
      exact (hd.of_phase (by simp [hp]) (by simp [hp])).imp_right .inl
    · exact h.moved (.inl rfl) (fun _ => .inr ⟨hp, rfl⟩) id fun _ => le_rfl
  · rwa [act, Worker.sleep, if_neg hb]

theorem finish : (t.act .finish).Sound := by
  rw [act, finishCycle]
  split
  next hp =>
    refine h.moved (.inl rfl) nofun (fun hd => ?_) fun _ => Nat.zero_le _
    exact (hd.of_phase (by simp [hp]) (by simp [hp])).imp_right .inl
  next => exact h

theorem act (a : Act) : (t.act a).Sound := by
  cases a with
  | trigger => exact h.trigger
  | raise => exact h.raise
  | send => exact h.send
  | step => exact h.step
  | sleep ms => exact h.sleep
  | finish => exact h.finish

theorem run (acts : List Act) : (t.run acts).Sound := by
  induction acts generalizing t with
  | nil => exact h
  | cons a acts ih => exact ih (h.act a)

end Sound

end Traffic

/-- The loop asleep has answered every trigger and missed no shutdown, and at most one more cycle
    begins after the flag is raised. -/
theorem no_wake_lost (name : String) (idleMs : Nat) (acts : List Act) :
    let t := Traffic.run { worker := { name, idleMs } } acts
    (t.worker.isBlocked = true → t.stop = false → ∀ before after,
      t.past = before ++ Occurrence.triggered :: after → .begun .triggered ∈ after) ∧
    (.sent ∈ t.past → t.worker.isBlocked = false) ∧
    ∀ before after, t.past = before ++ Occurrence.raised :: after →
      after.countP (·.isBegun) ≤ 1 := by
  intro t
  have h : t.Sound := Traffic.sound_start.run acts
  refine ⟨fun hb hs before after hp => ?_, fun hp => ?_, fun before after hp => ?_⟩
  · obtain ⟨hphase, hchannel⟩ := isBlocked_iff.mp hb
    refine (h.answered before after hp).resolve_right fun hd => ?_
    rcases hd.of_phase (by simp [hphase]) (by simp [hphase]) with hd | hd
    · cases hs.symm.trans hd
    · cases hchannel.symm.trans hd
  · rw [← Bool.not_eq_true, isBlocked_iff]
    exact fun ⟨hphase, hchannel⟩ => h.awake hp hphase hchannel
  · exact (Nat.le_add_right _ _).trans (h.last before after hp)

def coalescing : List Act :=
  [.step, .trigger, .trigger, .step, .step, .step, .trigger, .finish, .step, .step, .step, .step,
    .finish, .step]

def overtaken : List Act :=
  coalescing ++ [Act.sleep 5, .step, .raise, .step, .send, .finish, .step]

theorem no_wake_lost_overtaken :
    let blocked := Traffic.run { worker := { name := "version-gc", idleMs := 5 } } coalescing
    let stopped := Traffic.run { worker := { name := "version-gc", idleMs := 5 } } overtaken
    (blocked.worker.isBlocked = true ∧ blocked.stop = false ∧
      blocked.past =
        [Occurrence.triggered, .triggered, .begun .triggered] ++ .triggered :: [.begun .triggered] ∧
      .begun .triggered ∈ [Occurrence.begun .triggered]) ∧
    (.sent ∈ stopped.past ∧ stopped.worker.isBlocked = false) ∧
    stopped.past = blocked.past ++ Occurrence.raised :: [.begun .idle, .sent] ∧
      [Occurrence.begun .idle, .sent].countP (·.isBegun) ≤ 1 := by
  intro blocked stopped
  obtain ⟨hanswered, -, -⟩ := no_wake_lost "version-gc" 5 coalescing
  obtain ⟨-, hawake, hlast⟩ := no_wake_lost "version-gc" 5 overtaken
  have hb : blocked.worker.isBlocked = true := by decide +kernel
  have hs : blocked.stop = false := by decide +kernel
  have hp : blocked.past =
      [Occurrence.triggered, .triggered, .begun .triggered] ++
        .triggered :: [.begun .triggered] := by
    decide +kernel
  have hsent : .sent ∈ stopped.past := by decide +kernel
  have hraised : stopped.past = blocked.past ++ Occurrence.raised :: [.begun .idle, .sent] := by
    decide +kernel
  exact ⟨⟨hb, hs, hp, hanswered hb hs _ _ hp⟩, ⟨hsent, hawake hsent⟩, hraised,
    hlast _ _ hraised⟩

end Multiversion.Worker
