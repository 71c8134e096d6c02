import Mathlib
import Multiversion.Gc.Gather

namespace Multiversion

namespace Gather

variable {α : Type} {accept : Response → Option α} {ms : Nat} {replies : List (Address × Reply)}
  {reply : Reply} {member : Address} {reason : String}

def answer? (accept : Response → Option α) : Reply → Option α
  | .answered r => accept r
  | _ => none

def offends (accept : Response → Option α) : Reply → Bool
  | .departed => false
  | reply => (answer? accept reply).isNone

theorem answers_eq : (answers accept ms replies).1 =
    match replies.find? fun e => offends accept e.2 with
    | some (member, reply) => .error (failure ms member reply)
    | none => .ok (replies.filterMap fun e => answer? accept e.2) := by
  induction replies with
  | nil => rfl
  | cons e rest ih =>
    obtain ⟨member, reply⟩ := e
    cases reply with
    | departed => exact ih
    | timedOut => rfl
    | failed reason => rfl
    | answered r =>
      cases hr : accept r with
      | none =>
        have ho : offends accept (.answered r) = true := by simp [offends, answer?, hr]
        simp only [answers, hr, List.find?_cons, ho]
      | some a =>
        have ho : offends accept (.answered r) = false := by simp [offends, answer?, hr]
        simp only [answers, hr, ih, List.find?_cons, ho, List.filterMap_cons, answer?]
        cases rest.find? fun e => offends accept e.2 <;> rfl

def Passes (accept : Response → Option α) (reply : Reply) : Prop :=
  reply = .departed ∨ ∃ r a, reply = .answered r ∧ accept r = some a

def found (accept : Response → Option α) (replies : List (Address × Reply)) : List α :=
  replies.filterMap fun e => answer? accept e.2

theorem offends_eq_false : offends accept reply = false ↔ Passes accept reply := by
  cases reply with
  | answered r => simp [offends, answer?, Passes, Option.isSome_iff_exists]
  | _ => simp [offends, answer?, Passes]

def Fails (accept : Response → Option α) (ms : Nat) (replies : List (Address × Reply))
    (e : GcError) : Prop :=
  ∃ before member reply behind, replies = before ++ (member, reply) :: behind ∧
    (∀ e ∈ before, Passes accept e.2) ∧ ¬ Passes accept reply ∧ e = failure ms member reply

theorem answers_ok {as : List α} (h : (answers accept ms replies).1 = .ok as) :
    (∀ e ∈ replies, Passes accept e.2) ∧ as = found accept replies := by
  rw [answers_eq] at h
  cases ho : replies.find? fun e => offends accept e.2 with
  | some e =>
    rw [ho] at h
    cases h
  | none =>
    rw [ho] at h
    cases h
    refine ⟨fun e he => offends_eq_false.mp ?_, rfl⟩
    simpa using List.find?_eq_none.mp ho e he

theorem answers_error {e : GcError} (h : (answers accept ms replies).1 = .error e) :
    Fails accept ms replies e := by
  rw [answers_eq] at h
  cases ho : replies.find? fun e => offends accept e.2 with
  | none =>
    rw [ho] at h
    cases h
  | some f =>
    rw [ho] at h
    cases h
    obtain ⟨hf, before, behind, hr, hb⟩ := List.find?_eq_some_iff_append.mp ho
    refine ⟨before, f.1, f.2, behind, hr, fun e he => offends_eq_false.mp ?_, fun hp => ?_, rfl⟩
    · simpa using hb e he
    · rw [offends_eq_false.mpr hp] at hf
      cases hf

theorem answers_of_passes (h : ∀ e ∈ replies, Passes accept e.2) :
    (answers accept ms replies).1 = .ok (found accept replies) := by
  have hnone : (replies.find? fun e => offends accept e.2) = none :=
    List.find?_eq_none.mpr fun e he => by simp [offends_eq_false.mpr (h e he)]
  rw [answers_eq, hnone]
  rfl

theorem failure_ne_noVersion : failure ms member reply ≠ .noVersion reason := by
  cases reply <;> simp [failure]

def Fits (reply : Reply) : Prop := reply = .departed ∨ ∃ v, reply = .answered (.version v)

def reported (replies : List (Address × Reply)) : List Version :=
  replies.filterMap fun e => answer? Response.version? e.2

theorem offends_version : offends Response.version? reply = false ↔ Fits reply := by
  cases reply with
  | answered r => cases r <;> simp [offends, answer?, Response.version?, Fits]
  | _ => simp [offends, answer?, Fits]

theorem find?_offends_eq_none :
    (replies.find? fun e => offends Response.version? e.2) = none ↔ ∀ e ∈ replies, Fits e.2 := by
  simp only [List.find?_eq_none, Bool.not_eq_true, offends_version]

theorem find?_offends_eq_some
    (h : (replies.find? fun e => offends Response.version? e.2) = some (member, reply)) :
    ∃ before behind, replies = before ++ (member, reply) :: behind ∧
      (∀ e ∈ before, Fits e.2) ∧ ¬ Fits reply := by
  obtain ⟨ho, before, behind, hr, hb⟩ := List.find?_eq_some_iff_append.mp h
  refine ⟨before, behind, hr, fun e he => offends_version.mp ?_, fun hf => ?_⟩
  · simpa using hb e he
  · rw [offends_version.mpr hf] at ho
    cases ho

end Gather

end Multiversion
