import Mathlib
import Multiversion.Position
import Multiversion.Proofs.Queue.Calls

namespace Multiversion.Queue

inductive Call where
  | install (p : Position)
  | prepare (tx : Nat) (g : TransactionId) (v : Version) (clock : Nat) (now : Time)
  | commit (g : TransactionId) (v : Version) (now : Time)
  | rollback (g : TransactionId) (now : Time)
  | claim (n : Nat)
  | markCommitted (n : Nat) (now : Time)
  | detach (now : Time)

inductive Answer where
  | done
  | prepared (notices : List Notice)
  | settled (n : Option Nat) (notices : List Notice)
  | removed (n : Option Nat)
  | claimed (free : Bool)
  | detached (count : Nat)

namespace Call

def position (p : Position) : Call → Position
  | install p => p
  | _ => p

def run {σ : Type} (step : Position → σ → Call → σ × Answer) (p : Position) (s : σ) :
    List Call → σ × List Answer
  | [] => (s, [])
  | c :: cs =>
    let (s, a) := step p s c
    let (s, as) := run step (c.position p) s cs
    (s, a :: as)

theorem run_invariant {σ : Type} {step : Position → σ → Call → σ × Answer} {I : σ → Prop}
    (hstep : ∀ p s c, I s → I (step p s c).1) {p : Position} {s : σ} {cs : List Call} (h : I s) :
    I (run step p s cs).1 := by
  induction cs generalizing p s with
  | nil => exact h
  | cons c cs ih => exact ih (hstep p s c h)

theorem run_refines {σ τ : Type} {step : Position → σ → Call → σ × Answer}
    {step' : Position → τ → Call → τ × Answer} {I : σ → Prop} {φ : σ → τ}
    (hI : ∀ p s c, I s → I (step p s c).1)
    (hφ : ∀ p s c, I s → step' p (φ s) c = (φ (step p s c).1, (step p s c).2))
    {p : Position} {s : σ} {cs : List Call} (h : I s) :
    run step' p (φ s) cs = (φ (run step p s cs).1, (run step p s cs).2) := by
  induction cs generalizing p s with
  | nil => rfl
  | cons c cs ih =>
    simp only [run, hφ p s c h]
    rw [ih (hI p s c h)]

end Call

def call (p : Position) (q : Queue) : Call → Queue × Answer
  | .install _ => (q, .done)
  | .prepare tx g v clock now =>
    let (q, notices) := q.prepare tx g v (p.seq v) clock now
    (q, .prepared notices)
  | .commit g v now =>
    let (q, n, notices) := q.commit g v (p.seq v) now
    (q, .settled n notices)
  | .rollback g now =>
    let (q, n) := q.rollback g now
    (q, .removed n)
  | .claim n =>
    let (q, free) := q.claim n
    (q, .claimed free)
  | .markCommitted n now => (q.markCommitted n now, .done)
  | .detach now =>
    let (q, k) := q.detach now
    (q, .detached k)

variable {p : Position} {q : Queue} {c : Call} {cs : List Call} {g : TransactionId} {v : Version}
  {n tx order clock : Nat} {now : Time}

namespace Valid

variable (h : q.Valid)
include h

theorem prepare : (q.prepare tx g v order clock now).1.Valid :=
  h.prepare_cases (fun _ hr => hr.valid) fun _ _ _ _ _ hs => hs.valid.grantReady

theorem commit : (q.commit g v order now).1.Valid := by
  refine h.commit_cases h fun n r _ hr => hr.valid.grantReady.update ?_ ?_ ?_
  all_goals
    intro e
    exact Entry.holdBack_keeps _ fun _ => rfl

theorem rollback : (q.rollback g now).1.Valid :=
  h.rollback_cases h fun _ _ _ hr => hr.valid.grantReady

theorem claim : (q.claim n).1.Valid := h.update (fun _ => rfl) (fun _ => rfl) fun _ => rfl

theorem markCommitted : (q.markCommitted n now).Valid := by
  apply h.update
  all_goals
    intro e
    exact Entry.markCommitted_keeps _ fun _ _ _ => rfl

theorem detach_valid : (q.detach now).1.Valid := h.detach_cases fun _ hr => hr.valid.grantReady

theorem call : (q.call p c).1.Valid := by
  cases c with
  | install p => exact h
  | prepare tx g v clock now => exact h.prepare
  | commit g v now => exact h.commit
  | rollback g now => exact h.rollback
  | claim n => exact h.claim
  | markCommitted n now => exact h.markCommitted
  | detach now => exact h.detach_valid

theorem run : (Call.run Queue.call p q cs).1.Valid :=
  Call.run_invariant (fun _ _ _ hq => hq.call) h

end Valid

end Multiversion.Queue
