import Multiversion.Queue.Entry

/-!
Which entries of the queue are ready to commit. Entries of one order value form a batch, and a
batch becomes ready as a whole, once each of its members has received its commit command and no
batch before it is undecided.
-/

namespace Multiversion.Readiness

structure Run where
  order : Nat
  /-- Below `2 ^ 32`, so that every sub-version fits into 32 bits. -/
  length : Nat
  deriving DecidableEq, Repr

def Run.extend : Option Run → Nat → Run
  | some r, order => if r.order = order then ⟨order, r.length + 1⟩ else ⟨order, 1⟩
  | none, order => ⟨order, 1⟩

/-- The first sub-version for a batch behind the run: a late member of a batch that is ready
    already continues its numbers. -/
def Run.offset : Option Run → Nat → Nat
  | some r, order => if r.order = order then r.length else 0
  | none, _ => 0

def passReady : Option Run → List Entry → Option Run × List Entry
  | run, [] => (run, [])
  | run, e :: es => if e.ready then passReady (some (Run.extend run e.order)) es else (run, e :: es)

structure Grant where
  admission : Nat
  sub : Nat
  deriving DecidableEq, Repr

def number (offset : Nat) (batch : List Entry) : List Grant :=
  (batch.zipIdx offset).map fun (e, n) => ⟨e.admission, n⟩

def grantBatches (run : Option Run) : List Entry → List Grant
  | [] => []
  | e :: es =>
    let batch := e :: es.takeWhile (·.order = e.order)
    if batch.all (·.received) then
      number (Run.offset run e.order) batch ++ grantBatches none (es.dropWhile (·.order = e.order))
    else []
termination_by es => es.length
decreasing_by
  have := (List.dropWhile_sublist (fun x : Entry => decide (x.order = e.order)) (l := es)).length_le
  simp only [List.length_cons]
  omega

def grants (es : List Entry) : List Grant :=
  let (run, rest) := passReady none es
  grantBatches run rest

end Multiversion.Readiness
