/-!
Lists ordered by sequence and, inside a batch of one sequence, by sub-version. The history of the
commit log and the values of each key are kept this way.
-/

namespace Multiversion

structure Rank where
  seq : Nat
  sub : Nat
  deriving DecidableEq, Repr

instance : LE Rank := ⟨fun a b => a.seq < b.seq ∨ a.seq = b.seq ∧ a.sub ≤ b.sub⟩

instance (a b : Rank) : Decidable (a ≤ b) :=
  inferInstanceAs (Decidable (a.seq < b.seq ∨ a.seq = b.seq ∧ a.sub ≤ b.sub))

namespace Timeline

variable {α : Type}

/-- Behind everything that ranks no higher, so that equal ranks keep the order of arrival. -/
def insert (rank : α → Rank) (x : α) (xs : List α) : List α :=
  xs.takeWhile (fun y => rank y ≤ rank x) ++ x :: xs.dropWhile (fun y => rank y ≤ rank x)

def upTo (seq : α → Nat) (bound : Nat) (xs : List α) : List α :=
  xs.takeWhile fun x => seq x ≤ bound

/-- Of the part up to `bound` only its newest member stays: it alone can still be read there. -/
def prune (seq : α → Nat) (bound : Nat) (xs : List α) : List α :=
  xs.drop ((upTo seq bound xs).length - 1)

end Timeline

end Multiversion
