import Multiversion.Address

namespace Multiversion

inductive Question where
  | node
  /-- The member whose state the final versions of the batch take in. -/
  | peer
  | writes
  | key
  | value
  /-- Which of the undelivered decisions of the batch comes next. -/
  | pick
  | rollback
  | bump
  /-- The member that caches what is applied after the decision. -/
  | keeper
  deriving DecidableEq, Repr

def Question.number : Question → Nat
  | node => 0
  | peer => 1
  | writes => 2
  | key => 3
  | value => 4
  | pick => 5
  | rollback => 6
  | bump => 7
  | keeper => 8

abbrev Dice := Nat → Nat → Question → Nat

namespace Dice

def scramble (n : UInt64) : UInt64 :=
  let n := n + 0x9e3779b97f4a7c15
  let n := (n ^^^ (n >>> 30)) * 0xbf58476d1ce4e5b9
  let n := (n ^^^ (n >>> 27)) * 0x94d049bb133111eb
  n ^^^ (n >>> 31)

def word (seed : Nat) (path : List Nat) : Nat :=
  (path.foldl (fun w n => scramble (w + UInt64.ofNat n)) (scramble (UInt64.ofNat seed))).toNat

def ofSeed (seed : Nat) : Dice := fun thread tx q => word (seed + thread) [tx, q.number]

def address (seed i : Nat) : Address :=
  Address.ofRandom (word seed [i, 0] * UInt64.size + word seed [i, 1])

end Dice

end Multiversion
