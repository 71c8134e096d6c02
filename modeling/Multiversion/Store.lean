import Multiversion.Position
import Multiversion.Timeline
import Multiversion.Transaction

/-!
The values of each key, oldest first. A value of `none` marks the removal of the key.
-/

namespace Multiversion

structure Stored where
  version : Version
  sub : Nat
  value : Option Bytes
  deriving DecidableEq, Repr, Inhabited

namespace Stored

def seq (p : Position) (s : Stored) : Nat := p.seq s.version

def rank (p : Position) (s : Stored) : Rank := ⟨s.seq p, s.sub⟩

end Stored

structure Store where
  keys : List (String × List Stored) := []
  deriving DecidableEq, Repr, Inhabited

namespace Store

def versions (s : Store) (key : String) : List Stored := (s.keys.lookup key).getD []

def set (key : String) (vs : List Stored) : List (String × List Stored) → List (String × List Stored)
  | [] => [(key, vs)]
  | (k, old) :: rest => if k = key then (k, vs) :: rest else (k, old) :: set key vs rest

def put (s : Store) (p : Position) (key : String) (value : Stored) : Store :=
  ⟨set key (Timeline.insert (Stored.rank p) value (s.versions key)) s.keys⟩

def apply (s : Store) (p : Position) (tx : Committed) : Store :=
  tx.writes.foldl (fun s w => s.put p w.key ⟨tx.version, tx.sub, w.value⟩) s

def read (s : Store) (p : Position) (key : String) (snapshot : Version) : Option Bytes :=
  ((s.versions key).reverse.find? fun v => v.seq p ≤ p.seq snapshot).bind (·.value)

def keyCount (s : Store) : Nat := s.keys.length

def valueCount (s : Store) : Nat := s.keys.foldl (fun k e => k + e.2.length) 0

/-- A removal that nothing older or newer surrounds reads like an absent key. -/
def isSpent (p : Position) (bound : Nat) : List Stored → Bool
  | [only] => only.value.isNone && only.seq p ≤ bound
  | _ => false

def collectKey (p : Position) (bound : Nat) (vs : List Stored) : Option (List Stored) × Nat :=
  let kept := Timeline.prune (Stored.seq p) bound vs
  let removed := (Timeline.upTo (Stored.seq p) bound vs).length - 1
  if isSpent p bound kept then (none, removed + 1) else (some kept, removed)

def collectKeys (p : Position) (bound : Nat) :
    List (String × List Stored) → List (String × List Stored) × Nat
  | [] => ([], 0)
  | (k, vs) :: rest =>
    let (rest, n) := collectKeys p bound rest
    match collectKey p bound vs with
    | (some kept, m) => ((k, kept) :: rest, m + n)
    | (none, m) => (rest, m + n)

def collect (s : Store) (p : Position) (minimum : Version) : Store × Nat :=
  let (keys, n) := collectKeys p (p.seq minimum) s.keys
  (⟨keys⟩, n)

end Store

end Multiversion
