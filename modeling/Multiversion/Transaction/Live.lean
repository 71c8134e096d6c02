import Multiversion.Position
import Multiversion.Transaction.Id

/-!
No collection may take away a value that a pinned snapshot still reads.
-/

namespace Multiversion

structure Live where
  pinned : List (TransactionId × Version) := []
  deriving DecidableEq, Repr, Inhabited

namespace Live

def holds (l : Live) (g : TransactionId) : Bool := l.pinned.any (·.1 = g)

def unregister (l : Live) (g : TransactionId) : Live := ⟨l.pinned.filter (·.1 ≠ g)⟩

def register (l : Live) (g : TransactionId) (v : Version) : Live :=
  ⟨(l.unregister g).pinned ++ [(g, v)]⟩

def size (l : Live) : Nat := l.pinned.length

def minimum (l : Live) (p : Position) (idle : Version) : Version :=
  (p.meet? (l.pinned.map (·.2))).getD idle

end Live

end Multiversion
