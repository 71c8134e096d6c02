import Multiversion.Address

namespace Multiversion

structure TransactionId where
  origin : Address
  sequence : Nat
  deriving DecidableEq, Repr, Inhabited

namespace TransactionId

def text (g : TransactionId) : String := s!"gtx:{g.origin.short}:{g.sequence}"

instance : Ord TransactionId :=
  ⟨fun a b => (compare a.origin b.origin).then (compare a.sequence b.sequence)⟩

end TransactionId

structure IdSource where
  origin : Address
  next : Nat := 1
  deriving DecidableEq, Repr, Inhabited

namespace IdSource

def draw (s : IdSource) : TransactionId × IdSource :=
  (⟨s.origin, s.next⟩, { s with next := s.next + 1 })

def drawMany (s : IdSource) : Nat → List TransactionId × IdSource
  | 0 => ([], s)
  | n + 1 =>
    let (g, s) := s.draw
    let (gs, s) := s.drawMany n
    (g :: gs, s)

end IdSource

end Multiversion
