/-!
A doubly linked line of slots that are used again. Slot 0 is the head and slot 1 the tail; the
entries between them are named by their admission numbers and sorted by order value and admission.
-/

namespace Multiversion

inductive Content where
  | head
  | tail
  | entry (admission : Nat)
  | vacant
  deriving DecidableEq, Repr

structure Slot where
  content : Content
  prev : Nat
  next : Nat
  deriving DecidableEq, Repr

instance : Inhabited Slot := ⟨⟨.vacant, 0, 0⟩⟩

inductive Key where
  | lowest
  | entry (order admission : Nat)
  | highest
  deriving DecidableEq, Repr

namespace Key

def lt : Key → Key → Bool
  | lowest, lowest => false
  | lowest, _ => true
  | entry .., lowest => false
  | entry a m, entry b n => a < b || a = b && m < n
  | entry .., highest => true
  | highest, _ => false

instance : LT Key := ⟨fun a b => lt a b = true⟩

instance (a b : Key) : Decidable (a < b) := inferInstanceAs (Decidable (lt a b = true))

end Key

structure Arena where
  slots : Array Slot := #[⟨.head, 0, 1⟩, ⟨.tail, 0, 1⟩]
  free : List Nat := []
  length : Nat := 0
  deriving DecidableEq, Repr, Inhabited

namespace Arena

def head : Nat := 0

def tail : Nat := 1

def slot (a : Arena) (i : Nat) : Slot := a.slots.getD i default

def content (a : Arena) (i : Nat) : Content := (a.slot i).content

def next (a : Arena) (i : Nat) : Nat := (a.slot i).next

def prev (a : Arena) (i : Nat) : Nat := (a.slot i).prev

def setNext (a : Arena) (i j : Nat) : Arena :=
  { a with slots := a.slots.modify i ({ · with next := j }) }

def setPrev (a : Arena) (i j : Nat) : Arena :=
  { a with slots := a.slots.modify i ({ · with prev := j }) }

def alloc (a : Arena) (admission : Nat) : Nat × Arena :=
  match a.free with
  | i :: free => (i, { a with slots := a.slots.setIfInBounds i ⟨.entry admission, head, head⟩, free })
  | [] => (a.slots.size, { a with slots := a.slots.push ⟨.entry admission, head, head⟩ })

def release (a : Arena) (i : Nat) : Arena :=
  { a with slots := a.slots.modify i ({ · with content := .vacant }), free := i :: a.free }

def linkBefore (a : Arena) (i j : Nat) : Arena :=
  let p := a.prev j
  let a := (((a.setPrev i p).setNext i j).setNext p i).setPrev j i
  { a with length := a.length + 1 }

def unlink (a : Arena) (i : Nat) : Arena :=
  let p := a.prev i
  let n := a.next i
  let a := (((a.setNext p n).setPrev n p).setPrev i i).setNext i i
  { a with length := a.length - 1 }

def key (a : Arena) (order : Nat → Nat) (i : Nat) : Key :=
  match a.content i with
  | .head => .lowest
  | .tail => .highest
  | .entry n => .entry (order n) n
  | .vacant => .highest

def seekBack (a : Arena) (order : Nat → Nat) (k : Key) : Nat → Nat → Nat
  | 0, i => i
  | fuel + 1, i => if k < a.key order i then seekBack a order k fuel (a.prev i) else i

def seekOn (a : Arena) (order : Nat → Nat) (k : Key) : Nat → Nat → Nat
  | 0, i => i
  | fuel + 1, i => if a.key order i < k then seekOn a order k fuel (a.next i) else i

/-- A walk along the links meets no slot twice. -/
def span (a : Arena) : Nat := a.slots.size

def linkBack (a : Arena) (order : Nat → Nat) (i start : Nat) : Arena :=
  a.linkBefore i (a.next (a.seekBack order (a.key order i) a.span start))

def linkOn (a : Arena) (order : Nat → Nat) (i start : Nat) : Arena :=
  a.linkBefore i (a.seekOn order (a.key order i) a.span start)

/-- New entries mostly belong near the tail, so their place is looked for from there. -/
def insertSorted (a : Arena) (order : Nat → Nat) (i : Nat) : Arena :=
  a.linkBack order i (a.prev tail)

def reposition (a : Arena) (order : Nat → Nat) (i : Nat) : Arena × Bool :=
  let k := a.key order i
  if a.key order (a.next i) < k then ((a.unlink i).linkOn order i (a.next i), true)
  else if k < a.key order (a.prev i) then ((a.unlink i).linkBack order i (a.prev i), true)
  else (a, false)

def walk (a : Arena) : Nat → Nat → List Nat
  | 0, _ => []
  | fuel + 1, i =>
    match a.content i with
    | .entry n => n :: a.walk fuel (a.next i)
    | _ => []

def toList (a : Arena) : List Nat := a.walk a.span (a.next head)

end Arena

end Multiversion
