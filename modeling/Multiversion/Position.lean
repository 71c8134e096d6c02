import Multiversion.Version

namespace Multiversion

structure Position where
  index : Nat
  view : Nat
  members : Nat
  index_lt : index < members
  deriving DecidableEq, Repr

namespace Position

/-- A view counts at least as many members as the position needs. -/
def of (index view members : Nat) : Position :=
  ⟨index, view, max members (index + 1), by omega⟩

instance : Inhabited Position := ⟨of 0 0 1⟩

/-- The component at the node's own position; every order in the node goes by it. -/
def seq (p : Position) (v : Version) : Nat := v.component p.index

def zero (p : Position) : Version := Version.zero p.view p.index p.members

theorem seq_zero (p : Position) : p.seq p.zero = 0 := Version.component_zero ..

def stamp (p : Position) (base : Version) (n : Nat) : Version :=
  (base.rehomed p.index).withComponent p.index n

@[simp] theorem seq_stamp (p : Position) (base : Version) (n : Nat) :
    p.seq (p.stamp base n) = n := by
  simp [seq, stamp, Version.component_withComponent]

def mergeWith (p : Position) (pick : Nat → Nat → Nat) (first : Version) (rest : List Version) :
    Version where
  view := rest.foldl (fun n v => pick n v.view) first.view
  node := p.index
  clock :=
    (List.range (rest.foldl (fun n v => max n v.clock.length) first.clock.length)).map fun i =>
      rest.foldl (fun n v => pick n (v.component i)) (first.component i)

def meet (p : Position) (first : Version) (rest : List Version) : Version :=
  p.mergeWith min first rest

def join (p : Position) (first : Version) (rest : List Version) : Version :=
  p.mergeWith max first rest

def meet? (p : Position) : List Version → Option Version
  | [] => none
  | v :: vs => some (p.meet v vs)

def join? (p : Position) : List Version → Option Version
  | [] => none
  | v :: vs => some (p.join v vs)

end Position

end Multiversion
