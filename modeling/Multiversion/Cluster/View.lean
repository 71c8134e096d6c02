import Multiversion.Address

namespace Multiversion

structure View where
  id : Nat
  members : List Address
  deriving DecidableEq, Repr, Inhabited

namespace View

def coordinator (v : View) : Option Address := v.members.head?

def indexOf (v : View) (a : Address) : Option Nat := v.members.findIdx? (· = a)

def contains (v : View) (a : Address) : Bool := v.members.contains a

end View

structure ViewRegistry where
  views : List View := []
  newest : Option Nat := none
  deriving DecidableEq, Repr, Inhabited

namespace ViewRegistry

def insert (v : View) : List View → List View
  | [] => [v]
  | w :: rest =>
    if v.id < w.id then v :: w :: rest
    else if v.id = w.id then v :: rest
    else w :: insert v rest

def install (r : ViewRegistry) (v : View) : ViewRegistry where
  views := insert v r.views
  newest :=
    match r.newest with
    | some n => some (max n v.id)
    | none => some v.id

def view? (r : ViewRegistry) (id : Nat) : Option View := r.views.find? (·.id = id)

def current? (r : ViewRegistry) : Option View := r.newest >>= r.view?

def oldest? (r : ViewRegistry) : Option Nat := r.views.head?.map (·.id)

def purge (r : ViewRegistry) (least : Nat) : ViewRegistry × Nat :=
  let kept := r.views.filter fun v => least ≤ v.id || some v.id = r.newest
  ({ r with views := kept }, r.views.length - kept.length)

end ViewRegistry

end Multiversion
