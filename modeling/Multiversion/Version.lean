/-!
A position that the clock does not reach reads as zero, so clocks of different lengths compare
componentwise.
-/

namespace Multiversion

structure Version where
  view : Nat
  node : Nat
  clock : List Nat
  deriving DecidableEq, Repr, Inhabited

namespace Version

def component (v : Version) (i : Nat) : Nat := v.clock.getD i 0

def own (v : Version) : Nat := v.component v.node

def zero (view node members : Nat) : Version :=
  ⟨view, node, List.replicate (max members (node + 1)) 0⟩

theorem component_zero (view node members i : Nat) : (zero view node members).component i = 0 := by
  simp only [component, zero, List.getD_eq_getElem?_getD, List.getElem?_replicate]
  split <;> rfl

def withComponent (v : Version) (i value : Nat) : Version :=
  { v with clock := (v.clock.rightpad (i + 1) 0).set i value }

theorem component_withComponent (v : Version) (i value j : Nat) :
    (v.withComponent i value).component j = if j = i then value else v.component j := by
  simp only [component, withComponent, List.rightpad, List.getD_eq_getElem?_getD,
    List.getElem?_set, List.length_append, List.length_replicate, List.getElem?_append,
    List.getElem?_replicate]
  by_cases h : j = i
  · subst h
    simp only [if_pos]
    rw [if_pos (by omega)]
    rfl
  · rw [if_neg (fun e => h e.symm), if_neg h]
    split
    · rfl
    · split
      · rw [List.getElem?_eq_none (by omega)]; rfl
      · rw [List.getElem?_eq_none (by omega)]

def rehomed (v : Version) (node : Nat) : Version := { v with node }

@[simp] theorem component_rehomed (v : Version) (node i : Nat) :
    (v.rehomed node).component i = v.component i := rfl

/-- Domination is the componentwise order; view and home do not take part in it. -/
instance : LE Version := ⟨fun a b => ∀ i, a.component i ≤ b.component i⟩

theorem le_def {a b : Version} : a ≤ b ↔ ∀ i, a.component i ≤ b.component i := Iff.rfl

/-- Beyond the longer clock every component is zero, so finitely many comparisons decide. -/
def dominatedBy (a b : Version) : Bool :=
  (List.range (max a.clock.length b.clock.length)).all fun i => a.component i ≤ b.component i

theorem component_of_length_le {v : Version} {i : Nat} (h : v.clock.length ≤ i) :
    v.component i = 0 := by
  simp [component, List.getD_eq_getElem?_getD, List.getElem?_eq_none h]

theorem dominatedBy_iff {a b : Version} : a.dominatedBy b = true ↔ a ≤ b := by
  simp only [dominatedBy, List.all_eq_true, List.mem_range, decide_eq_true_eq, le_def]
  constructor
  · intro h i
    by_cases hi : i < max a.clock.length b.clock.length
    · exact h i hi
    · rw [component_of_length_le (v := a) (by omega)]
      exact Nat.zero_le _
  · intro h i _
    exact h i

instance (a b : Version) : Decidable (a ≤ b) := decidable_of_iff _ dominatedBy_iff

def text (v : Version) : String :=
  s!"v{v.view}@{v.node}[" ++ ", ".intercalate (v.clock.map toString) ++ "]"

end Version

end Multiversion
