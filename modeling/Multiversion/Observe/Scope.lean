import Multiversion.Observe.Line

namespace Multiversion

structure Scope where
  name : String
  fields : List (String × String) := []
  deriving DecidableEq, Repr

namespace Scope

inductive Ending where
  | complete (extra : List (String × String)) (elapsedMs : Nat)
  | fail (reason : String)
  | abandoned
  deriving DecidableEq, Repr

def opening (s : Scope) : Line := ⟨.trace, s.name ++ "_BEGIN", s.fields⟩

/-- A scope that nobody ends says so, without its own fields. -/
def closing (s : Scope) : Ending → Line
  | .complete extra ms =>
    ⟨.info, s.name ++ "_COMPLETE", s.fields ++ extra ++ [("elapsed_ms", toString ms)]⟩
  | .fail reason => ⟨.warn, s.name ++ "_FAILED", s.fields ++ [("reason", reason)]⟩
  | .abandoned => ⟨.warn, s.name ++ "_INCOMPLETE", [("reason", "scope dropped without completion")]⟩

end Scope

end Multiversion
