namespace Multiversion

inductive Severity where
  | trace
  | info
  | warn
  | error
  | fatal
  deriving DecidableEq, Repr, Inhabited

namespace Severity

def level : Severity → Nat
  | trace => 0
  | info => 1
  | warn => 2
  | error => 3
  | fatal => 4

instance : LE Severity := ⟨fun a b => a.level ≤ b.level⟩

instance (a b : Severity) : Decidable (a ≤ b) := inferInstanceAs (Decidable (a.level ≤ b.level))

def name : Severity → String
  | trace => "TRACE"
  | info => "INFO"
  | warn => "WARN"
  | error => "ERROR"
  | fatal => "FATAL"

/-- ASCII letters of either case are read; only they have a case here. -/
def ofName? (s : String) : Option Severity :=
  match s.map Char.toLower with
  | "trace" => some trace
  | "info" => some info
  | "warn" => some warn
  | "error" => some error
  | "fatal" => some fatal
  | _ => none

def unknown (s : String) : String := s!"unknown log level '{s.map Char.toLower}'"

end Severity

end Multiversion
