import Multiversion.Json.Quoted
import Multiversion.Observe.Severity

namespace Multiversion

structure Line where
  severity : Severity
  event : String
  fields : List (String × String)
  deriving DecidableEq, Repr, Inhabited

namespace Line

def reserved (key : String) : Bool := key = "event" || key = "severity"

/-- Of a key that comes again the last value counts. -/
def insertField (key value : String) : List (String × String) → List (String × String)
  | [] => [(key, value)]
  | (k, v) :: rest =>
    if key < k then (key, value) :: (k, v) :: rest
    else if key = k then (key, value) :: rest
    else (k, v) :: insertField key value rest

def sortedFields (l : Line) : List (String × String) :=
  (l.fields.filter fun f => !reserved f.1).foldl (fun fs f => insertField f.1 f.2 fs) []

def render (l : Line) : String :=
  "\x7b\"event\":" ++ Json.quote l.event ++ ",\"severity\":\"" ++ l.severity.name ++ "\"" ++
    String.join (l.sortedFields.map fun f => "," ++ Json.quote f.1 ++ ":" ++ Json.quote f.2) ++
    "\x7d\n"

def enabled (minimum : Severity) (l : Line) : Bool := minimum ≤ l.severity

def isFailure (l : Line) : Bool := Severity.error ≤ l.severity

end Line

def written (minimum : Severity) (ls : List Line) : List String × List String :=
  let shown := ls.filter (·.enabled minimum)
  ((shown.filter fun l => !l.isFailure).map Line.render,
    (shown.filter Line.isFailure).map Line.render)

end Multiversion
