import Multiversion.Json.Quoted

/-!
Numbers and string literals are kept as they are written, so that a text can be read without
deciding what its literals stand for.
-/

namespace Multiversion.Json

inductive Value where
  | null
  | bool (b : Bool)
  | number (raw : List Char)
  | string (raw : List Char)
  | array (items : List Value)
  | object (members : List (List Char × Value))
  deriving Repr, Inhabited

namespace Value

def text (s : String) : Value := .string (s.toList.flatMap escape)

def natural (n : Nat) : Value := .number (toString n).toList

def record (members : List (String × Value)) : Value :=
  .object (members.map fun (k, v) => (k.toList.flatMap escape, v))

def list {α : Type} (f : α → Value) (xs : List α) : Value := .array (xs.map f)

def optional {α : Type} (f : α → Value) : Option α → Value
  | some x => f x
  | none => .null

def literal (raw : List Char) : String := String.ofList ('"' :: (raw ++ ['"']))

mutual

def compact : Value → String
  | .null => "null"
  | .bool b => if b then "true" else "false"
  | .number raw => String.ofList raw
  | .string raw => literal raw
  | .array vs => "[" ++ ",".intercalate (compactItems vs) ++ "]"
  | .object ms => "\x7b" ++ ",".intercalate (compactMembers ms) ++ "\x7d"

def compactItems : List Value → List String
  | [] => []
  | v :: vs => v.compact :: compactItems vs

def compactMembers : List (List Char × Value) → List String
  | [] => []
  | (k, v) :: ms => (literal k ++ ":" ++ v.compact) :: compactMembers ms

end

def blanks (n : Nat) : String := String.ofList (List.replicate n ' ')

def block (op cl : String) (indent : Nat) (lines : List String) : String :=
  match lines with
  | [] => op ++ cl
  | lines =>
    op ++ "\n" ++ ",\n".intercalate (lines.map (blanks (indent + 2) ++ ·)) ++ "\n" ++
      blanks indent ++ cl

mutual

def pretty (indent : Nat) : Value → String
  | .null => "null"
  | .bool b => if b then "true" else "false"
  | .number raw => String.ofList raw
  | .string raw => literal raw
  | .array vs => block "[" "]" indent (prettyItems (indent + 2) vs)
  | .object ms => block "\x7b" "\x7d" indent (prettyMembers (indent + 2) ms)

def prettyItems (indent : Nat) : List Value → List String
  | [] => []
  | v :: vs => v.pretty indent :: prettyItems indent vs

def prettyMembers (indent : Nat) : List (List Char × Value) → List String
  | [] => []
  | (k, v) :: ms => (literal k ++ ": " ++ v.pretty indent) :: prettyMembers indent ms

end

end Value

end Multiversion.Json
