import Multiversion.Json.Reader

/-!
A record is read from an object, where members of other names are passed over and none of its own
may come twice, or from an array of its fields in their order.
-/

namespace Multiversion.Json

namespace Value

def bool? : Value → Option Bool
  | .bool b => some b
  | _ => none

def natBelow? (limit : Nat) : Value → Option Nat
  | .number raw => do
    if raw.all Char.isDigit then
      let n := raw.foldl (fun n c => 10 * n + (c.toNat - '0'.toNat)) 0
      if n < limit then some n else none
    else none
  | _ => none

def nat64? : Value → Option Nat := natBelow? UInt64.size

def nat32? : Value → Option Nat := natBelow? UInt32.size

def byte? (v : Value) : Option UInt8 := (natBelow? UInt8.size v).map UInt8.ofNat

def string? : Value → Option String
  | .string raw => (unescape raw).map String.ofList
  | _ => none

def list? {α : Type} (f : Value → Option α) : Value → Option (List α)
  | .array vs => vs.mapM f
  | _ => none

def option? {α : Type} (f : Value → Option α) : Value → Option (Option α)
  | .null => some none
  | v => (f v).map some

end Value

structure Fields where
  given : List (Option Value)
  positional : Bool
  deriving Repr

namespace Fields

def pick (ms : List (String × Value)) (name : String) : Option (Option Value) :=
  match ms.filter (·.1 = name) with
  | [] => some none
  | [(_, v)] => some (some v)
  | _ => none

def ofValue? (names : List String) : Value → Option Fields
  | .object ms => do
    let ms ← ms.mapM fun (k, v) => (unescape k).map fun k => (String.ofList k, v)
    let given ← names.mapM (pick ms)
    some ⟨given, false⟩
  | .array vs =>
    if vs.length ≤ names.length then
      some ⟨vs.map some ++ List.replicate (names.length - vs.length) none, true⟩
    else none
  | _ => none

def value? (f : Fields) (i : Nat) : Option Value := (f.given[i]?).join

def need {α : Type} (f : Fields) (i : Nat) (read : Value → Option α) : Option α :=
  f.value? i >>= read

def orElse {α : Type} (f : Fields) (i : Nat) (read : Value → Option α) (absent : α) : Option α :=
  match f.value? i with
  | some v => read v
  | none => some absent

/-- A field that may be null may be left out of an object, but not of an array. -/
def optional {α : Type} (f : Fields) (i : Nat) (read : Value → Option α) : Option (Option α) :=
  match f.value? i with
  | some v => v.option? read
  | none => if f.positional then none else some none

end Fields

def choice? : Value → Option (String × Option Value)
  | .string raw => (unescape raw).map fun k => (String.ofList k, none)
  | .object [(k, v)] => (unescape k).map fun k => (String.ofList k, some v)
  | _ => none

def bare? : Option Value → Bool
  | none => true
  | some .null => true
  | _ => false

end Multiversion.Json
