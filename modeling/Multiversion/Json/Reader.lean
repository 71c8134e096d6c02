import Multiversion.Json.Value

namespace Multiversion.Json

def isBlank (c : Char) : Bool := c = ' ' || c = '\n' || c = '\t' || c = '\r'

def skipBlanks (cs : List Char) : List Char := cs.dropWhile isBlank

def unescapeLetter? : Char → Option Char
  | '"' => some '"'
  | '\\' => some '\\'
  | '/' => some '/'
  | 'b' => some '\x08'
  | 'f' => some '\x0c'
  | 'n' => some '\n'
  | 'r' => some '\r'
  | 't' => some '\t'
  | _ => none

def readLiteral : List Char → Option (List Char × List Char)
  | [] => none
  | '"' :: r => some ([], r)
  | '\\' :: 'u' :: a :: b :: c :: d :: r => do
    let _ ← Text.Hex.number? [a, b, c, d]
    let (raw, r) ← readLiteral r
    some ('\\' :: 'u' :: a :: b :: c :: d :: raw, r)
  | '\\' :: c :: r => do
    let _ ← unescapeLetter? c
    let (raw, r) ← readLiteral r
    some ('\\' :: c :: raw, r)
  | c :: r => do
    if c.toNat < 0x20 then none
    let (raw, r) ← readLiteral r
    some (c :: raw, r)

def isLead (n : Nat) : Bool := 0xd800 ≤ n && n < 0xdc00

def isTrail (n : Nat) : Bool := 0xdc00 ≤ n && n < 0xe000

/-- The text that a literal spells. Escaped halves of a character must come in pairs. -/
def unescape : List Char → Option (List Char)
  | [] => some []
  | '\\' :: 'u' :: a :: b :: c :: d :: r => do
    let n ← Text.Hex.number? [a, b, c, d]
    if isTrail n then none
    else if isLead n then
      match r with
      | '\\' :: 'u' :: e :: f :: g :: h :: r =>
        let m ← Text.Hex.number? [e, f, g, h]
        if isTrail m then
          let rest ← unescape r
          some (Char.ofNat (0x10000 + (n - 0xd800) * 0x400 + (m - 0xdc00)) :: rest)
        else none
      | _ => none
    else
      let rest ← unescape r
      some (Char.ofNat n :: rest)
  | '\\' :: c :: r => do
    let x ← unescapeLetter? c
    let rest ← unescape r
    some (x :: rest)
  | c :: r => do
    let rest ← unescape r
    some (c :: rest)

def readDigits (cs : List Char) : Option (List Char × List Char) :=
  match cs.takeWhile Char.isDigit with
  | [] => none
  | ds => some (ds, cs.dropWhile Char.isDigit)

def readInteger : List Char → Option (List Char × List Char)
  | '0' :: r => some (['0'], r)
  | cs => readDigits cs

def readFraction : List Char → Option (List Char × List Char)
  | '.' :: r => do
    let (ds, r) ← readDigits r
    some ('.' :: ds, r)
  | cs => some ([], cs)

def readSign : List Char → List Char × List Char
  | '+' :: r => (['+'], r)
  | '-' :: r => (['-'], r)
  | cs => ([], cs)

def readExponent : List Char → Option (List Char × List Char)
  | c :: r =>
    if c = 'e' ∨ c = 'E' then do
      let (sign, r) := readSign r
      let (ds, r) ← readDigits r
      some (c :: sign ++ ds, r)
    else some ([], c :: r)
  | [] => some ([], [])

def readMagnitude (cs : List Char) : Option (List Char × List Char) := do
  let (a, r) ← readInteger cs
  let (b, r) ← readFraction r
  let (c, r) ← readExponent r
  some (a ++ b ++ c, r)

def readNumber : List Char → Option (List Char × List Char)
  | '-' :: r => do
    let (raw, r) ← readMagnitude r
    some ('-' :: raw, r)
  | cs => readMagnitude cs

mutual

def readValue : Nat → List Char → Option (Value × List Char)
  | 0, _ => none
  | fuel + 1, cs =>
    match skipBlanks cs with
    | 'n' :: 'u' :: 'l' :: 'l' :: r => some (.null, r)
    | 't' :: 'r' :: 'u' :: 'e' :: r => some (.bool true, r)
    | 'f' :: 'a' :: 'l' :: 's' :: 'e' :: r => some (.bool false, r)
    | '"' :: r => (readLiteral r).map fun (raw, r) => (.string raw, r)
    | '[' :: r =>
      match skipBlanks r with
      | ']' :: r => some (.array [], r)
      | r => (readItems fuel r).map fun (vs, r) => (.array vs, r)
    | '{' :: r =>
      match skipBlanks r with
      | '}' :: r => some (.object [], r)
      | r => (readMembers fuel r).map fun (ms, r) => (.object ms, r)
    | r => (readNumber r).map fun (raw, r) => (.number raw, r)

def readItems : Nat → List Char → Option (List Value × List Char)
  | 0, _ => none
  | fuel + 1, cs => do
    let (v, r) ← readValue fuel cs
    match skipBlanks r with
    | ',' :: r =>
      let (vs, r) ← readItems fuel r
      some (v :: vs, r)
    | ']' :: r => some ([v], r)
    | _ => none

def readMembers : Nat → List Char → Option (List (List Char × Value) × List Char)
  | 0, _ => none
  | fuel + 1, cs =>
    match skipBlanks cs with
    | '"' :: r => do
      let (k, r) ← readLiteral r
      match skipBlanks r with
      | ':' :: r =>
        let (v, r) ← readValue fuel r
        match skipBlanks r with
        | ',' :: r =>
          let (ms, r) ← readMembers fuel r
          some ((k, v) :: ms, r)
        | '}' :: r => some ([(k, v)], r)
        | _ => none
      | _ => none
    | _ => none

end

/-- Two calls at most lie between two characters that are read. -/
def parse? (s : String) : Option Value := do
  let cs := s.toList
  let (v, r) ← readValue (2 * cs.length + 2) cs
  if skipBlanks r = [] then some v else none

end Multiversion.Json
