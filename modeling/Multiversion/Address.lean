import Multiversion.Text.Hex

namespace Multiversion

structure Address where
  id : BitVec 128
  deriving DecidableEq, Repr, Inhabited

namespace Address

def digits (a : Address) : List Char := Text.Hex.digits 32 a.id.toNat

def short (a : Address) : String := String.ofList (a.digits.take 8)

def groups : List Nat := [8, 4, 4, 4, 12]

def split : List Nat → List Char → List (List Char)
  | [], _ => []
  | n :: ns, cs => cs.take n :: split ns (cs.drop n)

def text (a : Address) : String :=
  "-".intercalate ((split groups a.digits).map String.ofList)

def ungroup : List Nat → List Char → Option (List Char)
  | [], _ => none
  | [n], cs => if cs.length = n then some cs else none
  | n :: ns, cs =>
    match cs.drop n with
    | '-' :: rest => (ungroup ns rest).map (cs.take n ++ ·)
    | _ => none

def ofDigits? (cs : List Char) : Option Address :=
  (Text.Hex.number? cs).map fun n => ⟨BitVec.ofNat 128 n⟩

def ofGrouped? (cs : List Char) : Option Address := ungroup groups cs >>= ofDigits?

def scheme : List Char := "urn:uuid:".toList

/-- Accepts 32 plain digits, or the grouped form, which may stand in braces or after the scheme. -/
def parse? (s : String) : Option Address :=
  let cs := s.toList
  if cs.length = 32 then ofDigits? cs
  else if cs.length = 36 then ofGrouped? cs
  else if cs.length = 38 ∧ cs.head? = some '{' ∧ cs.getLast? = some '}' then
    ofGrouped? (cs.tail.take 36)
  else if cs.length = 45 ∧ (cs.take 9).map Char.toLower = scheme then ofGrouped? (cs.drop 9)
  else none

instance : Ord Address := ⟨fun a b => compare a.id.toNat b.id.toNat⟩

/-- An address drawn from 128 random bits; six of them are fixed to mark it as such. -/
def ofRandom (bits : Nat) : Address :=
  let n := BitVec.ofNat 128 bits
  let version : BitVec 128 := 0xf <<< 76
  let family : BitVec 128 := 0x3 <<< 62
  ⟨n &&& ~~~version &&& ~~~family ||| (0x4 <<< 76) ||| (0x2 <<< 62)⟩

def version (a : Address) : Nat := (a.id >>> 76).toNat % 16

end Address

end Multiversion
