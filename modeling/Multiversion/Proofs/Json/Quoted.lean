import Mathlib
import Multiversion.Json.Fields

namespace Multiversion

theorem Text.Hex.number?_digits {width n : Nat} (h : n < 16 ^ width) :
    number? (digits width n) = some n := by
  induction width generalizing n with
  | zero => rw [Nat.lt_one_iff.mp h]; rfl
  | succ width ih =>
    have hd : n / 16 < 16 ^ width :=
      Nat.div_lt_of_lt_mul (by rwa [Nat.pow_succ, Nat.mul_comm] at h)
    have hn := ih hd
    rw [number?] at hn ⊢
    rw [digits, List.foldlM_append, hn, Option.bind_eq_bind, Option.bind_some, List.foldlM_cons,
      value?_digitChar _ (Nat.mod_lt n (by decide)), Option.map_some, Nat.div_add_mod]
    rfl

namespace Json

variable {c : Char} {cs r : List Char} {s : String}

theorem escape_cases (c : Char) :
    (∃ x, escape c = ['\\', x] ∧ unescapeLetter? x = some c) ∨
    (c.toNat < 0x20 ∧ escape c = '\\' :: 'u' :: Text.Hex.digits 4 c.toNat) ∨
    escape c = [c] ∧ c ≠ '"' ∧ c ≠ '\\' ∧ 0x20 ≤ c.toNat := by
  unfold escape
  split_ifs with hq hb hn hr ht hx hf hc
  · exact .inl ⟨_, rfl, by rw [hq]; rfl⟩
  · exact .inl ⟨_, rfl, by rw [hb]; rfl⟩
  · exact .inl ⟨_, rfl, by rw [hn]; rfl⟩
  · exact .inl ⟨_, rfl, by rw [hr]; rfl⟩
  · exact .inl ⟨_, rfl, by rw [ht]; rfl⟩
  · exact .inl ⟨_, rfl, by rw [hx]; rfl⟩
  · exact .inl ⟨_, rfl, by rw [hf]; rfl⟩
  · exact .inr (.inl ⟨hc, rfl⟩)
  · exact .inr (.inr ⟨rfl, hq, hb, Nat.le_of_not_lt hc⟩)

theorem ne_u_of_unescapeLetter? {x : Char} (h : unescapeLetter? x = some c) : x ≠ 'u' := by
  rintro rfl
  cases h

theorem digits_control (h : c.toNat < 0x20) :
    ∃ a b d e, Text.Hex.digits 4 c.toNat = [a, b, d, e] ∧
      Text.Hex.number? [a, b, d, e] = some c.toNat := by
  have hl := Text.Hex.length_digits 4 c.toNat
  have hn := Text.Hex.number?_digits (show c.toNat < 16 ^ 4 by omega)
  match hd : Text.Hex.digits 4 c.toNat, hl with
  | [a, b, d, e], _ => exact ⟨a, b, d, e, rfl, hd ▸ hn⟩

section Literal

variable {x a b d e : Char} {n : Nat}

theorem unescape_letter (hx : unescapeLetter? x = some c) :
    unescape ('\\' :: x :: cs) = (unescape cs).map (c :: ·) := by
  rw [unescape.eq_3 _ _ fun _ _ _ _ _ hu _ => ne_u_of_unescapeLetter? hx hu, hx]
  cases unescape cs <;> rfl

theorem unescape_numbered (hn : Text.Hex.number? [a, b, d, e] = some c.toNat)
    (hlow : c.toNat < 0xd800) :
    unescape ('\\' :: 'u' :: a :: b :: d :: e :: cs) = (unescape cs).map (c :: ·) := by
  have hlead : isLead c.toNat = false := by simp [isLead]; omega
  have htrail : isTrail c.toNat = false := by simp [isTrail]; omega
  rw [unescape, hn, Option.bind_eq_bind, Option.bind_some, htrail, hlead, Char.ofNat_toNat]
  cases unescape cs <;> rfl

theorem unescape_plain (hc : c ≠ '\\') : unescape (c :: cs) = (unescape cs).map (c :: ·) := by
  rw [unescape.eq_4 _ _ (fun _ _ _ _ _ h _ => hc h) fun _ _ h _ => hc h]
  cases unescape cs <;> rfl

theorem readLiteral_letter (hx : unescapeLetter? x = some c) :
    readLiteral ('\\' :: x :: cs) = (readLiteral cs).map (Prod.map (['\\', x] ++ ·) id) := by
  rw [readLiteral.eq_4 _ _ fun _ _ _ _ _ hu _ => ne_u_of_unescapeLetter? hx hu, hx]
  cases readLiteral cs <;> rfl

theorem readLiteral_numbered (hn : Text.Hex.number? [a, b, d, e] = some n) :
    readLiteral ('\\' :: 'u' :: a :: b :: d :: e :: cs) =
      (readLiteral cs).map (Prod.map (['\\', 'u', a, b, d, e] ++ ·) id) := by
  rw [readLiteral, hn]
  cases readLiteral cs <;> rfl

theorem readLiteral_plain (hq : c ≠ '"') (hb : c ≠ '\\') (hc : 0x20 ≤ c.toNat) :
    readLiteral (c :: cs) = (readLiteral cs).map (Prod.map ([c] ++ ·) id) := by
  rw [readLiteral.eq_5 _ _ hq (fun _ _ _ _ _ h _ => hb h) fun _ _ h _ => hb h,
    if_neg (Nat.not_lt.mpr hc)]
  cases readLiteral cs <;> rfl

theorem unescape_escape : unescape (escape c ++ cs) = (unescape cs).map (c :: ·) := by
  rcases escape_cases c with ⟨x, he, hx⟩ | ⟨hc, he⟩ | ⟨he, -, hb, -⟩
  · rw [he]
    exact unescape_letter hx
  · obtain ⟨a, b, d, e, hd, hn⟩ := digits_control hc
    rw [he, hd]
    exact unescape_numbered hn (by omega)
  · rw [he]
    exact unescape_plain hb

theorem readLiteral_escape :
    readLiteral (escape c ++ cs) = (readLiteral cs).map (Prod.map (escape c ++ ·) id) := by
  rcases escape_cases c with ⟨x, he, hx⟩ | ⟨hc, he⟩ | ⟨he, hq, hb, hc⟩
  · rw [he]
    exact readLiteral_letter hx
  · obtain ⟨a, b, d, e, hd, hn⟩ := digits_control hc
    rw [he, hd]
    exact readLiteral_numbered hn
  · rw [he]
    exact readLiteral_plain hq hb hc

end Literal

theorem unescape_flatMap : unescape (cs.flatMap escape) = some cs := by
  induction cs with
  | nil => rfl
  | cons c cs ih => rw [List.flatMap_cons, unescape_escape, ih]; rfl

theorem readLiteral_flatMap :
    readLiteral (cs.flatMap escape ++ '"' :: r) = some (cs.flatMap escape, r) := by
  induction cs with
  | nil => rfl
  | cons c cs ih => rw [List.flatMap_cons, List.append_assoc, readLiteral_escape, ih]; rfl

theorem newline_notMem_escape : '\n' ∉ escape c := by
  rcases escape_cases c with ⟨x, he, hx⟩ | ⟨-, he⟩ | ⟨he, -, -, hc⟩
  · rw [he, List.mem_pair]
    rintro (h | rfl)
    · exact absurd h (by decide)
    · cases hx
  · rw [he, List.mem_cons, List.mem_cons]
    rintro (h | h | h)
    · exact absurd h (by decide)
    · exact absurd h (by decide)
    · obtain ⟨d, hd⟩ := Text.Hex.value?_of_mem_digits h
      cases hd
  · rw [he, List.mem_singleton]
    rintro rfl
    exact absurd hc (by decide)

section Members

def memberChars (m : String × String) : List Char :=
  quoteChars m.1.toList ++ ':' :: quoteChars m.2.toList

def texts (ms : List (String × String)) : Value := .record (ms.map fun m => (m.1, .text m.2))

def texts? : Value → Option (List (String × String))
  | .object ms => ms.mapM fun (k, v) => do some (String.ofList (← unescape k), ← v.string?)
  | _ => none

variable {m : String × String} {ms : List (String × String)} {fuel : Nat}

theorem newline_notMem_quoteChars : '\n' ∉ quoteChars cs := by
  simp [quoteChars, newline_notMem_escape]

theorem newline_notMem_memberChars : '\n' ∉ memberChars m := by
  simp [memberChars, newline_notMem_quoteChars]

theorem texts?_texts : texts? (texts ms) = some ms := by
  simp only [texts, Value.record, texts?, List.map_map]
  induction ms with
  | nil => rfl
  | cons m ms ih =>
    rw [List.map_cons, List.mapM_cons, ih]
    simp [Value.text, Value.string?, unescape_flatMap]

theorem quoteChars_append : quoteChars cs ++ r = '"' :: (cs.flatMap escape ++ '"' :: r) := by
  simp [quoteChars]

theorem readValue_quote :
    readValue (fuel + 1) ('"' :: r) = (readLiteral r).map fun (raw, r) => (.string raw, r) :=
  rfl

theorem readValue_quoteChars :
    readValue (fuel + 1) (quoteChars cs ++ r) = some (.string (cs.flatMap escape), r) := by
  rw [quoteChars_append, readValue_quote, readLiteral_flatMap]
  rfl

theorem readMembers_quote :
    readMembers (fuel + 1) ('"' :: r) = (readLiteral r).bind fun (k, r) =>
      match skipBlanks r with
      | ':' :: r => (readValue fuel r).bind fun (v, r) =>
        match skipBlanks r with
        | ',' :: r => (readMembers fuel r).bind fun (ms, r) => some ((k, v) :: ms, r)
        | '\x7d' :: r => some ([(k, v)], r)
        | _ => none
      | _ => none :=
  rfl

def rawMember (m : String × String) : List Char × Value :=
  (m.1.toList.flatMap escape, .text m.2)

theorem memberChars_append :
    memberChars m ++ r =
      '"' :: (m.1.toList.flatMap escape ++ '"' :: ':' :: (quoteChars m.2.toList ++ r)) := by
  rw [memberChars, List.append_assoc, quoteChars_append, List.cons_append]

theorem readMembers_last :
    readMembers (fuel + 2) (memberChars m ++ '\x7d' :: r) = some ([rawMember m], r) := by
  rw [memberChars_append, readMembers_quote, readLiteral_flatMap]
  change (readValue (fuel + 1) (quoteChars m.2.toList ++ '\x7d' :: r)).bind _ = _
  rw [readValue_quoteChars]
  rfl

theorem readMembers_more :
    readMembers (fuel + 2) (memberChars m ++ ',' :: r) =
      (readMembers (fuel + 1) r).map (Prod.map (rawMember m :: ·) id) := by
  rw [memberChars_append, readMembers_quote, readLiteral_flatMap]
  change (readValue (fuel + 1) (quoteChars m.2.toList ++ ',' :: r)).bind _ = _
  rw [readValue_quoteChars]
  change (readMembers (fuel + 1) r).bind _ = _
  cases readMembers (fuel + 1) r <;> rfl

def membersChars (m : String × String) (ms : List (String × String)) : List Char :=
  memberChars m ++ ms.flatMap (',' :: memberChars ·)

theorem membersChars_cons {n : String × String} :
    membersChars m (n :: ms) ++ r = memberChars m ++ ',' :: (membersChars n ms ++ r) := by
  simp [membersChars]

theorem readMembers_membersChars (h : ms.length + 1 < fuel) :
    readMembers fuel (membersChars m ms ++ '\x7d' :: r) = some ((m :: ms).map rawMember, r) := by
  obtain ⟨fuel, rfl⟩ : ∃ k, fuel = k + 2 := ⟨fuel - 2, by omega⟩
  induction ms generalizing m fuel with
  | nil =>
    rw [membersChars, List.flatMap_nil, List.append_nil]
    exact readMembers_last
  | cons n ms ih =>
    obtain ⟨fuel, rfl⟩ : ∃ k, fuel = k + 1 := ⟨fuel - 1, by rw [List.length_cons] at h; omega⟩
    rw [membersChars_cons, readMembers_more, ih _ (by simpa using h)]
    rfl

def objectChars (m : String × String) (ms : List (String × String)) : List Char :=
  '\x7b' :: (membersChars m ms ++ ['\x7d'])

theorem readValue_objectChars (h : ms.length + 2 < fuel) :
    readValue fuel (objectChars m ms ++ r) = some (texts (m :: ms), r) := by
  obtain ⟨fuel, rfl⟩ : ∃ k, fuel = k + 1 := ⟨fuel - 1, by omega⟩
  have hbrace {cs : List Char} : readValue (fuel + 1) ('\x7b' :: '"' :: cs) =
      (readMembers fuel ('"' :: cs)).map fun (ms, r) => (.object ms, r) := rfl
  have hm := readMembers_membersChars (m := m) (r := r) (show ms.length + 1 < fuel by omega)
  rw [objectChars, List.cons_append, List.append_assoc, List.singleton_append]
  rw [membersChars, List.append_assoc, memberChars_append] at hm ⊢
  rw [hbrace, hm]
  simp [texts, Value.record, rawMember]

theorem newline_notMem_objectChars : '\n' ∉ objectChars m ms := by
  simp [objectChars, membersChars, newline_notMem_memberChars]

theorem length_lt_objectChars : ms.length < (objectChars m ms).length := by
  have hle : ms.length ≤ (ms.flatMap (',' :: memberChars ·)).length := by
    induction ms with
    | nil => exact le_rfl
    | cons n ms ih =>
      rw [List.flatMap_cons, List.length_append, List.length_cons, List.length_cons]
      omega
  rw [objectChars, membersChars, List.length_cons, List.length_append, List.length_append]
  omega

theorem parse?_objectChars (hs : s.toList = objectChars m ms ++ r) (hr : skipBlanks r = []) :
    parse? s = some (texts (m :: ms)) := by
  have hlt : ms.length < (objectChars m ms).length := length_lt_objectChars
  have hlen := congrArg List.length hs
  rw [List.length_append] at hlen
  rw [parse?, hs, readValue_objectChars (by rw [← hs]; omega)]
  simp [hr]

end Members

end Json

end Multiversion
