import AccumulatorMachine.Json.Token

/-!
# Scanning JSON text

Text is split into tokens, or refused. White space is the four characters that JSON names,
and no other. A number is the longest run of characters that numbers are made of, and that
run has to be a literal: no text in which it is not can be mended by cutting it short.

A string literal is first taken apart into characters and escaped UTF-16 units, and then
spelled out, where units of a surrogate pair join.
-/

namespace AccumulatorMachine.Json

def isSpace (c : Char) : Bool := c == ' ' || c == '\n' || c == '\r' || c == '\t'

/-- A character that some number literal contains. -/
def isNumberChar (c : Char) : Bool :=
  c.isDigit || c == '-' || c == '+' || c == '.' || c == 'e' || c == 'E'

/-! ## String literals -/

/-- One item of a string literal: a character, or a UTF-16 unit given by number. -/
inductive StringItem where
  | char (c : Char)
  | unit (value : Nat)
  deriving DecidableEq

/-- The character that a short escape stands for. -/
def unescape? (c : Char) : Option Char :=
  if c = '"' then some '"'
  else if c = '\\' then some '\\'
  else if c = '/' then some '/'
  else if c = 'b' then some '\x08'
  else if c = 'f' then some '\x0c'
  else if c = 'n' then some '\n'
  else if c = 'r' then some '\r'
  else if c = 't' then some '\t'
  else none

/-- The items of a string literal up to its closing quote, and what follows it. -/
def stringItems? : List Char → Option (List StringItem × List Char)
  | [] => none
  | '"' :: rest => some ([], rest)
  | '\\' :: 'u' :: a :: b :: c :: d :: rest =>
    match Numeral.ofHexadecimal? [a, b, c, d], stringItems? rest with
    | some value, some (items, after) => some (.unit value :: items, after)
    | _, _ => none
  | '\\' :: e :: rest =>
    match unescape? e, stringItems? rest with
    | some c, some (items, after) => some (.char c :: items, after)
    | _, _ => none
  | c :: rest =>
    if c.toNat < 32 then none
    else (stringItems? rest).map fun (items, after) => (.char c :: items, after)

def isHighSurrogate (unit : Nat) : Bool := 0xD800 ≤ unit && unit < 0xDC00

def isLowSurrogate (unit : Nat) : Bool := 0xDC00 ≤ unit && unit < 0xE000

/-- The text that items spell, unless half a surrogate pair stands alone. -/
def spell? : List StringItem → Option (List Char)
  | [] => some []
  | .char c :: rest => (spell? rest).map (c :: ·)
  | .unit high :: .unit low :: rest =>
    if isHighSurrogate high then
      if isLowSurrogate low then
        (spell? rest).map (Char.ofNat (0x10000 + (high - 0xD800) * 0x400 + (low - 0xDC00)) :: ·)
      else none
    else if isLowSurrogate high then none
    else (spell? (.unit low :: rest)).map (Char.ofNat high :: ·)
  | .unit value :: rest =>
    if isHighSurrogate value || isLowSurrogate value then none
    else (spell? rest).map (Char.ofNat value :: ·)

/-! ## Tokens -/

/-- The token that a text begins with, and what follows it. -/
def next? : List Char → Option (Token × List Char)
  | [] => none
  | '[' :: rest => some (.openArray, rest)
  | ']' :: rest => some (.closeArray, rest)
  | '\x7b' :: rest => some (.openObject, rest)
  | '\x7d' :: rest => some (.closeObject, rest)
  | ',' :: rest => some (.comma, rest)
  | ':' :: rest => some (.colon, rest)
  | 'n' :: 'u' :: 'l' :: 'l' :: rest => some (.null, rest)
  | 't' :: 'r' :: 'u' :: 'e' :: rest => some (.bool true, rest)
  | 'f' :: 'a' :: 'l' :: 's' :: 'e' :: rest => some (.bool false, rest)
  | '"' :: rest => (stringItems? rest).map fun (items, after) => (.string (spell? items), after)
  | c :: rest =>
    let literal := (c :: rest).takeWhile isNumberChar
    if isNumber literal then some (.number literal, (c :: rest).dropWhile isNumberChar) else none

theorem length_lt_of_stringItems? {text after : List Char} {items : List StringItem}
    (h : stringItems? text = some (items, after)) : after.length < text.length := by
  fun_induction stringItems? text generalizing items after with
  | case1 => contradiction
  | case2 rest =>
      cases h
      simp
  | case3 a b c d rest value items' after' hitems _ ih =>
      cases h
      have hlt := ih hitems
      simp only [List.length_cons]
      omega
  | case4 => contradiction
  | case5 e rest _ c items' after' hitems _ ih =>
      cases h
      have hlt := ih hitems
      simp only [List.length_cons]
      omega
  | case6 => contradiction
  | case7 => contradiction
  | case8 c rest _ _ _ _ ih =>
      obtain ⟨⟨items', after'⟩, hitems, hpair⟩ := Option.map_eq_some_iff.mp h
      cases hpair
      have hlt := ih hitems
      simp only [List.length_cons]
      omega

theorem isNumber_nil : isNumber [] = false := rfl

/-- Every token takes something off the text. -/
theorem length_lt_of_next? {text rest : List Char} {token : Token}
    (h : next? text = some (token, rest)) : rest.length < text.length := by
  unfold next? at h
  split at h
  case h_11 after =>
    obtain ⟨⟨items, after'⟩, hitems, hpair⟩ := Option.map_eq_some_iff.mp h
    cases hpair
    have hlt := length_lt_of_stringItems? hitems
    simp only [List.length_cons]
    omega
  case h_12 c after _ _ _ _ _ _ _ _ _ _ =>
    simp only at h
    split at h
    · rename_i hliteral
      cases h
      by_cases hfirst : isNumberChar c
      · have hle := (List.dropWhile_sublist isNumberChar (l := after)).length_le
        simp only [List.dropWhile_cons, hfirst, if_true, List.length_cons]
        omega
      · rw [List.takeWhile_cons_of_neg hfirst, isNumber_nil] at hliteral
        contradiction
    · contradiction
  case h_1 => contradiction
  all_goals
    cases h
    simp only [List.length_cons]
    omega

/-- The tokens of a text, if all of it is made of tokens and white space. -/
def scan : List Char → Option (List Token)
  | [] => some []
  | c :: rest =>
    if isSpace c then scan rest
    else
      match _ : next? (c :: rest) with
      | some (token, after) => (scan after).map (token :: ·)
      | none => none
termination_by text => text.length
decreasing_by
  · simp
  · exact length_lt_of_next? (by assumption)

end AccumulatorMachine.Json
