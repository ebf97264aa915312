import AccumulatorMachine.Text.Blank

/-!
# Tokens

Source text is a sequence of tokens with gaps between them. A gap is made of blanks and
comments; a comment runs from a `#` up to the next line feed, which is itself a blank, or
to the end of the text. Gaps may be empty, so tokens may touch.

A token is a name, `[A-Za-z_][A-Za-z0-9_]*`, a number, `[0-9]+`, both as long as possible,
or else a single stray character. There is no text without tokens that is not a gap, so
splitting never fails; what to make of strays is for the reader of tokens to say.
-/

namespace AccumulatorMachine.Source

inductive TokenKind where
  | name
  | number
  /-- A character that begins neither a name nor a number. -/
  | stray
  deriving DecidableEq

/-- A token and the characters it is made of. -/
structure Token where
  kind : TokenKind
  text : List Char
  deriving DecidableEq

def isNameStart (c : Char) : Bool := c.isAlpha || c == '_'

def isNameChar (c : Char) : Bool := c.isAlphanum || c == '_'

/-- The letters of names are those of ASCII, `[A-Za-z_]`. -/
theorem isNameStart_iff {c : Char} :
    isNameStart c ↔ ('A' ≤ c ∧ c ≤ 'Z') ∨ ('a' ≤ c ∧ c ≤ 'z') ∨ c = '_' := by
  have hupper : c.isUpper ↔ 'A' ≤ c ∧ c ≤ 'Z' := decide_eq_true_iff
  have hlower : c.isLower ↔ 'a' ≤ c ∧ c ≤ 'z' :=
    Bool.and_eq_true_iff.trans (and_congr decide_eq_true_iff decide_eq_true_iff)
  have halpha : c.isAlpha = (c.isUpper || c.isLower) := rfl
  unfold isNameStart
  rw [halpha, Bool.or_eq_true, Bool.or_eq_true, hupper, hlower, beq_iff_eq, or_assoc]

/-- So are the digits, `[0-9]`. -/
theorem isDigit_iff {c : Char} : c.isDigit ↔ '0' ≤ c ∧ c ≤ '9' := by
  simp [Char.isDigit, Char.le_def]

theorem isNameChar_iff {c : Char} : isNameChar c ↔ isNameStart c ∨ c.isDigit := by
  have halphanum : c.isAlphanum = (c.isAlpha || c.isDigit) := rfl
  unfold isNameChar isNameStart
  rw [halphanum, Bool.or_eq_true, Bool.or_eq_true, Bool.or_eq_true, or_right_comm]

/-- What follows the gap at the front of a text; the flag says that a comment is open. -/
def dropGap (inComment : Bool) : List Char → List Char
  | [] => []
  | c :: rest =>
    if inComment then dropGap (c != '\n') rest
    else if Text.isBlank c then dropGap false rest
    else if c = '#' then dropGap true rest
    else c :: rest

/-- The gap at the front of a text; the flag says that a comment is open. -/
def takeGap (inComment : Bool) : List Char → List Char
  | [] => []
  | c :: rest =>
    if inComment then c :: takeGap (c != '\n') rest
    else if Text.isBlank c then c :: takeGap false rest
    else if c = '#' then c :: takeGap true rest
    else []

/-- The first token of a text, and what follows it. -/
def next? (text : List Char) : Option (Token × List Char) :=
  match dropGap false text with
  | [] => none
  | c :: rest =>
    if isNameStart c then some (⟨.name, c :: rest.takeWhile isNameChar⟩, rest.dropWhile isNameChar)
    else if c.isDigit then some (⟨.number, c :: rest.takeWhile Char.isDigit⟩, rest.dropWhile Char.isDigit)
    else some (⟨.stray, [c]⟩, rest)

theorem takeGap_append_dropGap (inComment : Bool) (text : List Char) :
    takeGap inComment text ++ dropGap inComment text = text := by
  induction text generalizing inComment with
  | nil => rfl
  | cons c rest ih =>
      unfold takeGap dropGap
      split
      · simp [ih]
      · split
        · simp [ih]
        · split <;> simp [ih]

/-- A gap, a token and the rest make up the text. -/
theorem next?_append {text rest : List Char} {token : Token} (h : next? text = some (token, rest)) :
    takeGap false text ++ token.text ++ rest = text := by
  have hwhole := takeGap_append_dropGap false text
  unfold next? at h
  split at h
  · contradiction
  · rename_i c after hsame
    rw [hsame] at hwhole
    split at h
    · obtain ⟨rfl, rfl⟩ := Prod.mk.inj (Option.some.inj h)
      simpa using hwhole
    · split at h
      · obtain ⟨rfl, rfl⟩ := Prod.mk.inj (Option.some.inj h)
        simpa using hwhole
      · obtain ⟨rfl, rfl⟩ := Prod.mk.inj (Option.some.inj h)
        simpa using hwhole

/-- No token is empty. -/
theorem text_ne_nil_of_next? {text rest : List Char} {token : Token}
    (h : next? text = some (token, rest)) : token.text ≠ [] := by
  unfold next? at h
  split at h
  · contradiction
  · split at h
    · obtain ⟨rfl, rfl⟩ := Prod.mk.inj (Option.some.inj h)
      simp
    · split at h
      · obtain ⟨rfl, rfl⟩ := Prod.mk.inj (Option.some.inj h)
        simp
      · obtain ⟨rfl, rfl⟩ := Prod.mk.inj (Option.some.inj h)
        simp

/-- Every token takes something off the text. -/
theorem length_lt_of_next? {text rest : List Char} {token : Token}
    (h : next? text = some (token, rest)) : rest.length < text.length := by
  have hwhole := congrArg List.length (next?_append h)
  have hpos := List.length_pos_iff.mpr (text_ne_nil_of_next? h)
  simp only [List.length_append] at hwhole
  omega

/-! ## Where tokens stand -/

/-- The length of a text in UTF-8. -/
def byteLength : List Char → Nat
  | [] => 0
  | c :: text => c.utf8Size + byteLength text

/-- A token with the byte offsets of its first character and of what follows it. -/
structure Located where
  token : Token
  start : Nat
  stop : Nat
  deriving DecidableEq

/-- The tokens of a text that begins at a given byte offset. -/
def locate (offset : Nat) (text : List Char) : List Located :=
  match _ : next? text with
  | none => []
  | some (token, rest) =>
    let start := offset + byteLength (takeGap false text)
    let stop := start + byteLength token.text
    ⟨token, start, stop⟩ :: locate stop rest
termination_by text.length
decreasing_by exact length_lt_of_next? (by assumption)

def tokens (text : List Char) : List Located := locate 0 text

end AccumulatorMachine.Source
