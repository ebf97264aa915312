import AccumulatorMachine.Proofs.Margins
import AccumulatorMachine.Proofs.Tokens

/-!
# What the error of a line says

A line is read from the left, token by token, and the error is about the first token that is out
of place. So what the error is depends on the tokens alone (`Blames`): a first token that is no
mnemonic, or nothing, no number or too much behind one, or a number that is too large. A token
out of place is quoted with all that stands behind it up to the next blank. The quote is never
empty, since no token begins with a blank, and looking it up by the byte offset of the token finds
it (`QuotedAt`).

Since the reader never looks behind the token that it stops at, what follows the line cannot
change the error, as long as it does not run into the quote. The two errors for which this fails
are those of a line that has been read to its end.
-/

namespace AccumulatorMachine.Source

/-! ## Quotes -/

/-- The first word of a text, without the blanks in front of it, if there is one. -/
def firstWord? (text : List Char) : Option (List Char) :=
  match Text.wordAt (text.dropWhile Text.isBlank) with
  | [] => none
  | c :: word => some (c :: word)

/-- What a text has at a token of it, up to the next blank. -/
structure QuotedAt (text : List Char) (place : Located) (word : List Char) : Prop where
  /-- It is the first word of what begins at the offset of the token. -/
  found : (dropBytes? text place.start).bind firstWord? = some word
  nonempty : word ≠ []
  noBlank : ∀ c ∈ word, ¬ Text.isBlank c
  begins : place.token.text <+: word
  /-- It is all of the text from the offset to the next blank, or to the end. -/
  stretch : ∃ before after, text = before ++ word ++ after ∧ byteLength before = place.start
    ∧ ∀ c ∈ after.head?, Text.isBlank c

/-- **A token is quoted truthfully**: the quote is the word at the offset of the token, and
begins with the token. -/
theorem quotedAt_of_stands {text rest : List Char} {place : Located}
    (hat : dropBytes? text place.start = some (place.token.text ++ rest))
    (h : Stands place.token rest) :
    QuotedAt text place (Text.wordAt (place.token.text ++ rest)) := by
  have hin : ∀ c ∈ place.token.text, ¬ Text.isBlank c :=
    fun c hc hblank => h.not_separatorStart c hc (Or.inl hblank)
  have hword : Text.wordAt (place.token.text ++ rest) = place.token.text ++ Text.wordAt rest :=
    List.takeWhile_append_of_pos (by simpa using hin)
  obtain ⟨c, more, htoken⟩ := List.exists_cons_of_ne_nil h.ne_nil
  -- the first character is no blank, so no blanks are skipped to find the word
  have hskip : (place.token.text ++ rest).dropWhile Text.isBlank = place.token.text ++ rest := by
    rw [htoken] at hin ⊢
    exact List.dropWhile_cons_of_neg (hin c List.mem_cons_self)
  obtain ⟨before, rfl, hbefore⟩ := dropBytes?_eq_some_iff.mp hat
  refine ⟨?_, ?_, ?_, ?_, before, (place.token.text ++ rest).dropWhile (!Text.isBlank ·), ?_,
    hbefore, ?_⟩
  · rw [hat, Option.bind_some, firstWord?, hskip, hword, htoken]
    rfl
  · rw [hword]
    exact List.append_ne_nil_of_left_ne_nil h.ne_nil _
  · intro d hd
    simpa using List.mem_takeWhile_imp hd
  · rw [hword]
    exact List.prefix_append _ _
  · rw [List.append_assoc, Text.wordAt, List.takeWhile_append_dropWhile]
  · intro d hd
    simpa using Lists.head?_dropWhile_stop _ _ d hd

/-! ## The parts of a line -/

theorem parseFirst_error_cases {token : Token} {rest : List Char} {cause : LineError}
    (h : parseFirst token rest = .error cause) :
    (token.kind = .name ∧ (∀ opcode : Opcode, token.text ≠ opcode.mnemonic.toList)
      ∧ cause = .unknownMnemonic (.ofList token.text))
    ∨ (token.kind ≠ .name ∧ cause = .unknownMnemonic (quote token rest)) := by
  have hnone : ∀ opcode : Opcode, token ≠ ⟨.name, opcode.mnemonic.toList⟩ := by
    intro opcode htoken
    rw [parseFirst_eq_ok_iff.mpr htoken] at h
    contradiction
  obtain ⟨kind, text⟩ := token
  cases kind with
  | name =>
      refine Or.inl ⟨rfl, fun opcode htext => hnone opcode (congrArg (Token.mk .name) htext), ?_⟩
      unfold parseFirst parseMnemonic at h
      dsimp only at h
      split at h
      · contradiction
      · exact (Except.error.inj h).symm
  | number => exact Or.inr ⟨nofun, (Except.error.inj h).symm⟩
  | stray => exact Or.inr ⟨nofun, (Except.error.inj h).symm⟩

theorem parseLiteral_error_cases {opcode : Opcode} {text : List Char} {cause : LineError}
    (h : parseLiteral opcode text = .error cause) :
    (next? text = none ∧ cause = .malformedOperand opcode.mnemonic .missing)
    ∨ (∃ token rest, next? text = some (token, rest) ∧ token.kind ≠ .number
        ∧ cause = .malformedOperand opcode.mnemonic (.notNumber (quote token rest)))
    ∨ ∃ number rest token last, next? text = some (number, rest) ∧ number.kind = .number
        ∧ next? rest = some (token, last)
        ∧ cause = .malformedOperand opcode.mnemonic (.trailing (quote token last)) := by
  unfold parseLiteral at h
  rcases hnext : next? text with _ | ⟨⟨kind, digits⟩, rest⟩
  · rw [hnext] at h
    exact Or.inl ⟨rfl, (Except.error.inj h).symm⟩
  · rw [hnext] at h
    cases kind with
    | name => exact Or.inr (Or.inl ⟨_, _, rfl, nofun, (Except.error.inj h).symm⟩)
    | stray => exact Or.inr (Or.inl ⟨_, _, rfl, nofun, (Except.error.inj h).symm⟩)
    | number =>
        dsimp only at h
        rcases hlast : next? rest with _ | ⟨token, last⟩
        · rw [hlast] at h
          contradiction
        · rw [hlast] at h
          exact Or.inr (Or.inr ⟨_, _, _, _, rfl, rfl, hlast, (Except.error.inj h).symm⟩)

/-- **An operand is refused for its value**, whether 64 bits are too few for it or the width is. -/
theorem parseOperand_error {opcode : Opcode} {digits : List Char} {cause : LineError}
    (h : parseOperand opcode digits = .error cause) :
    cause = .operandOutOfRange opcode (.ofList digits) opcode.maxOperand
      ∧ opcode.maxOperand < Numeral.ofDecimal digits := by
  have hsmall : opcode.maxOperand < UInt64.size := by cases opcode <;> decide
  unfold parseOperand at h
  rcases hvalue : Numeral.ofDecimal64? digits with _ | value
  · rw [hvalue] at h
    refine ⟨(Except.error.inj h).symm, ?_⟩
    by_contra hle
    have hfits : Numeral.ofDecimal digits < UInt64.size := by omega
    rw [Numeral.ofDecimal64?_eq_some_iff.mpr ⟨rfl, hfits⟩] at hvalue
    contradiction
  · rw [hvalue] at h
    obtain ⟨rfl, -⟩ := Numeral.ofDecimal64?_eq_some_iff.mp hvalue
    dsimp only at h
    unfold Instruction.ofOperand at h
    by_cases hfits : opcode.Fits (Numeral.ofDecimal digits)
    · rw [if_pos hfits] at h
      contradiction
    · rw [if_neg hfits] at h
      exact ⟨(Except.error.inj h).symm, Nat.lt_of_not_le hfits⟩

/-! ## The token that is blamed -/

/-- What an error may say of a text that has given tokens. -/
inductive Blames (text : List Char) : List Located → LineError → Prop
  /-- A name that is no mnemonic is quoted as it is, without what touches it. -/
  | unknownName {first : Located} {others : List Located} (kind : first.token.kind = .name)
      (unknown : ∀ opcode : Opcode, first.token.text ≠ opcode.mnemonic.toList) :
      Blames text (first :: others) (.unknownMnemonic (.ofList first.token.text))
  | notName {first : Located} {others : List Located} {word : List Char}
      (kind : first.token.kind ≠ .name) (quoted : QuotedAt text first word) :
      Blames text (first :: others) (.unknownMnemonic (.ofList word))
  | missing {first : Located} {opcode : Opcode}
      (mnemonic : first.token = ⟨.name, opcode.mnemonic.toList⟩) :
      Blames text [first] (.malformedOperand opcode.mnemonic .missing)
  | notNumber {first second : Located} {others : List Located} {opcode : Opcode}
      {word : List Char} (mnemonic : first.token = ⟨.name, opcode.mnemonic.toList⟩)
      (kind : second.token.kind ≠ .number) (quoted : QuotedAt text second word) :
      Blames text (first :: second :: others)
        (.malformedOperand opcode.mnemonic (.notNumber (.ofList word)))
  | trailing {first second third : Located} {others : List Located} {opcode : Opcode}
      {word : List Char} (mnemonic : first.token = ⟨.name, opcode.mnemonic.toList⟩)
      (kind : second.token.kind = .number) (quoted : QuotedAt text third word) :
      Blames text (first :: second :: third :: others)
        (.malformedOperand opcode.mnemonic (.trailing (.ofList word)))
  /-- The literal is kept as it is written. -/
  | tooLarge {first second : Located} {opcode : Opcode}
      (mnemonic : first.token = ⟨.name, opcode.mnemonic.toList⟩)
      (kind : second.token.kind = .number)
      (large : opcode.maxOperand < Numeral.ofDecimal second.token.text) :
      Blames text [first, second]
        (.operandOutOfRange opcode (.ofList second.token.text) opcode.maxOperand)

/-- **The error of a line blames a token of it.** -/
theorem blames_of_parseLine {text : List Char} {cause : LineError}
    (h : parseLine text = .error cause) : Blames text (tokens text) cause := by
  unfold parseLine at h
  rcases hfirst : next? text with _ | ⟨token, rest⟩
  · rw [hfirst] at h
    contradiction
  rw [hfirst] at h
  obtain ⟨first, rfl, htokens, hat, hstop⟩ := locate_of_next? (dropBytes?_zero text) hfirst
  unfold tokens
  rw [htokens]
  rcases bind_eq_error_iff.mp h with h | ⟨opcode, hname, h⟩
  · rcases parseFirst_error_cases h with ⟨hkind, hunknown, rfl⟩ | ⟨hkind, rfl⟩
    · exact .unknownName hkind hunknown
    · exact .notName hkind (quotedAt_of_stands hat (stands_of_next? hfirst))
  have hmnemonic := parseFirst_eq_ok_iff.mp hname
  rcases bind_eq_error_iff.mp h with h | ⟨digits, hliteral, h⟩
  · rcases parseLiteral_error_cases h with
      ⟨hnone, rfl⟩ | ⟨token, rest', hnext, hkind, rfl⟩
        | ⟨number, rest', token, last, hnumber, hkind, hnext, rfl⟩
    · rw [locate_of_none hnone]
      exact .missing hmnemonic
    · obtain ⟨second, rfl, hmore, hat, -⟩ := locate_of_next? hstop hnext
      rw [hmore]
      exact .notNumber hmnemonic hkind (quotedAt_of_stands hat (stands_of_next? hnext))
    · obtain ⟨second, rfl, hmore, -, hstop⟩ := locate_of_next? hstop hnumber
      obtain ⟨third, rfl, hlast, hat, -⟩ := locate_of_next? hstop hnext
      rw [hmore, hlast]
      exact .trailing hmnemonic hkind (quotedAt_of_stands hat (stands_of_next? hnext))
  rcases bind_eq_error_iff.mp h with h | ⟨i, -, h⟩
  · obtain ⟨rest', hnumber, hnone⟩ := parseLiteral_eq_ok_iff.mp hliteral
    obtain ⟨second, hsecond, hmore, -, -⟩ := locate_of_next? hstop hnumber
    obtain ⟨rfl, hlarge⟩ := parseOperand_error h
    rw [hmore, locate_of_none hnone]
    have htooLarge : Blames text [first, second] (.operandOutOfRange opcode
        (.ofList second.token.text) opcode.maxOperand) :=
      .tooLarge hmnemonic (by rw [hsecond]) (by rw [hsecond]; exact hlarge)
    rwa [hsecond] at htooLarge
  · contradiction

/-! ## What follows a line -/

theorem parseLiteral_error_append {opcode : Opcode} {text tail : List Char} {cause : LineError}
    (htail : ∀ d ∈ tail.head?, Text.isBlank d) (h : parseLiteral opcode text = .error cause)
    (hcause : cause ≠ .malformedOperand opcode.mnemonic .missing) :
    parseLiteral opcode (text ++ tail) = .error cause := by
  have hsep : ∀ d ∈ tail.head?, SeparatorStart d := fun d hd => Or.inl (htail d hd)
  rcases parseLiteral_error_cases h with
    ⟨-, hmissing⟩ | ⟨⟨kind, found⟩, rest, hnext, hkind, rfl⟩
      | ⟨⟨kind, digits⟩, rest, token, last, hnumber, hkind, hnext, rfl⟩
  · exact absurd hmissing hcause
  · unfold parseLiteral
    rw [next?_append_of_some hnext hsep]
    cases kind with
    | name => dsimp only; rw [quote_append _ _ htail]
    | stray => dsimp only; rw [quote_append _ _ htail]
    | number => contradiction
  · obtain rfl : kind = .number := hkind
    unfold parseLiteral
    rw [next?_append_of_some hnumber hsep]
    dsimp only
    rw [next?_append_of_some hnext hsep]
    dsimp only
    rw [quote_append _ _ htail]

/-- **What follows a line does not change its error**, if it begins with a blank and the line has
not been read to its end. -/
theorem parseLine_error_append {text tail : List Char} {cause : LineError}
    (htail : ∀ d ∈ tail.head?, Text.isBlank d) (h : parseLine text = .error cause)
    (hmissing : ∀ mnemonic, cause ≠ .malformedOperand mnemonic .missing)
    (hrange : ∀ opcode literal largest, cause ≠ .operandOutOfRange opcode literal largest) :
    parseLine (text ++ tail) = .error cause := by
  have hsep : ∀ d ∈ tail.head?, SeparatorStart d := fun d hd => Or.inl (htail d hd)
  unfold parseLine at h ⊢
  rcases hfirst : next? text with _ | ⟨token, rest⟩
  · rw [hfirst] at h
    contradiction
  rw [hfirst] at h
  rw [next?_append_of_some hfirst hsep]
  dsimp only at h ⊢
  rw [parseFirst_append token rest htail]
  rcases bind_eq_error_iff.mp h with h | ⟨opcode, hname, h⟩
  · exact bind_eq_error_iff.mpr (Or.inl h)
  refine bind_eq_error_iff.mpr (Or.inr ⟨opcode, hname, ?_⟩)
  rcases bind_eq_error_iff.mp h with h | ⟨digits, -, h⟩
  · exact bind_eq_error_iff.mpr (Or.inl (parseLiteral_error_append htail h (hmissing _)))
  rcases bind_eq_error_iff.mp h with h | ⟨i, -, h⟩
  · exact absurd (parseOperand_error h).1 (hrange _ _ _)
  · contradiction

/-! ## Kinds of errors -/

/-- The first token is a mnemonic. -/
def MnemonicFirst (ts : List Located) : Prop :=
  ∃ (first : Located) (opcode : Opcode), ts.head? = some first
    ∧ first.token = ⟨.name, opcode.mnemonic.toList⟩

/-- The tokens are a mnemonic and a number, and nothing else. -/
def MnemonicNumber (ts : List Located) : Prop :=
  ∃ (opcode : Opcode) (digits : List Char),
    ts.map (·.token) = [⟨.name, opcode.mnemonic.toList⟩, ⟨.number, digits⟩]

theorem mnemonicFirst_cons {first : Located} {others : List Located} :
    MnemonicFirst (first :: others)
      ↔ ∃ opcode : Opcode, first.token = ⟨.name, opcode.mnemonic.toList⟩ := by
  simp [MnemonicFirst]

theorem MnemonicNumber.mnemonicFirst {ts : List Located} (h : MnemonicNumber ts) :
    MnemonicFirst ts := by
  obtain ⟨opcode, digits, htokens⟩ := h
  obtain ⟨first, others, rfl, hfirst, -⟩ := List.map_eq_cons_iff.mp htokens
  exact mnemonicFirst_cons.mpr ⟨opcode, hfirst⟩

/-- **Which kind an error is**, the tokens decide. -/
theorem Blames.kinds {text : List Char} {ts : List Located} {cause : LineError}
    (h : Blames text ts cause) :
    ((∃ name, cause = .unknownMnemonic name) ↔ ¬ MnemonicFirst ts)
    ∧ ((∃ mnemonic flaw, cause = .malformedOperand mnemonic flaw) ↔
        MnemonicFirst ts ∧ ¬ MnemonicNumber ts)
    ∧ ((∃ opcode literal largest, cause = .operandOutOfRange opcode literal largest) ↔
        MnemonicNumber ts) := by
  cases h with
  | @unknownName first others hkind hunknown =>
      have hfirst : ¬ MnemonicFirst (first :: others) := by
        rw [mnemonicFirst_cons]
        rintro ⟨opcode, htoken⟩
        exact hunknown opcode (congrArg Token.text htoken)
      simp [hfirst, mt MnemonicNumber.mnemonicFirst hfirst]
  | @notName first others word hkind hquoted =>
      have hfirst : ¬ MnemonicFirst (first :: others) := by
        rw [mnemonicFirst_cons]
        rintro ⟨opcode, htoken⟩
        exact hkind (congrArg Token.kind htoken)
      simp [hfirst, mt MnemonicNumber.mnemonicFirst hfirst]
  | @missing first opcode hmnemonic =>
      have hfirst : MnemonicFirst [first] := mnemonicFirst_cons.mpr ⟨opcode, hmnemonic⟩
      have hnumber : ¬ MnemonicNumber [first] := by simp [MnemonicNumber]
      simp [hfirst, hnumber]
  | @notNumber first second others opcode word hmnemonic hkind hquoted =>
      have hfirst : MnemonicFirst (first :: second :: others) :=
        mnemonicFirst_cons.mpr ⟨opcode, hmnemonic⟩
      have hnumber : ¬ MnemonicNumber (first :: second :: others) := by
        rintro ⟨other, digits, htokens⟩
        exact hkind (congrArg Token.kind (List.cons.inj (List.cons.inj htokens).2).1)
      simp [hfirst, hnumber]
  | @trailing first second third others opcode word hmnemonic hkind hquoted =>
      have hfirst : MnemonicFirst (first :: second :: third :: others) :=
        mnemonicFirst_cons.mpr ⟨opcode, hmnemonic⟩
      have hnumber : ¬ MnemonicNumber (first :: second :: third :: others) := by
        simp [MnemonicNumber]
      simp [hfirst, hnumber]
  | @tooLarge first second opcode hmnemonic hkind hlarge =>
      have hnumber : MnemonicNumber [first, second] := by
        refine ⟨opcode, second.token.text, ?_⟩
        rw [List.map_cons, List.map_singleton, hmnemonic, ← hkind]
      simp [hnumber, hnumber.mnemonicFirst]

/--
**Errors name the leftmost fault and quote it truthfully.**

A line that cannot be read has an unknown mnemonic just when its first token is no mnemonic, a
malformed operand just when it is but the tokens are not exactly a mnemonic and a number, and an
operand out of range otherwise. What the error holds is that of `Blames`: a name as the token is, a
literal as it is written with the largest operand, and any other token as the word at its
place (`QuotedAt`). Unless the operand is missing or too large, the error is the same whatever
follows the line behind a blank.
-/
theorem parseLine_error_names_leftmost_fault {text : List Char} {cause : LineError}
    (h : parseLine text = .error cause) :
    ((∃ name, cause = .unknownMnemonic name) ↔ ¬ MnemonicFirst (tokens text))
    ∧ ((∃ mnemonic flaw, cause = .malformedOperand mnemonic flaw) ↔
        MnemonicFirst (tokens text) ∧ ¬ MnemonicNumber (tokens text))
    ∧ ((∃ opcode literal largest, cause = .operandOutOfRange opcode literal largest) ↔
        MnemonicNumber (tokens text))
    ∧ Blames text (tokens text) cause
    ∧ ((∀ mnemonic, cause ≠ .malformedOperand mnemonic .missing) →
        (∀ opcode literal largest, cause ≠ .operandOutOfRange opcode literal largest) →
        ∀ blanks more, blanks ≠ [] → (∀ c ∈ blanks, Text.isBlank c) →
          parseLine (text ++ blanks ++ more) = .error cause) := by
  have hblames := blames_of_parseLine h
  obtain ⟨hunknown, hmalformed, hrange⟩ := hblames.kinds
  refine ⟨hunknown, hmalformed, hrange, hblames, ?_⟩
  intro hnotMissing hnotRange blanks more hne hblanks
  obtain ⟨c, others, rfl⟩ := List.exists_cons_of_ne_nil hne
  have hhead : ∀ d ∈ (c :: others ++ more).head?, Text.isBlank d := by
    intro d hd
    exact Option.some.inj hd ▸ hblanks c List.mem_cons_self
  rw [List.append_assoc]
  exact parseLine_error_append hhead h hnotMissing hnotRange

/-- A number that goes on behind its point, whatever stands on the next line; a name that a sign
touches; and an operand with leading zeros. -/
theorem parseLine_error_names_leftmost_fault_three :
    (parseLine "# x\n\u00a0POW 3.14#".toList
        = .error (.malformedOperand "POW" (.trailing ".14#"))
      ∧ MnemonicFirst (tokens "# x\n\u00a0POW 3.14#".toList)
      ∧ parseLine ("# x\n\u00a0POW 3.14#".toList ++ ['\n'] ++ "FLY".toList)
        = .error (.malformedOperand "POW" (.trailing ".14#")))
    ∧ (parseLine "FLY+2".toList = .error (.unknownMnemonic "FLY")
      ∧ ¬ MnemonicFirst (tokens "FLY+2".toList))
    ∧ (parseLine "READ_MEM 0002048".toList
        = .error (.operandOutOfRange .readMem "0002048" 2047)
      ∧ MnemonicNumber (tokens "READ_MEM 0002048".toList)) := by
  have htrailing : parseLine "# x\n\u00a0POW 3.14#".toList
      = .error (.malformedOperand "POW" (.trailing ".14#")) := by rfl
  have hunknown : parseLine "FLY+2".toList = .error (.unknownMnemonic "FLY") := by rfl
  have hrange : parseLine "READ_MEM 0002048".toList
      = .error (.operandOutOfRange .readMem "0002048" 2047) := by rfl
  obtain ⟨-, hmalformed, -, -, hfollowed⟩ := parseLine_error_names_leftmost_fault htrailing
  obtain ⟨hname, -⟩ := parseLine_error_names_leftmost_fault hunknown
  obtain ⟨-, -, hlarge, -⟩ := parseLine_error_names_leftmost_fault hrange
  have hfeed : ∀ c ∈ ['\n'], Text.isBlank c := by
    intro c hc
    rw [List.mem_singleton.mp hc]
    decide
  exact ⟨⟨htrailing, (hmalformed.mp ⟨_, _, rfl⟩).1,
      hfollowed (by simp) (by simp) ['\n'] "FLY".toList (List.cons_ne_nil _ _) hfeed⟩,
    ⟨hunknown, hname.mp ⟨_, rfl⟩⟩, ⟨hrange, hlarge.mp ⟨_, _, _, rfl⟩⟩⟩

end AccumulatorMachine.Source
