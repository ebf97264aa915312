import AccumulatorMachine.Proofs.Lexing
import AccumulatorMachine.Proofs.Words
import AccumulatorMachine.Source.Line

/-!
# The line parser accepts its grammar

`parseLine` works on tokens and `Spells` on characters, and `next?_eq_some_iff` is what
connects them. Where the parser demands a name and then a number, the grammar demands that
a gap between them is not empty; the two demands are the same, because a name is as long as
it can be and would take the first digit with it.

The value of an operand is a natural number in the grammar, as large as its digits say, while
the parser has 64 bits for it and then the width. Digits are given up only where their value
no longer fits 64 bits, and then it does not fit the width either; so the width alone decides,
and no length of digits and no number of leading zeros is special.
-/

namespace AccumulatorMachine.Source

/-- A chain of two steps succeeds when both do. -/
theorem bind_eq_ok_iff {ε α β : Type} {x : Except ε α} {f : α → Except ε β} {b : β} :
    (x >>= f) = .ok b ↔ ∃ a, x = .ok a ∧ f a = .ok b := by
  cases x with
  | ok a => exact ⟨fun h => ⟨a, rfl, h⟩, fun ⟨_, ha, h⟩ => Except.ok.inj ha ▸ h⟩
  | error e =>
      refine ⟨fun h => ?_, fun ⟨_, ha, _⟩ => ?_⟩
      · cases h
      · cases ha

/-- A chain of two steps fails in the first, or in the second. -/
theorem bind_eq_error_iff {ε α β : Type} {x : Except ε α} {f : α → Except ε β} {e : ε} :
    (x >>= f) = .error e ↔ x = .error e ∨ ∃ a, x = .ok a ∧ f a = .error e := by
  cases x with
  | ok a =>
      refine ⟨fun h => Or.inr ⟨a, rfl, h⟩, ?_⟩
      rintro (h | ⟨_, ha, h⟩)
      · cases h
      · exact Except.ok.inj ha ▸ h
  | error first =>
      refine ⟨fun h => ?_, ?_⟩
      · cases h
        exact Or.inl rfl
      · rintro (h | ⟨_, ha, _⟩)
        · cases h
          rfl
        · cases ha

/-! ## The three parts of a line -/

theorem parseFirst_eq_ok_iff {token : Token} {rest : List Char} {opcode : Opcode} :
    parseFirst token rest = .ok opcode ↔ token = ⟨.name, opcode.mnemonic.toList⟩ := by
  obtain ⟨kind, text⟩ := token
  cases kind with
  | name =>
      unfold parseFirst parseMnemonic
      dsimp only
      have hname : Opcode.ofMnemonic? (.ofList text) = some opcode ↔
          text = opcode.mnemonic.toList := by
        rw [Opcode.ofMnemonic?_eq_some_iff]
        exact ⟨fun h => by rw [h, String.toList_ofList], fun h => by rw [h, String.ofList_toList]⟩
      rw [Token.mk.injEq, ← hname]
      cases Opcode.ofMnemonic? (.ofList text) with
      | none => simp
      | some found => simp
  | number => simp [parseFirst]
  | stray => simp [parseFirst]

theorem parseLiteral_eq_ok_iff {opcode : Opcode} {text digits : List Char} :
    parseLiteral opcode text = .ok digits ↔
      ∃ rest, next? text = some (⟨.number, digits⟩, rest) ∧ next? rest = none := by
  unfold parseLiteral
  rcases next? text with _ | ⟨⟨kind, found⟩, rest⟩
  · simp
  · cases kind with
    | name => simp
    | stray => simp
    | number =>
        dsimp only
        rcases hlast : next? rest with _ | ⟨token, last⟩
        · simp [hlast]
        · simp [hlast]

/-- An operand is read in two stages, and either can refuse it. -/
theorem parseOperand_eq_ok_iff_stages {opcode : Opcode} {digits : List Char} {i : Instruction} :
    parseOperand opcode digits = .ok i ↔
      ∃ value, Numeral.ofDecimal64? digits = some value
        ∧ Instruction.ofOperand opcode value = .ok i := by
  unfold parseOperand
  rcases Numeral.ofDecimal64? digits with _ | value
  · simp
  · dsimp only
    rcases hmade : Instruction.ofOperand opcode value with cause | made
    · cases cause <;> simp [hmade]
    · simp [hmade]

/-- The 64 bits of the first stage are more than any operand has, so only the second decides. -/
theorem parseOperand_eq_ok_iff {opcode : Opcode} {digits : List Char} {i : Instruction} :
    parseOperand opcode digits = .ok i ↔
      i.opcode = opcode ∧ Numeral.ofDecimal digits = i.operand.toNat
        ∧ i.operand.toNat ≤ 2 ^ i.opcode.bits - 1 := by
  have hsmall : i.operand.toNat < UInt64.size :=
    Nat.lt_trans i.operand.toNat_lt (by decide)
  rw [parseOperand_eq_ok_iff_stages, ← Instruction.inRange_iff_le]
  refine ⟨fun h => ?_, fun h => ?_⟩
  · obtain ⟨value, hvalue, hmade⟩ := h
    obtain ⟨hop, hoperand, hrange⟩ := Instruction.ofOperand_eq_ok_iff.mp hmade
    have hdigits := (Numeral.ofDecimal64?_eq_some_iff.mp hvalue).1
    exact ⟨hop, hdigits.trans hoperand.symm, hrange⟩
  · obtain ⟨hop, hdigits, hrange⟩ := h
    refine ⟨i.operand.toNat, ?_, ?_⟩
    · exact Numeral.ofDecimal64?_eq_some_iff.mpr ⟨hdigits, hsmall⟩
    · exact Instruction.ofOperand_eq_ok_iff.mpr ⟨hop, rfl, hrange⟩

/-- The tokens of a line with an instruction on it. -/
theorem parseLine_eq_some_iff_tokens {text : List Char} {i : Instruction} :
    parseLine text = .ok (some i) ↔
      ∃ rest digits last,
        next? text = some (⟨.name, i.opcode.mnemonic.toList⟩, rest)
        ∧ next? rest = some (⟨.number, digits⟩, last) ∧ next? last = none
        ∧ Numeral.ofDecimal digits = i.operand.toNat ∧ i.operand.toNat ≤ 2 ^ i.opcode.bits - 1 := by
  unfold parseLine
  rcases next? text with _ | ⟨token, rest⟩
  · simp
  · dsimp only
    simp only [bind_eq_ok_iff, parseFirst_eq_ok_iff, parseLiteral_eq_ok_iff, parseOperand_eq_ok_iff]
    refine ⟨fun h => ?_, fun h => ?_⟩
    · obtain ⟨opcode, rfl, digits, ⟨last, hnumber, hlast⟩, j, ⟨rfl, hvalue, hle⟩, hj⟩ := h
      obtain rfl : j = i := Option.some.inj (Except.ok.inj hj)
      exact ⟨rest, digits, last, rfl, hnumber, hlast, hvalue, hle⟩
    · obtain ⟨_, digits, last, hname, hnumber, hlast, hvalue, hle⟩ := h
      obtain ⟨rfl, rfl⟩ := Prod.mk.inj (Option.some.inj hname)
      exact ⟨i.opcode, rfl, digits, ⟨last, hnumber, hlast⟩, i, ⟨rfl, hvalue, hle⟩, rfl⟩

/-! ## From tokens to characters -/

/-- A mnemonic is made like a name. -/
theorem mnemonic_chars (opcode : Opcode) :
    opcode.mnemonic.toList ≠ [] ∧ opcode.mnemonic.toList.head?.all isNameStart
      ∧ opcode.mnemonic.toList.tail.all isNameChar := by
  cases opcode <;> decide

theorem stands_mnemonic {opcode : Opcode} {rest : List Char}
    (hstop : ∀ d ∈ rest.head?, SeparatorStart d) : Stands ⟨.name, opcode.mnemonic.toList⟩ rest := by
  obtain ⟨hne, hstart, hmore⟩ := mnemonic_chars opcode
  obtain ⟨c, more, htext⟩ := List.exists_cons_of_ne_nil hne
  rw [htext] at hstart hmore ⊢
  exact .name hstart (List.all_eq_true.mp hmore)
    (fun d hd => not_isNameChar_of_separatorStart (hstop d hd))

theorem stands_digits {digits rest : List Char} (hne : digits ≠ [])
    (hdigits : ∀ c ∈ digits, c.isDigit) (hstop : ∀ d ∈ rest.head?, SeparatorStart d) : Stands ⟨.number, digits⟩ rest := by
  obtain ⟨c, more, rfl⟩ := List.exists_cons_of_ne_nil hne
  obtain ⟨hc, hmore⟩ := List.forall_mem_cons.mp hdigits
  exact .number hc hmore (fun d hd hdigit =>
    not_isNameChar_of_separatorStart (hstop d hd) (isNameChar_of_isDigit hdigit))

/-- Number tokens are digits. -/
theorem Stands.digits {digits rest : List Char} (h : Stands ⟨.number, digits⟩ rest) :
    digits ≠ [] ∧ ∀ c ∈ digits, c.isDigit := by
  cases h with
  | number hstart hmore _ => exact ⟨List.cons_ne_nil _ _, List.forall_mem_cons.mpr ⟨hstart, hmore⟩⟩

/-- A name is not followed by a character of a name. -/
theorem Stands.name_stop {name rest : List Char} (h : Stands ⟨.name, name⟩ rest) :
    ∀ d ∈ rest.head?, ¬ isNameChar d := by
  cases h with
  | name _ _ hstop => exact hstop

/-- **A line holds an instruction** just when it is a way to write it. -/
theorem parseLine_eq_some_iff_spells {text : List Char} {i : Instruction} :
    parseLine text = .ok (some i) ↔ Spells text i := by
  rw [parseLine_eq_some_iff_tokens]
  refine ⟨fun h => ?_, fun h => ?_⟩
  · obtain ⟨rest, digits, last, hname, hnumber, hlast, hvalue, hfits⟩ := h
    obtain ⟨before, rfl, hlead, hstands⟩ := next?_eq_some_iff.mp hname
    obtain ⟨between, rfl, hinner, hdigits⟩ := next?_eq_some_iff.mp hnumber
    obtain ⟨hne, hall⟩ := hdigits.digits
    -- without a gap between them the name would have taken the first digit
    have hapart : between ≠ [] := by
      rintro rfl
      obtain ⟨c, more, rfl⟩ := List.exists_cons_of_ne_nil hne
      exact hstands.name_stop c rfl (isNameChar_of_isDigit (hall c (List.mem_cons_self)))
    have hspells := Spells.intro (i := i) (by simpa using hlead) hinner hapart hne hall hvalue hfits
      (next?_eq_none_iff.mp hlast)
    simpa using hspells
  · obtain ⟨hlead, hinner, hapart, hne, hall, hvalue, hfits, hafter⟩ := h
    rename_i before between digits after
    -- a gap that is not empty begins with a separator, and that ends the name
    have hbetween : ∀ d ∈ (between ++ (digits ++ after)).head?, SeparatorStart d := by
      obtain ⟨c, more, rfl⟩ := List.exists_cons_of_ne_nil hapart
      exact hinner.head
    refine ⟨between ++ (digits ++ after), digits, after, ?_, ?_, ?_, hvalue, hfits⟩
    · refine next?_eq_some_iff.mpr ⟨before, by simp, by simpa using hlead, stands_mnemonic hbetween⟩
    · exact next?_eq_some_iff.mpr ⟨between, rfl, hinner, stands_digits hne hall hafter.head⟩
    · exact next?_eq_none_iff.mpr hafter

example : parseLine "POW#c\n03".toList = .ok (some ⟨.pow, 3⟩) := by rfl

/-- **A line holds nothing** just when it is all gap. -/
theorem parseLine_eq_none_iff_gap {text : List Char} : parseLine text = .ok none ↔ Gap text [] := by
  rw [← next?_eq_none_iff]
  unfold parseLine
  rcases next? text with _ | ⟨token, rest⟩
  · simp
  · dsimp only
    simp [bind_eq_ok_iff]

/--
**The line parser accepts exactly its grammar.**

A text is read as nothing when it is all separators, and as an instruction when it is a gap, the
mnemonic, a gap that is not empty, digits whose value is the operand and fits its width, and a
gap; every other text is an error.
-/
theorem parseLine_accepts_grammar (text : List Char) :
    (parseLine text = .ok none ↔ Gap text [])
    ∧ (∀ i, parseLine text = .ok (some i) ↔ Spells text i)
    ∧ ((∃ cause, parseLine text = .error cause) ↔ ¬ Gap text [] ∧ ∀ i, ¬ Spells text i) := by
  refine ⟨parseLine_eq_none_iff_gap, fun i => parseLine_eq_some_iff_spells, ?_⟩
  rw [← parseLine_eq_none_iff_gap]
  simp only [← parseLine_eq_some_iff_spells]
  rcases parseLine text with cause | _ | i
  · simp
  · simp
  · simp

end AccumulatorMachine.Source
