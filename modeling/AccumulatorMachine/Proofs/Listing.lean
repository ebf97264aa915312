import AccumulatorMachine.Program.Listing
import AccumulatorMachine.Proofs.Disassembly
import AccumulatorMachine.Proofs.Numerals

/-!
# The lines of a listing

A listing is split into the lines that it was made of, one for each word, because no line has a
line feed or a carriage return in it. The characters that a line is made of are few: digits, the
letters of mnemonics, and some punctuation. None of them can be taken for the mark of a word without
an instruction, so the mark stands on a line only where it was put (`mark_infix_line_iff`).
-/

namespace AccumulatorMachine

theorem Word.toList_text (word : Word) :
    word.text.toList = '0' :: 'x' :: Numeral.hexadecimal 8 word.toNat := by
  have hdigits : (String.ofList (Numeral.hexadecimal 8 word.toNat)).toList
      = Numeral.hexadecimal 8 word.toNat := String.toList_ofList
  unfold Word.text
  rw [String.toList_append, hdigits]
  rfl

/-- A word with a code that no opcode has. -/
def Word.Unknown (word : Word) : Prop := ∀ opcode : Opcode, opcode.code ≠ word.code

theorem Instruction.decode?_eq_none_iff_unknown {word : Word} :
    decode? word = none ↔ word.Unknown := by
  rw [decode?_eq_none_iff, Option.eq_none_iff_forall_ne_some]
  unfold Word.Unknown
  simp only [ne_eq, Opcode.ofCode?_eq_some_iff]

theorem Instruction.exists_decode?_iff {word : Word} :
    (∃ i, decode? word = some i) ↔ ¬ word.Unknown := by
  rw [← decode?_eq_none_iff_unknown, ← Option.isSome_iff_exists, Option.isSome_iff_ne_none]

namespace Listing

/-! ## Characters -/

/-- Whether a character neither ends a line nor opens the mark. -/
def isQuiet (c : Char) : Bool := c != '\n' && c != '\r' && c != '<'

theorem isQuiet_of_isDigit {c : Char} (h : c.isDigit) : isQuiet c := by
  by_contra hc
  simp only [isQuiet, Bool.and_eq_true, bne_iff_ne, ne_eq, not_and_or, not_not] at hc
  rcases hc with (rfl | rfl) | rfl <;> contradiction

theorem isQuiet_of_hexDigit? {c : Char} {d : Nat} (h : Numeral.hexDigit? c = some d) :
    isQuiet c := by
  by_contra hc
  simp only [isQuiet, Bool.and_eq_true, bne_iff_ne, ne_eq, not_and_or, not_not] at hc
  rcases hc with (rfl | rfl) | rfl <;> contradiction

/-- What stands in front of the text column. -/
def front (index : Nat) (word : Word) : List Char :=
  Numeral.padded 4 (Numeral.decimal index) ++ ": ".toList ++ word.text.toList ++ "  ".toList

theorem isQuiet_front (index : Nat) (word : Word) : (front index word).all isQuiet := by
  have hindex : (Numeral.padded 4 (Numeral.decimal index)).all isQuiet :=
    List.all_eq_true.mpr fun c hc => isQuiet_of_isDigit (Numeral.isDigit_of_mem_padded hc)
  have hdigits : (Numeral.hexadecimal 8 word.toNat).all isQuiet := by
    refine List.all_eq_true.mpr fun c hc => ?_
    obtain ⟨d, hd⟩ := Numeral.exists_hexDigit?_of_mem
      (Numeral.ofHexadecimal?_hexadecimal 8 word.toNat) c hc
    exact isQuiet_of_hexDigit? hd
  have hword : word.text.toList.all isQuiet := by
    rw [Word.toList_text, List.all_cons, List.all_cons, hdigits]
    decide
  unfold front
  rw [List.all_append, List.all_append, List.all_append, hindex, hword]
  decide

theorem isQuiet_text (i : Instruction) : i.text.toList.all isQuiet := by
  have hmnemonic : i.opcode.mnemonic.toList.all isQuiet := by cases i.opcode <;> decide
  have hdigits : (Numeral.decimal i.operand.toNat).all isQuiet :=
    List.all_eq_true.mpr fun c hc => isQuiet_of_isDigit (Numeral.isDigit_of_mem_decimal hc)
  rw [Source.toList_text, List.all_append, List.all_append, hmnemonic, hdigits]
  decide

theorem not_mem_of_isQuiet {text : List Char} (h : text.all isQuiet) {c : Char}
    (hc : isQuiet c = false) : c ∉ text := by
  intro hmem
  rw [List.all_eq_true.mp h c hmem] at hc
  contradiction

/-! ## Lines -/

theorem line_eq (index : Nat) (word : Word) :
    line index word = front index word ++ (instructionText word).toList := rfl

/-- No line has a line feed or a carriage return in it. -/
theorem not_mem_line (index : Nat) (word : Word) :
    '\n' ∉ line index word ∧ '\r' ∉ line index word := by
  have htext : '\n' ∉ (instructionText word).toList ∧ '\r' ∉ (instructionText word).toList := by
    unfold instructionText
    cases Instruction.decode? word with
    | none => decide
    | some i =>
        exact ⟨not_mem_of_isQuiet (isQuiet_text i) rfl, not_mem_of_isQuiet (isQuiet_text i) rfl⟩
  have hfront := isQuiet_front index word
  rw [line_eq, List.mem_append, List.mem_append, not_or, not_or]
  exact ⟨⟨not_mem_of_isQuiet hfront rfl, htext.1⟩, not_mem_of_isQuiet hfront rfl, htext.2⟩

/-- **The mark stands on the lines of unknown words**, and on no others. -/
theorem mark_infix_line_iff {index : Nat} {word : Word} :
    invalidMark.toList <:+: line index word ↔ word.Unknown := by
  rw [← Instruction.decode?_eq_none_iff_unknown, line_eq]
  unfold instructionText
  cases Instruction.decode? word with
  | none => exact iff_of_true (List.suffix_append _ _).isInfix rfl
  | some i =>
      refine iff_of_false (fun hmark => ?_) (by simp)
      have hopen : '<' ∈ front index word ++ i.text.toList :=
        hmark.subset (by decide)
      rcases List.mem_append.mp hopen with h | h
      · exact not_mem_of_isQuiet (isQuiet_front index word) rfl h
      · exact not_mem_of_isQuiet (isQuiet_text i) rfl h

end Listing

theorem lines_flatMap_line (code : List Word) : ∀ first,
    Text.lines ((code.zipIdx first).flatMap fun (word, index) => Listing.line index word ++ ['\n'])
      = (code.zipIdx first).map fun (word, index) => Listing.line index word := by
  induction code with
  | nil => intro first; rfl
  | cons word code ih =>
      intro first
      obtain ⟨hfeed, hreturn⟩ := Listing.not_mem_line first word
      rw [List.zipIdx_cons, List.flatMap_cons, List.map_cons, List.append_assoc,
        List.singleton_append, Text.lines_append_feed hfeed, ih,
        Text.chomp_of_no_return (fun h => hreturn (List.mem_of_getLast? h))]

/-- **A listing is made of its lines**, one for each word, numbered from zero. -/
theorem Program.lines_listing (p : Program) :
    Text.lines p.listing.toList
      = p.code.zipIdx.map fun (word, index) => Listing.line index word := by
  unfold listing
  rw [String.toList_ofList]
  exact lines_flatMap_line p.code 0

theorem Program.getElem?_lines_listing (p : Program) (k : Nat) :
    (Text.lines p.listing.toList)[k]? = p.code[k]?.map (Listing.line k) := by
  rw [lines_listing, List.getElem?_map, List.getElem?_zipIdx, Option.map_map, Nat.zero_add]
  rfl

end AccumulatorMachine
