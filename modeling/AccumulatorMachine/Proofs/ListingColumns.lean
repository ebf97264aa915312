import AccumulatorMachine.Proofs.Codec
import AccumulatorMachine.Proofs.Listing

/-!
# Reading a listing back

A line has three columns: an index, a word and a text. The first two are numbers with zeros in
front, the index of any width from four and the word always of eight, and the characters between
the columns are such that it is seen where a column ends. `Shows` says this of a line without
saying how the line was made, and from it alone the columns are read back.

So different words never have the same line, whatever its index, and a listing has only one
program. The text column is the weaker one. It shows as much of the word as counts, so it leads
back to the word of the instruction and not always to the word itself.
-/

namespace AccumulatorMachine

namespace Listing

/-! ## Columns -/

/-- A line that shows an index, a word and what is in the word. -/
inductive Shows (index : Nat) (word : Word) : List Char → Prop
  /-- The index has more than four digits only where four do not suffice. -/
  | intro {digits hex : List Char} (allDigits : ∀ c ∈ digits, c.isDigit)
      (number : Numeral.ofDecimal digits = index) (four : 4 ≤ digits.length)
      (wider : 4 < digits.length ↔ 9999 < index)
      (eight : hex.length = 8) (value : Numeral.ofHexadecimal? hex = some word.toNat) :
      Shows index word (digits ++ ':' :: ' ' :: '0' :: 'x' ::
        (hex ++ ' ' :: ' ' :: (instructionText word).toList))

/-- The text column of a line. -/
def textColumn? (line : List Char) : Option (List Char) :=
  match line.dropWhile Char.isDigit with
  | ':' :: ' ' :: '0' :: 'x' :: rest =>
    match rest.drop 8 with
    | ' ' :: ' ' :: text => some text
    | _ => none
  | _ => none

theorem shows_line (index : Nat) (word : Word) : Shows index word (line index word) := by
  have hlength := Numeral.length_padded 4 (Numeral.decimal index)
  have hfour : (Numeral.decimal index).length ≤ 4 ↔ index < 10 ^ 4 :=
    Nat.length_toDigits_le_iff (by decide) (by decide)
  have hline : line index word = Numeral.padded 4 (Numeral.decimal index)
      ++ ':' :: ' ' :: '0' :: 'x' :: (Numeral.hexadecimal 8 word.toNat
        ++ ' ' :: ' ' :: (instructionText word).toList) := by
    unfold line
    rw [Word.toList_text]
    simp
  rw [hline]
  refine .intro (fun _ => Numeral.isDigit_of_mem_padded) ?_ ?_ ?_ ?_ ?_
  · rw [Numeral.ofDecimal_padded, Numeral.ofDecimal_decimal]
  · omega
  · omega
  · exact Numeral.length_hexadecimal (by decide) word.toNat_lt
  · exact Numeral.ofHexadecimal?_hexadecimal 8 word.toNat

/-- A colon is no digit, so the index ends before it. -/
theorem span_index {digits : List Char} (h : ∀ c ∈ digits, c.isDigit) (rest : List Char) :
    (digits ++ ':' :: rest).takeWhile Char.isDigit = digits
      ∧ (digits ++ ':' :: rest).dropWhile Char.isDigit = ':' :: rest :=
  Lists.span_append h (by simp)

/-- The first two columns are read back. -/
theorem Shows.readLine? {index : Nat} {word : Word} {line : List Char}
    (h : Shows index word line) : readLine? line = some (index, word) := by
  obtain ⟨hdigits, hnumber, -, -, height, hvalue⟩ := h
  obtain ⟨htake, hdrop⟩ := span_index hdigits _
  unfold Listing.readLine?
  rw [htake, hdrop]
  show (Numeral.ofHexadecimal? (List.take 8 (_ ++ _))).map _ = _
  rw [List.take_left' height, hvalue, Option.map_some, hnumber, UInt32.ofNat_toNat]

/-- And so is the third. -/
theorem Shows.textColumn? {index : Nat} {word : Word} {line : List Char}
    (h : Shows index word line) : textColumn? line = some (instructionText word).toList := by
  obtain ⟨hdigits, -, -, -, height, -⟩ := h
  obtain ⟨-, hdrop⟩ := span_index hdigits _
  unfold Listing.textColumn?
  rw [hdrop]
  show (match List.drop 8 (_ ++ _) with
    | ' ' :: ' ' :: text => some text
    | _ => none) = _
  rw [List.drop_left' height]
  rfl

theorem line_injective (index : Nat) : Function.Injective (line index) := by
  intro v w hsame
  have hv := (shows_line index v).readLine?
  rw [hsame, (shows_line index w).readLine?] at hv
  exact (Prod.mk.inj (Option.some.inj hv)).2.symm

end Listing

/-- The text of an instruction that was decoded is a source for it. -/
theorem Source.assemble_text_of_decode {word : Word} {i : Instruction}
    (h : Instruction.decode? word = some i) : assemble i.text = .ok (.ofInstructions [i]) := by
  have hone : assemble ("\n".intercalate ([i].map Instruction.text)) = .ok (.ofInstructions [i]) :=
    assemble_texts (List.forall_mem_singleton.mpr (Instruction.inRange_of_decode h))
  rwa [List.map_singleton, String.intercalate_singleton] at hone

theorem Listing.instructionText_of_decode {word : Word} {i : Instruction}
    (h : Instruction.decode? word = some i) : instructionText word = i.text := by
  unfold instructionText
  rw [h]

namespace Program

/-- A listing is its lines, each closed by a line feed. -/
theorem listing_eq_flatMap_lines (p : Program) :
    p.listing.toList = (Text.lines p.listing.toList).flatMap (· ++ ['\n']) := by
  rw [lines_listing, List.flatMap_map]
  unfold listing
  rw [String.toList_ofList]

theorem not_mem_of_mem_lines_listing (p : Program) {line : List Char}
    (h : line ∈ Text.lines p.listing.toList) : '\n' ∉ line := by
  rw [lines_listing] at h
  obtain ⟨⟨word, index⟩, -, rfl⟩ := List.mem_map.mp h
  exact (Listing.not_mem_line index word).1

theorem listing_injective : Function.Injective listing := by
  rintro ⟨code⟩ ⟨code'⟩ hsame
  refine congrArg mk (List.ext_getElem? fun k => ?_)
  have hk := getElem?_lines_listing ⟨code⟩ k
  rw [hsame, getElem?_lines_listing ⟨code'⟩ k] at hk
  exact (Option.map_injective (Listing.line_injective k) hk).symm

/--
**A listing determines its program.**

The listing of a program is one line for each word, in order, each closed by a line feed and with
none in it. The line of a word shows its place, in decimal with at least four digits and more only
beyond 9999, and all of its 32 bits, in hexadecimal with eight digits; both are read back from the
line. If the code of the word is known, the text column of the line is a source for one word: that
of the instruction in it. And no two programs have the same listing.
-/
theorem listing_determines_program :
    (∀ p : Program, ∃ lines : List (List Char),
      p.listing.toList = lines.flatMap (· ++ ['\n'])
      ∧ (∀ line ∈ lines, '\n' ∉ line)
      ∧ lines.length = p.code.length
      ∧ ∀ (k : Nat) (word : Word), p.code[k]? = some word → ∃ line, lines[k]? = some line
          ∧ Listing.Shows k word line
          ∧ Listing.readLine? line = some (k, word)
          ∧ (¬ word.Unknown → ∃ i text, Instruction.decode word = .ok i
              ∧ Listing.textColumn? line = some text
              ∧ Source.assemble (.ofList text) = .ok ⟨⟨[i.encode]⟩, [.ofInstruction i]⟩))
    ∧ Function.Injective Program.listing := by
  refine ⟨fun p => ?_, listing_injective⟩
  refine ⟨Text.lines p.listing.toList, p.listing_eq_flatMap_lines,
    fun _ => p.not_mem_of_mem_lines_listing, ?_, fun k word hword => ?_⟩
  · rw [lines_listing, List.length_map, List.length_zipIdx]
  have hshows := Listing.shows_line k word
  refine ⟨Listing.line k word, ?_, hshows, hshows.readLine?, fun hknown => ?_⟩
  · rw [getElem?_lines_listing, hword, Option.map_some]
  · obtain ⟨i, hi⟩ := Instruction.exists_decode?_iff.mpr hknown
    refine ⟨i, _, Instruction.decode_eq_ok_iff.mpr hi, hshows.textColumn?, ?_⟩
    rw [Listing.instructionText_of_decode hi, String.ofList_toList]
    exact Source.assemble_text_of_decode hi

/-- Ten thousand unknown words, and behind them one with an index of five digits and with all bits
set that do not count. -/
theorem listing_determines_program_five_digits :
    (Program.mk (List.replicate 10000 0x0100 ++ [0xFFFFFFA5])).code[10000]? = some 0xFFFFFFA5
    ∧ ¬ Word.Unknown 0xFFFFFFA5
    ∧ ∃ (lines : List (List Char)) (line text : List Char),
        (Program.mk (List.replicate 10000 0x0100 ++ [0xFFFFFFA5])).listing.toList
          = lines.flatMap (· ++ ['\n'])
        ∧ lines.length = 10001 ∧ lines[10000]? = some line
        ∧ Listing.readLine? line = some (10000, 0xFFFFFFA5)
        ∧ Listing.textColumn? line = some text
        ∧ Source.assemble (.ofList text)
          = .ok ⟨⟨[0x0007FFA5]⟩, [⟨"READ_MEM", 165, 2047, 0x0007FFA5⟩]⟩ := by
  have hplace : (Program.mk (List.replicate 10000 0x0100 ++ [0xFFFFFFA5])).code[10000]?
      = some 0xFFFFFFA5 := by
    have hlast := List.getElem?_concat_length (l := List.replicate 10000 (0x0100 : Word))
      (a := 0xFFFFFFA5)
    rwa [List.length_replicate] at hlast
  have hknown : ¬ Word.Unknown 0xFFFFFFA5 := fun h => h .readMem rfl
  have hdecode : Instruction.decode 0xFFFFFFA5 = .ok ⟨.readMem, 2047⟩ := by rfl
  obtain ⟨lines, hlisting, -, hlength, hlines⟩ := listing_determines_program.1
    ⟨List.replicate 10000 0x0100 ++ [0xFFFFFFA5]⟩
  obtain ⟨line, hline, -, hread, hassembles⟩ := hlines 10000 0xFFFFFFA5 hplace
  obtain ⟨i, text, hi, htext, hsource⟩ := hassembles hknown
  obtain rfl := Except.ok.inj (hdecode.symm.trans hi)
  rw [List.length_append, List.length_replicate, List.length_singleton] at hlength
  exact ⟨hplace, hknown, lines, line, text, hlisting, hlength, hline, hread, htext, hsource⟩

end Program

end AccumulatorMachine
