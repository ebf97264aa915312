import AccumulatorMachine.Proofs.Codec
import AccumulatorMachine.Proofs.Disassembly

/-!
# The trace beside the binary

An assembly is made of three things that run in parallel: the lines that hold an instruction, the
words of the program, and the entries of the trace. What is at one place in all three comes of one
instruction (`forall₂_writtenLines`), and that is the whole argument about places.

That the three agree there is another matter, since each keeps the operand in its own way. The
entry has it as the instruction does, the word has 24 bits of it, and decoding looks only at those
that count. They agree because an instruction that was read off a line fits its opcode, so
nothing of its operand is lost anywhere.
-/

namespace AccumulatorMachine

/-! ## Words in bytes -/

/-- The word in the four bytes from a given place on, if there are four. -/
def Word.read? (bytes : List UInt8) (place : Nat) : Option Word :=
  match bytes.drop place with
  | a :: b :: c :: d :: _ => some (.ofBytes a b c d)
  | _ => none

/-- Every fourth byte of a program begins a word. -/
theorem Program.read?_toBytes (code : List Word) : ∀ k,
    Word.read? (Program.toBytes ⟨code⟩) (4 * k) = code[k]? := by
  induction code with
  | nil =>
      intro k
      unfold Word.read? Program.toBytes
      rw [List.flatMap_nil, List.drop_nil]
      rfl
  | cons word code ih =>
      intro k
      cases k with
      | zero => exact congrArg some (Word.ofBytes_toBytes word)
      | succ k => exact ih k

namespace Source

/-! ## Lines, instructions and entries -/

instance (text : List Char) : Decidable (Gap text []) := decidable_of_iff _ next?_eq_none_iff

/-- The lines of a source that hold more than blanks and a comment. -/
def writtenLines (source : String) : List (List Char) :=
  (Text.lines source.toList).filter fun line => ¬ Gap line []

/-- **Instructions and written lines** are in step. -/
theorem forall₂_parseLine {lines : List (List Char)}
    (h : ∀ line ∈ lines, ∃ found, parseLine line = .ok found) :
    List.Forall₂ (fun line i => parseLine line = .ok (some i))
      (lines.filter fun line => ¬ Gap line []) (lines.filterMap instructionOn?) := by
  induction lines with
  | nil => exact .nil
  | cons line lines ih =>
      obtain ⟨⟨found, hfound⟩, hlines⟩ := List.forall_mem_cons.mp h
      rw [List.filterMap_cons, instructionOn?_of_parseLine hfound]
      cases found with
      | none =>
          have hgap : Gap line [] := parseLine_eq_none_iff_gap.mp hfound
          rw [List.filter_cons_of_neg (by simpa using hgap)]
          exact ih hlines
      | some i =>
          have hgap : ¬ Gap line [] := by
            intro hgap
            cases (parseLine_eq_none_iff_gap.mpr hgap).symm.trans hfound
          rw [List.filter_cons_of_pos (by simpa using hgap)]
          exact .cons hfound (ih hlines)

/-- What is at one place of an assembly, in its binary form, its program and its trace, and on the
line that it comes from. -/
structure Recorded (bytes : List UInt8) (k : Nat) (line : List Char) (word : Word)
    (entry : TraceEntry) : Prop where
  /-- The bytes of the place are those of the word. -/
  read : Word.read? bytes (4 * k) = some word
  /-- The entry has the word in full. -/
  whole : entry.word = word
  /-- The entry's code is the low byte of the word. -/
  code : entry.code.toNat = word.toNat % 256
  /-- The entry's operand is all that is above the low byte. -/
  operand : entry.operand.toNat = word.toNat / 256
  /-- The mnemonic is that of the code, and the operand fits. -/
  known : ∃ opcode : Opcode, opcode.code = entry.code ∧ opcode.mnemonic = entry.mnemonic
    ∧ entry.operand.toNat ≤ opcode.maxOperand
  /-- The instruction on the line is the one in the word. -/
  decoded : ∃ i, parseLine line = .ok (some i) ∧ Instruction.decode word = .ok i

theorem recorded_of_parseLine {code : List Word} {k : Nat} {line : List Char} {i : Instruction}
    (hline : parseLine line = .ok (some i)) (hword : code[k]? = some i.encode) :
    Recorded (Program.toBytes ⟨code⟩) k line i.encode (.ofInstruction i) := by
  have hrange := inRange_of_parseLine hline
  have hencode := Instruction.toNat_encode hrange
  have hcode := i.opcode.code.toNat_lt
  exact
    { read := (Program.read?_toBytes code k).trans hword
      whole := rfl
      code := by
        show i.opcode.code.toNat = _
        omega
      operand := by
        show i.operand.toNat = _
        omega
      known := ⟨i.opcode, rfl, rfl, hrange⟩
      decoded := ⟨i, hline, (Instruction.decode_encode_eq_self_iff i).mpr hrange⟩ }

/--
**The trace is a faithful parallel of the binary.**

If a source assembles, its program has a word, its trace an entry and its binary form four bytes
for every line with more on it than blanks and a comment. At each place the bytes are those of
the word; the entry has the word, its code and its operand, which fits, and the mnemonic of the
code; and the word decodes to the instruction that is read off the line.
-/
theorem trace_parallels_binary {source : String} {a : Assembly} (h : assemble source = .ok a) :
    a.trace.length = a.program.code.length
    ∧ a.program.code.length = (writtenLines source).length
    ∧ a.program.toBytes.length = 4 * a.program.code.length
    ∧ ∀ k < a.program.code.length, ∃ line word entry,
        (writtenLines source)[k]? = some line ∧ a.program.code[k]? = some word
        ∧ a.trace[k]? = some entry ∧ Recorded a.program.toBytes k line word entry := by
  obtain ⟨hlines, rfl⟩ := assemble_eq_ok_iff.mp h
  have hparse : List.Forall₂ (fun line i => parseLine line = .ok (some i))
      (writtenLines source) (instructionsOf source) := forall₂_parseLine hlines
  have hsize : (Program.ofInstructions (instructionsOf source)).code.length
      = (instructionsOf source).length := List.length_map _
  refine ⟨?_, ?_, Program.length_toBytes _, ?_⟩
  · exact (List.length_map _).trans hsize.symm
  · exact hsize.trans hparse.length_eq.symm
  · intro k hk
    have hi : k < (instructionsOf source).length := hsize ▸ hk
    have hl : k < (writtenLines source).length := by rw [hparse.length_eq]; exact hi
    have hword : (Program.ofInstructions (instructionsOf source)).code[k]?
        = some (instructionsOf source)[k].encode := by
      unfold Program.ofInstructions
      rw [List.getElem?_map, List.getElem?_eq_getElem hi]
      rfl
    have hentry : (Assembly.ofInstructions (instructionsOf source)).trace[k]?
        = some (.ofInstruction (instructionsOf source)[k]) := by
      unfold Assembly.ofInstructions
      rw [List.getElem?_map, List.getElem?_eq_getElem hi]
      rfl
    exact ⟨_, _, _, List.getElem?_eq_getElem hl, hword, hentry,
      recorded_of_parseLine (hparse.get hl hi) hword⟩

/-- Two instructions between a blank line and comments; the second has the largest operand. -/
theorem trace_parallels_binary_two_instructions :
    ∃ a, assemble "# start\n\nLOAD_CONST 0005\r\n \t# then\nPOW 8388607 # end" = .ok a
      ∧ a.trace.length = 2
      ∧ (writtenLines "# start\n\nLOAD_CONST 0005\r\n \t# then\nPOW 8388607 # end").length = 2
      ∧ ∃ line word entry, a.trace[1]? = some entry ∧ a.program.code[1]? = some word
        ∧ Recorded [0x42, 0x05, 0x00, 0x00, 0x2F, 0xFF, 0xFF, 0x7F] 1 line word entry := by
  have h : assemble "# start\n\nLOAD_CONST 0005\r\n \t# then\nPOW 8388607 # end"
      = .ok ⟨⟨[0x0542, 0x7FFFFF2F]⟩,
        [⟨"LOAD_CONST", 66, 5, 0x0542⟩, ⟨"POW", 47, 0x7FFFFF, 0x7FFFFF2F⟩]⟩ := by rfl
  obtain ⟨-, hwritten, -, hplaces⟩ := trace_parallels_binary h
  obtain ⟨line, word, entry, -, hword, hentry, hrecorded⟩ := hplaces 1 (by decide)
  exact ⟨_, h, rfl, hwritten.symm, line, word, entry, hentry, hword, hrecorded⟩

end Source

end AccumulatorMachine
