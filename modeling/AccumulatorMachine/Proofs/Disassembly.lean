import AccumulatorMachine.Proofs.Assembly
import AccumulatorMachine.Proofs.Lines
import AccumulatorMachine.Proofs.Words

/-!
# Disassembly and assembly are inverse

Written out one to a line, instructions that fit their opcodes assemble to themselves:
joining is undone by splitting, a decimal is a way to spell its number, and the text of an
instruction is one of the spellings that the grammar allows.

That also says which byte strings can be assembled at all. The assembler makes only words
that are canonical, with a known code and no operand bit beyond the opcode's width; and a
canonical word is the word of an instruction that fits, whose text is a source for it.
-/

namespace AccumulatorMachine

namespace Source

/-! ## The text of an instruction -/

theorem toList_text (i : Instruction) :
    i.text.toList = i.opcode.mnemonic.toList ++ [' '] ++ Numeral.decimal i.operand.toNat := by
  have hdigits : (String.ofList (Numeral.decimal i.operand.toNat)).toList
      = Numeral.decimal i.operand.toNat := String.toList_ofList
  unfold Instruction.text
  rw [String.toList_append, String.toList_append, hdigits]
  rfl

/-- The text of an instruction is a way to write it. -/
theorem spells_text {i : Instruction} (h : i.InRange) : Spells i.text.toList i := by
  have hfits : i.operand.toNat ≤ 2 ^ i.opcode.bits - 1 :=
    (Instruction.inRange_iff_le i).mp h
  have hspells := Spells.intro (i := i) .nil (.blank (c := ' ') (by decide) .nil)
    (List.cons_ne_nil _ _) (Numeral.decimal_ne_nil i.operand.toNat)
    (fun _ => Numeral.isDigit_of_mem_decimal) (Numeral.ofDecimal_decimal _) hfits .nil
  rw [List.nil_append, List.append_nil] at hspells
  rw [toList_text]
  exact hspells

/-- The text of an instruction is a line. -/
theorem plain_text (i : Instruction) : Text.Plain i.text.toList := by
  have hdigit : ∀ c ∈ Numeral.decimal i.operand.toNat, c.isDigit :=
    fun _ => Numeral.isDigit_of_mem_decimal
  have hmnemonic : '\n' ∉ i.opcode.mnemonic.toList := by cases i.opcode <;> decide
  rw [toList_text]
  refine ⟨by simp, ?_, ?_⟩
  · intro hfeed
    rcases List.mem_append.mp hfeed with hfront | hback
    · rcases List.mem_append.mp hfront with hname | hspace
      · exact hmnemonic hname
      · revert hspace; decide
    · have := hdigit _ hback
      revert this; decide
  -- the last character is a digit, and so no carriage return
  · rw [List.getLast?_append_of_ne_nil _ (Numeral.decimal_ne_nil _)]
    intro hlast
    have := hdigit _ (List.mem_of_getLast? hlast)
    revert this; decide

/-- **Instructions that fit are assembled from their texts.** -/
theorem assemble_texts {is : List Instruction} (h : ∀ i ∈ is, i.InRange) :
    assemble ("\n".intercalate (is.map Instruction.text)) = .ok (.ofInstructions is) := by
  have hlines : Text.lines ("\n".intercalate (is.map Instruction.text)).toList
      = is.map (fun i => i.text.toList) := by
    rw [String.toList_intercalate, List.map_map]
    refine Text.lines_intercalate _ (fun line hline => ?_)
    obtain ⟨i, -, rfl⟩ := List.mem_map.mp hline
    exact plain_text i
  have hparse : ∀ i ∈ is, parseLine i.text.toList = .ok (some i) :=
    fun i hi => parseLine_eq_some_iff_spells.mpr (spells_text (h i hi))
  rw [assemble_eq_ok_iff]
  refine ⟨fun line hline => ?_, ?_⟩
  · rw [hlines] at hline
    obtain ⟨i, hi, rfl⟩ := List.mem_map.mp hline
    exact ⟨some i, hparse i hi⟩
  · have hon : ∀ i ∈ is, instructionOn? i.text.toList = some i :=
      fun i hi => instructionOn?_of_parseLine (hparse i hi)
    unfold instructionsOf
    rw [hlines, List.filterMap_map]
    congr 1
    exact ((List.filterMap_congr hon).trans List.filterMap_some).symm

/-! ## The image of the assembler -/

/-- Instructions that are read fit their opcodes. -/
theorem inRange_of_parseLine {line : List Char} {i : Instruction}
    (h : parseLine line = .ok (some i)) : i.InRange := by
  obtain ⟨_, _, _, _, _, _, _, hfits⟩ := parseLine_eq_some_iff_tokens.mp h
  exact (Instruction.inRange_iff_le i).mpr hfits

theorem inRange_of_mem_instructionsOf {source : String} {i : Instruction}
    (h : i ∈ instructionsOf source) : i.InRange := by
  obtain ⟨line, -, hline⟩ := List.mem_filterMap.mp h
  unfold instructionOn? at hline
  split at hline
  · rename_i found hparse
    subst hline
    exact inRange_of_parseLine hparse
  · contradiction

/--
**Disassembly and assembly are inverse, and exactly the canonical programs are assembled.**

Instructions that fit their opcodes, written out one to a line, assemble to their program and
their trace. And a byte string is the binary form of some assembly just when it is made of whole
words that are canonical.
-/
theorem assemble_inverts_disassembly :
    (∀ is : List Instruction, (∀ i ∈ is, i.InRange) →
      assemble ("\n".intercalate (is.map Instruction.text))
        = .ok ⟨.ofInstructions is, is.map .ofInstruction⟩)
    ∧ ∀ bytes : List UInt8,
        (∃ source a, assemble source = .ok a ∧ a.program.toBytes = bytes) ↔
          bytes.length % 4 = 0 ∧ ∀ word ∈ Program.wordsOfBytes bytes, word.Canonical := by
  refine ⟨fun is h => assemble_texts h, fun bytes => ⟨fun h => ?_, fun h => ?_⟩⟩
  · obtain ⟨source, a, ha, rfl⟩ := h
    obtain ⟨-, rfl⟩ := assemble_eq_ok_iff.mp ha
    refine ⟨by rw [Program.length_toBytes, Nat.mul_mod_right], fun word hword => ?_⟩
    unfold Program.toBytes at hword
    rw [Program.wordsOfBytes_toBytes] at hword
    obtain ⟨i, hi, rfl⟩ := List.mem_map.mp hword
    exact Instruction.canonical_encode (inRange_of_mem_instructionsOf hi)
  · obtain ⟨hwhole, hcanonical⟩ := h
    -- the source is the disassembly: the instructions in the words, one to a line
    obtain ⟨is, his, hencode⟩ := Instruction.exists_map_encode _ hcanonical
    refine ⟨_, _, assemble_texts his, ?_⟩
    unfold Assembly.ofInstructions Program.ofInstructions Program.toBytes
    dsimp only
    rw [hencode, Program.toBytes_wordsOfBytes bytes hwhole]

/-- Two instructions with operands at the ends of their ranges, and the bytes of their words. -/
theorem assemble_inverts_disassembly_two :
    assemble "READ_MEM 2047\nPOW 0"
        = .ok ⟨⟨[0x0007FFA5, 0x0000002F]⟩,
          [⟨"READ_MEM", 165, 2047, 0x0007FFA5⟩, ⟨"POW", 47, 0, 0x0000002F⟩]⟩
    ∧ ∃ source a, assemble source = .ok a
        ∧ a.program.toBytes = [0xA5, 0xFF, 0x07, 0x00, 0x2F, 0x00, 0x00, 0x00] := by
  refine ⟨?_, ?_⟩
  · exact assemble_inverts_disassembly.1 [⟨.readMem, 2047⟩, ⟨.pow, 0⟩] (by decide)
  · refine (assemble_inverts_disassembly.2 _).mpr ⟨by decide, ?_⟩
    have hwords : Program.wordsOfBytes [0xA5, 0xFF, 0x07, 0x00, 0x2F, 0x00, 0x00, 0x00]
        = [0x0007FFA5, 0x0000002F] := by decide
    rw [hwords]
    exact List.forall_mem_cons.mpr ⟨by decide, List.forall_mem_singleton.mpr (by decide)⟩

end Source

end AccumulatorMachine
