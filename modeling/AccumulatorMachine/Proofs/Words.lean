import AccumulatorMachine.Instruction
import Mathlib

/-!
# Operand widths and canonical words

The opcode table counts operands, and the rest of the theory speaks of bits: an operand of
`b` bits is one of `2 ^ b`. A word is *canonical* when its code is known and no bit above the
width of its opcode is set. Those are exactly the words that encoding makes from
instructions that fit, so a canonical word is the same thing as such an instruction.
-/

namespace AccumulatorMachine

theorem Opcode.operandCount_eq_two_pow (opcode : Opcode) : opcode.operandCount = 2 ^ opcode.bits :=
  Nat.one_shiftLeft _

namespace Instruction

theorem inRange_iff_lt_two_pow (i : Instruction) :
    i.InRange ↔ i.operand.toNat < 2 ^ i.opcode.bits := by
  rw [inRange_iff, Opcode.operandCount_eq_two_pow]

theorem inRange_iff_le (i : Instruction) : i.InRange ↔ i.operand.toNat ≤ 2 ^ i.opcode.bits - 1 := by
  have := Nat.two_pow_pos i.opcode.bits
  rw [inRange_iff_lt_two_pow]
  omega

/-! ## The instruction in a word -/

theorem exists_decode_of_code {word : Word} {opcode : Opcode} (h : opcode.code = word.code) :
    ∃ i, decode? word = some i ∧ i.opcode = opcode := by
  unfold decode?
  rw [Opcode.ofCode?_eq_some_iff.mpr h]
  exact ⟨_, rfl, rfl⟩

theorem opcode_eq_iff_of_decode {word : Word} {i : Instruction} (h : decode? word = some i)
    (opcode : Opcode) : i.opcode = opcode ↔ word.code = opcode.code := by
  rw [← (decode?_eq_some_iff.mp h).1, ← Opcode.ofCode?_eq_some_iff, Opcode.ofCode?_code,
    Option.some.injEq, eq_comm]

theorem significant_of_decode {word : Word} {i : Instruction} (h : decode? word = some i) :
    i.significant = word.operand % 2 ^ i.opcode.bits := by
  obtain ⟨_, hoperand⟩ := decode?_eq_some_iff.mp h
  unfold significant
  rw [hoperand, Nat.mod_mod, Opcode.operandCount_eq_two_pow]

theorem toNat_code_of_decode {word : Word} {i : Instruction} (h : decode? word = some i) :
    word.toNat % 256 = i.opcode.code.toNat := by
  obtain ⟨hcode, _⟩ := decode?_eq_some_iff.mp h
  rw [hcode, Word.toNat_code]

end Instruction

/-! ## Canonical words -/

/-- The code is known, and no bit is set above the width of its opcode's operand. -/
def Word.Canonical (word : Word) : Prop :=
  ∃ opcode : Opcode, opcode.code = word.code ∧ word.operand < 2 ^ opcode.bits

instance (word : Word) : Decidable word.Canonical :=
  decidable_of_iff (∃ opcode ∈ Opcode.all, opcode.code = word.code ∧ word.operand < 2 ^ opcode.bits)
    ⟨fun ⟨opcode, _, h⟩ => ⟨opcode, h⟩, fun ⟨opcode, h⟩ => ⟨opcode, opcode.mem_all, h⟩⟩

theorem Word.operand_lt (word : Word) : word.operand < 0x1000000 := by
  have := word.toNat_lt
  unfold operand
  omega

namespace Instruction

theorem canonical_encode {i : Instruction} (h : i.InRange) : i.encode.Canonical := by
  -- every width lies inside the 24 bits that a word has, so packing drops nothing
  have hlt := (inRange_iff i).mp h
  have hwidth := i.opcode.operandCount_le
  refine ⟨i.opcode, (code_encode i).symm, ?_⟩
  unfold encode
  rw [Word.operand_pack, Nat.mod_eq_of_lt (by omega)]
  exact (inRange_iff_lt_two_pow i).mp h

/-- **A canonical word is the word of an instruction that fits.** -/
theorem exists_encode_of_canonical {word : Word} (h : word.Canonical) :
    ∃ i : Instruction, i.InRange ∧ i.encode = word := by
  obtain ⟨opcode, hcode, hoperand⟩ := h
  have hsmall := word.operand_lt
  have hvalue : (UInt32.ofNat word.operand).toNat = word.operand :=
    UInt32.toNat_ofNat_of_lt' (Nat.lt_trans hsmall (by decide))
  refine ⟨⟨opcode, .ofNat word.operand⟩, ?_, ?_⟩
  · rw [inRange_iff_lt_two_pow]
    dsimp only
    rw [hvalue]
    exact hoperand
  · apply UInt32.toNat_inj.mp
    unfold encode
    dsimp only
    rw [Word.toNat_pack, hvalue, Nat.mod_eq_of_lt hsmall, hcode, Word.toNat_eq word]

theorem exists_map_encode : ∀ (words : List Word), (∀ word ∈ words, word.Canonical) →
    ∃ is : List Instruction, (∀ i ∈ is, i.InRange) ∧ is.map encode = words := by
  intro words
  induction words with
  | nil => intro _; exact ⟨[], fun i hi => absurd hi List.not_mem_nil, rfl⟩
  | cons word words ih =>
      intro h
      obtain ⟨hword, hwords⟩ := List.forall_mem_cons.mp h
      obtain ⟨i, hi, rfl⟩ := exists_encode_of_canonical hword
      obtain ⟨is, his, rfl⟩ := ih hwords
      exact ⟨i :: is, List.forall_mem_cons.mpr ⟨hi, his⟩, rfl⟩

end Instruction

end AccumulatorMachine
