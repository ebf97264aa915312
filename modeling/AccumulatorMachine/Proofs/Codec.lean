import AccumulatorMachine.Proofs.Words

/-!
# Once around the word codec

There are more instructions than words that anyone would write, since the operand of an
instruction may be too wide, and more words than instructions that fit, since some words have no
opcode and others have bits set that nobody reads. The codec folds both down to the same thing.
Going once around, from an instruction to its word and back or from a word to its instruction
and back, clears the operand bits above the opcode's width and changes nothing else. So a
second turn changes nothing at all, and what a turn leaves alone are the instructions in range
on one side and the canonical words on the other.
-/

namespace AccumulatorMachine

/-- The operand bits of an opcode that count, as a mask. -/
def Opcode.mask (opcode : Opcode) : UInt32 := .ofNat opcode.maxOperand

theorem Opcode.toNat_mask (opcode : Opcode) : opcode.mask.toNat = 2 ^ opcode.bits - 1 := by
  cases opcode <;> rfl

namespace Instruction

/-! ## From an instruction -/

/-- A remainder modulo the operand count is a mask. -/
theorem masked_eq_and (i : Instruction) : i.masked = ⟨i.opcode, i.operand &&& i.opcode.mask⟩ := by
  have hoperand : i.masked.operand = i.operand &&& i.opcode.mask := by
    rw [← UInt32.toNat_inj, toNat_operand_masked, UInt32.toNat_and, Opcode.toNat_mask,
      Nat.and_two_pow_sub_one_eq_mod]
    unfold significant
    rw [Opcode.operandCount_eq_two_pow]
  rw [← hoperand]
  rfl

theorem masked_eq_masked_iff (i j : Instruction) :
    i.masked = j.masked ↔
      i.opcode = j.opcode ∧ i.operand &&& i.opcode.mask = j.operand &&& j.opcode.mask := by
  rw [masked_eq_and, masked_eq_and, Instruction.mk.injEq]

theorem decode_eq_ok_iff {word : Word} {i : Instruction} :
    decode word = .ok i ↔ decode? word = some i := by
  unfold decode
  cases decode? word with
  | some found => simp
  | none => simp

/-- Decoding fails on unknown codes only, and names them. -/
theorem decode_eq_error_iff {word : Word} {cause : FormatError} :
    decode word = .error cause ↔
      (∀ opcode : Opcode, opcode.code ≠ word.code) ∧ cause = .unknownCode word.code := by
  have hknown : decode? word = none ↔ ∀ opcode : Opcode, opcode.code ≠ word.code := by
    rw [decode?_eq_none_iff, Option.eq_none_iff_forall_ne_some]
    exact forall_congr' fun opcode => not_congr Opcode.ofCode?_eq_some_iff
  rw [← hknown]
  unfold decode
  cases decode? word with
  | some found => simp
  | none => simp [eq_comm]

theorem decode_encode (i : Instruction) : decode i.encode = .ok i.masked :=
  decode_eq_ok_iff.mpr (decode?_encode i)

theorem decode_encode_eq_self_iff (i : Instruction) : decode i.encode = .ok i ↔ i.InRange := by
  rw [decode_encode, Except.ok.injEq, masked_eq_self_iff]

theorem decode_encode_eq_iff (i j : Instruction) :
    decode i.encode = decode j.encode ↔
      i.opcode = j.opcode ∧ i.operand &&& i.opcode.mask = j.operand &&& j.opcode.mask := by
  rw [decode_encode, decode_encode, Except.ok.injEq, masked_eq_masked_iff]

/-! ## From a word -/

theorem inRange_of_decode {word : Word} {i : Instruction} (h : decode? word = some i) :
    i.InRange := by
  obtain ⟨-, hoperand⟩ := decode?_eq_some_iff.mp h
  rw [inRange_iff, hoperand]
  exact Nat.mod_lt _ i.opcode.operandCount_pos

/-- An instruction that fits is the number of its operand in front of the byte of its code. -/
theorem toNat_encode {i : Instruction} (h : i.InRange) :
    i.encode.toNat = i.operand.toNat * 256 + i.opcode.code.toNat := by
  have hlt := (inRange_iff i).mp h
  have hwidth := i.opcode.operandCount_le
  unfold encode
  rw [Word.toNat_pack, Nat.mod_eq_of_lt (by omega)]

/-- The word of a decoded instruction is what is left of the word below the width. -/
theorem toNat_encode_of_decode {word : Word} {i : Instruction} (h : decode? word = some i) :
    i.encode.toNat = word.toNat % 2 ^ (8 + i.opcode.bits) := by
  obtain ⟨hcode, hoperand⟩ := decode?_eq_some_iff.mp h
  have hsplit : 2 ^ (8 + i.opcode.bits) = 256 * i.opcode.operandCount := by
    rw [Nat.pow_add, Opcode.operandCount_eq_two_pow]
  rw [toNat_encode (inRange_of_decode h), hoperand, hcode, Word.toNat_code, hsplit, Nat.mod_mul]
  unfold Word.operand
  omega

theorem testBit_encode_of_decode {word : Word} {i : Instruction} (h : decode? word = some i)
    (n : Nat) :
    i.encode.toNat.testBit n = (decide (n < 8 + i.opcode.bits) && word.toNat.testBit n) := by
  rw [toNat_encode_of_decode h, Nat.testBit_mod_two_pow]

/-- A word survives decoding just when it is canonical. -/
theorem canonical_iff_encode_decode (word : Word) :
    word.Canonical ↔ ∃ i, decode word = .ok i ∧ i.encode = word := by
  constructor
  · intro h
    obtain ⟨i, hi, rfl⟩ := exists_encode_of_canonical h
    exact ⟨i, (decode_encode_eq_self_iff i).mpr hi, rfl⟩
  · rintro ⟨i, hi, rfl⟩
    exact canonical_encode ((decode_encode_eq_self_iff i).mp hi)

/-! ## From a number -/

theorem exists_ofOperand_iff (opcode : Opcode) (operand : Nat) :
    (∃ i, ofOperand opcode operand = .ok i) ↔ operand < 2 ^ opcode.bits := by
  rw [← Opcode.operandCount_eq_two_pow, ← Opcode.fits_iff_lt]
  unfold ofOperand
  by_cases fits : opcode.Fits operand
  · rw [if_pos fits]
    simp [fits]
  · rw [if_neg fits]
    simp [fits]

theorem toNat_encode_of_ofOperand {opcode : Opcode} {operand : Nat} {i : Instruction}
    (h : ofOperand opcode operand = .ok i) :
    i.encode.toNat = operand * 256 + opcode.code.toNat := by
  obtain ⟨rfl, rfl, hi⟩ := ofOperand_eq_ok_iff.mp h
  exact toNat_encode hi

/-- No number beyond 32 bits comes back into range by being cut down to them. -/
theorem ofOperand_of_large (opcode : Opcode) {operand : Nat} (h : 2 ^ 32 ≤ operand) :
    ofOperand opcode operand = .error (.operandOutOfRange opcode operand opcode.maxOperand) := by
  have hwidth := opcode.operandCount_le
  unfold ofOperand
  rw [if_neg]
  rw [Opcode.fits_iff_lt]
  omega

/--
**The codec retracts onto the canonical words.**

An instruction comes back from its word with its operand masked, so it comes back as it was just
when it is in range, and two instructions come back alike just when masking makes them alike. A
word without an opcode is refused by its code; from any other word comes an instruction in
range, whose word has the bits above the width cleared and all others kept. The word comes back
as it was just when it is canonical. And a number makes an instruction just when it is below the
width's power of two, with the number in front of the code as its word; none beyond 32 bits does.
-/
theorem codec_retracts_onto_canonical (i j : Instruction) (word : Word) (opcode : Opcode)
    (x : Nat) :
    decode i.encode = .ok ⟨i.opcode, i.operand &&& i.opcode.mask⟩
    ∧ (decode i.encode = .ok i ↔ i.InRange)
    ∧ (decode i.encode = decode j.encode ↔
        i.opcode = j.opcode ∧ i.operand &&& i.opcode.mask = j.operand &&& j.opcode.mask)
    ∧ (∀ cause, decode word = .error cause ↔
        (∀ op : Opcode, op.code ≠ word.code) ∧ cause = .unknownCode word.code)
    ∧ (∀ k, decode word = .ok k → k.operand.toNat ≤ k.opcode.maxOperand
        ∧ ∀ n, k.encode.toNat.testBit n
          = (decide (n < 8 + k.opcode.bits) && word.toNat.testBit n))
    ∧ (word.Canonical ↔ ∃ k, decode word = .ok k ∧ k.encode = word)
    ∧ ((∃ k, ofOperand opcode x = .ok k) ↔ x < 2 ^ opcode.bits)
    ∧ (∀ k, ofOperand opcode x = .ok k → k.encode.toNat = x * 256 + opcode.code.toNat)
    ∧ (2 ^ 32 ≤ x →
        ofOperand opcode x = .error (.operandOutOfRange opcode x opcode.maxOperand)) := by
  refine ⟨?_, decode_encode_eq_self_iff i, decode_encode_eq_iff i j, fun _ => decode_eq_error_iff,
    ?_, canonical_iff_encode_decode word, exists_ofOperand_iff opcode x,
    fun _ => toNat_encode_of_ofOperand, ofOperand_of_large opcode⟩
  · rw [decode_encode, masked_eq_and]
  · intro k hk
    have hfound := decode_eq_ok_iff.mp hk
    exact ⟨inRange_of_decode hfound, testBit_encode_of_decode hfound⟩

/-- A read with all 24 bits of its offset set, the same read in range, and an address one bit too
wide for 32 bits. -/
theorem codec_retracts_onto_canonical_wide_offset :
    decode (encode ⟨.readMem, 0xFFFFFF⟩) = decode (encode ⟨.readMem, 2047⟩)
    ∧ decode 0xFFFFFFA5 = .ok ⟨.readMem, 2047⟩
    ∧ (2047 : Nat) ≤ Opcode.readMem.maxOperand
    ∧ (encode ⟨.readMem, 2047⟩).toNat.testBit 18 = true
    ∧ (encode ⟨.readMem, 2047⟩).toNat.testBit 19 = false
    ∧ (encode ⟨.pow, 0x7FFFFF⟩).toNat = 0x7FFFFF * 256 + 47
    ∧ ofOperand .pow (2 ^ 32 + 1) = .error (.operandOutOfRange .pow (2 ^ 32 + 1) 0x7FFFFF) := by
  have hword : decode 0xFFFFFFA5 = .ok ⟨.readMem, 2047⟩ := by rfl
  have hmade : ofOperand .pow 0x7FFFFF = .ok ⟨.pow, 0x7FFFFF⟩ := by rfl
  obtain ⟨-, -, halike, -, hback, -, -, -, hlarge⟩ := codec_retracts_onto_canonical
    ⟨.readMem, 0xFFFFFF⟩ ⟨.readMem, 2047⟩ 0xFFFFFFA5 .pow (2 ^ 32 + 1)
  obtain ⟨-, -, -, -, -, -, -, hnumber, -⟩ := codec_retracts_onto_canonical
    ⟨.readMem, 0xFFFFFF⟩ ⟨.readMem, 2047⟩ 0xFFFFFFA5 .pow 0x7FFFFF
  obtain ⟨hlargest, hbits⟩ := hback _ hword
  exact ⟨halike.mpr (by decide), hword, hlargest, hbits 18, hbits 19, hnumber _ hmade,
    hlarge (by omega)⟩

end Instruction

end AccumulatorMachine
