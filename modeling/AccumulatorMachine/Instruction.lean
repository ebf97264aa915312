import AccumulatorMachine.Config
import AccumulatorMachine.Numeral
import AccumulatorMachine.Opcode

/-!
# Instructions and their words

A word has 32 bits: the opcode's code in the low byte, and above it 24 bits of operand,
of which only the low `Opcode.bits` count.

    [operand : 24][code : 8]

Packing keeps all 24 bits that it is given, and unpacking drops those that do not count.
So a word with a known code always decodes, and decoding what was encoded gives back the
instruction with its operand reduced to the opcode's width, `Instruction.masked`. An
instruction may hold any 32-bit operand; `Instruction.ofOperand` makes only those that
survive the round trip.

The arithmetic is stated on natural numbers, with quotients and remainders in place of
shifts and masks.
-/

namespace AccumulatorMachine

/-- One instruction as the machine fetches it. -/
abbrev Word := UInt32

/-- What is wrong with data that should be a configuration, an instruction or a program. -/
inductive FormatError where
  | invalidConfig (cause : ConfigError)
  | unknownCode (code : UInt8)
  | operandOutOfRange (opcode : Opcode) (operand largest : Nat)
  | truncated (length trailing : Nat)
  deriving DecidableEq

namespace FormatError

/-- Whether the error leaves the rest of a word stream without meaning. -/
def isFatal : FormatError → Bool
  | unknownCode _ | truncated .. => true
  | invalidConfig _ | operandOutOfRange .. => false

def message : FormatError → String
  | invalidConfig cause => s!"Invalid configuration: {cause.message}"
  | unknownCode code => s!"Invalid opcode: 0x{String.ofList (Numeral.hexadecimal 2 code.toNat)}"
  | operandOutOfRange opcode operand largest =>
    s!"Operand {operand} out of range for {opcode.mnemonic} (max {largest})"
  | truncated length trailing =>
    s!"Truncated program: {length} bytes is not a multiple of 4 ({trailing} trailing)"

/-- The wordings of an error and of what is behind it, the outermost first. -/
def chain : FormatError → List String
  | invalidConfig cause => [(invalidConfig cause).message, cause.message]
  | error => [error.message]

end FormatError

namespace Word

def code (word : Word) : UInt8 := word.toUInt8

/-- The 24 bits above the low byte. -/
def operand (word : Word) : Nat := word.toNat / 256

/-- The word with a given opcode and the low 24 bits of a given operand. -/
def pack (opcode : Opcode) (operand : Nat) : Word :=
  .ofNat (operand % 0x1000000 * 256 + opcode.code.toNat)

/-- The eight hexadecimal digits of a word, after `0x`. -/
def text (word : Word) : String :=
  "0x" ++ String.ofList (Numeral.hexadecimal 8 word.toNat)

theorem toNat_code (word : Word) : word.code.toNat = word.toNat % 256 := word.toNat_toUInt8

theorem toNat_pack (opcode : Opcode) (operand : Nat) :
    (pack opcode operand).toNat = operand % 0x1000000 * 256 + opcode.code.toNat := by
  have hcode := opcode.code.toNat_lt
  unfold pack
  rw [UInt32.toNat_ofNat']
  omega

@[simp] theorem code_pack (opcode : Opcode) (operand : Nat) : (pack opcode operand).code = opcode.code := by
  have hcode := opcode.code.toNat_lt
  apply UInt8.toNat_inj.mp
  rw [toNat_code, toNat_pack]
  omega

@[simp] theorem operand_pack (opcode : Opcode) (operand : Nat) :
    (pack opcode operand).operand = operand % 0x1000000 := by
  have hcode := opcode.code.toNat_lt
  rw [Word.operand, toNat_pack]
  omega

/-- A word is its two fields. -/
theorem toNat_eq (word : Word) : word.toNat = word.operand * 256 + word.code.toNat := by
  rw [Word.operand, toNat_code]
  omega

end Word

/-- An opcode and an operand, which need not fit it. -/
structure Instruction where
  opcode : Opcode
  operand : UInt32
  deriving DecidableEq

namespace Instruction

/-- The instruction with a given operand, if no bit of it would be lost. -/
def ofOperand (opcode : Opcode) (operand : Nat) : Except FormatError Instruction :=
  if opcode.Fits operand then .ok ⟨opcode, .ofNat operand⟩
  else .error (.operandOutOfRange opcode operand opcode.maxOperand)

/-- The part of the operand that counts. -/
def significant (i : Instruction) : Nat := i.operand.toNat % i.opcode.operandCount

/-- The instruction without the operand bits that do not count. -/
def masked (i : Instruction) : Instruction := ⟨i.opcode, .ofNat i.significant⟩

/-- Whether every bit of the operand counts. -/
def InRange (i : Instruction) : Prop := i.opcode.Fits i.operand.toNat

instance (i : Instruction) : Decidable i.InRange := inferInstanceAs (Decidable (i.opcode.Fits _))

def encode (i : Instruction) : Word := .pack i.opcode i.operand.toNat

/-- The instruction in a word, if its code is known. -/
def decode? (word : Word) : Option Instruction :=
  (Opcode.ofCode? word.code).map fun opcode => masked ⟨opcode, .ofNat word.operand⟩

/-- The instruction in a word; an unknown code is named in the error. -/
def decode (word : Word) : Except FormatError Instruction :=
  match decode? word with
  | some i => .ok i
  | none => .error (.unknownCode word.code)

/-- An instruction as it is written in source text. -/
def text (i : Instruction) : String :=
  i.opcode.mnemonic ++ " " ++ String.ofList (Numeral.decimal i.operand.toNat)

@[simp] theorem opcode_masked (i : Instruction) : i.masked.opcode = i.opcode := rfl

theorem significant_lt (i : Instruction) : i.significant < i.opcode.operandCount :=
  Nat.mod_lt _ i.opcode.operandCount_pos

@[simp] theorem toNat_operand_masked (i : Instruction) : i.masked.operand.toNat = i.significant := by
  have hbelow := i.significant_lt
  have hsmall := i.opcode.operandCount_le
  simp only [masked, UInt32.toNat_ofNat']
  omega

@[simp] theorem significant_masked (i : Instruction) : i.masked.significant = i.significant := by
  rw [significant, toNat_operand_masked]
  exact Nat.mod_eq_of_lt i.significant_lt

theorem inRange_iff (i : Instruction) : i.InRange ↔ i.operand.toNat < i.opcode.operandCount :=
  i.opcode.fits_iff_lt _

/-- What is made from an opcode and a number is the instruction with that number as its operand. -/
theorem ofOperand_eq_ok_iff {opcode : Opcode} {operand : Nat} {i : Instruction} :
    ofOperand opcode operand = .ok i ↔ i.opcode = opcode ∧ i.operand.toNat = operand ∧ i.InRange := by
  unfold ofOperand
  by_cases hfits : opcode.Fits operand
  · have hsmall : operand < UInt32.size :=
      Nat.lt_of_lt_of_le ((opcode.fits_iff_lt _).mp hfits)
        (Nat.le_trans opcode.operandCount_le (by decide))
    have hvalue : (UInt32.ofNat operand).toNat = operand := UInt32.toNat_ofNat_of_lt' hsmall
    rw [if_pos hfits]
    refine ⟨fun hmade => ?_, fun ⟨hopcode, hoperand, _⟩ => ?_⟩
    · obtain rfl := Except.ok.inj hmade
      refine ⟨rfl, hvalue, ?_⟩
      unfold InRange
      rw [hvalue]
      exact hfits
    · rw [← hopcode, ← hoperand, UInt32.ofNat_toNat]
  · rw [if_neg hfits]
    refine ⟨fun hmade => ?_, fun ⟨hopcode, hoperand, hrange⟩ => ?_⟩
    · contradiction
    · subst hopcode hoperand
      exact absurd hrange hfits

theorem inRange_masked (i : Instruction) : i.masked.InRange := by
  rw [inRange_iff, toNat_operand_masked]
  exact i.significant_lt

/-- Masking changes nothing just where nothing is lost. -/
theorem masked_eq_self_iff (i : Instruction) : i.masked = i ↔ i.InRange := by
  constructor
  · intro hsame
    exact hsame ▸ i.inRange_masked
  · intro hfits
    rw [inRange_iff] at hfits
    simp [masked, significant, Nat.mod_eq_of_lt hfits]

@[simp] theorem code_encode (i : Instruction) : i.encode.code = i.opcode.code := Word.code_pack ..

/-- Decoding an encoded instruction masks its operand. -/
@[simp] theorem decode?_encode (i : Instruction) : decode? i.encode = some i.masked := by
  have hsmall := i.operand.toNat_lt
  simp only [decode?, code_encode, Opcode.ofCode?_code, Option.map_some, Option.some.injEq]
  simp only [masked, significant, encode, Word.operand_pack, UInt32.toNat_ofNat']
  rw [Nat.mod_eq_of_lt (a := i.operand.toNat % 0x1000000) (by omega),
    Nat.mod_mod_of_dvd _ i.opcode.operandCount_dvd]

/-- What a word decodes to: the opcode of its code, and as much of its operand as counts. -/
theorem decode?_eq_some_iff {word : Word} {i : Instruction} :
    decode? word = some i ↔
      i.opcode.code = word.code ∧ i.operand.toNat = word.operand % i.opcode.operandCount := by
  have hsmall : word.operand < UInt32.size := by
    have hword := word.toNat_lt
    show word.toNat / 256 < 0x100000000
    omega
  unfold decode?
  rw [Option.map_eq_some_iff]
  constructor
  · rintro ⟨op, hfound, rfl⟩
    refine ⟨Opcode.ofCode?_eq_some_iff.mp hfound, ?_⟩
    rw [toNat_operand_masked]
    unfold significant
    rw [UInt32.toNat_ofNat_of_lt' hsmall]
    rfl
  · rintro ⟨hcode, hoperand⟩
    refine ⟨i.opcode, Opcode.ofCode?_eq_some_iff.mpr hcode, ?_⟩
    unfold masked significant
    rw [UInt32.toNat_ofNat_of_lt' hsmall]
    dsimp only
    rw [← hoperand, UInt32.ofNat_toNat]

theorem decode?_eq_none_iff (word : Word) : decode? word = none ↔ Opcode.ofCode? word.code = none := by
  simp [decode?]

end Instruction

end AccumulatorMachine
