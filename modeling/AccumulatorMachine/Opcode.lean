/-!
# The opcode table

The instruction set is closed: four instructions, each with an eight-bit code and a
fixed number of significant operand bits.

| mnemonic     | code | operand bits |
|--------------|------|--------------|
| `LOAD_CONST` | 66   | 22           |
| `READ_MEM`   | 165  | 11           |
| `WRITE_MEM`  | 187  | 23           |
| `POW`        | 47   | 23           |

The table is written once, as the functions out of `Opcode`. Both ways back, from a
code and from a mnemonic, search `Opcode.all`, so that they cannot disagree with it;
what has to be checked is only that no two rows share a code or a mnemonic.
-/

namespace AccumulatorMachine

/-- What an instruction does to the accumulator and the memory. -/
inductive Opcode where
  /-- The accumulator becomes a constant. -/
  | loadConst
  /-- The accumulator becomes the cell that lies an offset beyond the accumulator. -/
  | readMem
  /-- A cell becomes the accumulator. -/
  | writeMem
  /-- The accumulator is raised to the power held in a cell. -/
  | pow
  deriving DecidableEq

namespace Opcode

/-- Every opcode, in table order. -/
def all : List Opcode := [loadConst, readMem, writeMem, pow]

/-- The low byte of every word of this opcode. -/
def code : Opcode → UInt8
  | loadConst => 66
  | readMem => 165
  | writeMem => 187
  | pow => 47

def mnemonic : Opcode → String
  | loadConst => "LOAD_CONST"
  | readMem => "READ_MEM"
  | writeMem => "WRITE_MEM"
  | pow => "POW"

/-- How many low bits of the operand count. -/
def bits : Opcode → Nat
  | loadConst => 22
  | readMem => 11
  | writeMem => 23
  | pow => 23

def operandCount (op : Opcode) : Nat := 1 <<< op.bits

/-- The largest operand, which is also the mask of the bits that count. -/
def maxOperand (op : Opcode) : Nat := op.operandCount - 1

/-- Whether a number can be an operand without losing bits. -/
def Fits (op : Opcode) (operand : Nat) : Prop := operand ≤ op.maxOperand

instance (op : Opcode) (operand : Nat) : Decidable (op.Fits operand) :=
  inferInstanceAs (Decidable (operand ≤ op.maxOperand))

/-- The opcode with a given code, if the table has it. -/
def ofCode? (code : UInt8) : Option Opcode := all.find? (·.code == code)

/-- The opcode with a given mnemonic, letter case included. -/
def ofMnemonic? (name : String) : Option Opcode := all.find? (·.mnemonic == name)

theorem mem_all (op : Opcode) : op ∈ all := by cases op <;> decide

theorem operandCount_pos (op : Opcode) : 0 < op.operandCount := by cases op <;> decide

/-- Every operand lies inside the 24 bits that a word has for it. -/
theorem operandCount_le (op : Opcode) : op.operandCount ≤ 0x1000000 := by cases op <;> decide

theorem operandCount_dvd (op : Opcode) : op.operandCount ∣ 0x1000000 := by cases op <;> decide

theorem fits_iff_lt (op : Opcode) (operand : Nat) : op.Fits operand ↔ operand < op.operandCount := by
  have hpos := op.operandCount_pos
  unfold Fits maxOperand
  omega

/-- A code names one row of the table. -/
theorem ofCode?_eq_some_iff {code : UInt8} {op : Opcode} : ofCode? code = some op ↔ op.code = code := by
  constructor
  · intro h
    simpa using List.find?_some h
  · rintro rfl
    cases op <;> decide

@[simp] theorem ofCode?_code (op : Opcode) : ofCode? op.code = some op := ofCode?_eq_some_iff.mpr rfl

/-- A mnemonic names one row of the table. -/
theorem ofMnemonic?_eq_some_iff {name : String} {op : Opcode} :
    ofMnemonic? name = some op ↔ op.mnemonic = name := by
  constructor
  · intro h
    simpa using List.find?_some h
  · rintro rfl
    cases op <;> decide

@[simp] theorem ofMnemonic?_mnemonic (op : Opcode) : ofMnemonic? op.mnemonic = some op :=
  ofMnemonic?_eq_some_iff.mpr rfl

end Opcode

end AccumulatorMachine
