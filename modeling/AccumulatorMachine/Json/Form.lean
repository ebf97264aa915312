import AccumulatorMachine.Json.Read
import AccumulatorMachine.Json.Record
import AccumulatorMachine.Source.Assembly

/-!
# JSON forms

How opcodes, instructions and trace entries are written as JSON values and read back.

An opcode is a string, its tag, or an object with the tag as its only key and null as the
value; it is written the first way. An instruction is an object with its opcode's tag as
the only key, and under it a record with the operand as the only field. A trace entry is a
record. Reading checks that numbers have the width of their field; it does not check an
operand against its opcode.
-/

namespace AccumulatorMachine

open Json (Value)

namespace Opcode

def tag : Opcode → String
  | loadConst => "LoadConst"
  | readMem => "ReadMem"
  | writeMem => "WriteMem"
  | pow => "Pow"

def operandName : Opcode → String
  | loadConst => "value"
  | readMem => "offset"
  | writeMem => "address"
  | pow => "address"

def ofTag? (tag : List Char) : Option Opcode := all.find? (·.tag.toList == tag)

def toJson (op : Opcode) : Value := .text op.tag

def ofJson? : Value → Option Opcode
  | .string (some tag) => ofTag? tag
  | .object [(some tag, .null)] => ofTag? tag
  | _ => none

@[simp] theorem ofTag?_tag (op : Opcode) : ofTag? op.tag.toList = some op := by cases op <;> decide

theorem ofJson?_toJson (op : Opcode) : ofJson? op.toJson = some op := op.ofTag?_tag

end Opcode

namespace Instruction

/-- An instruction as JSON; the operand is as the instruction holds it. -/
def toJson (i : Instruction) : Value :=
  .record [(i.opcode.tag, .record [(i.opcode.operandName, .natural i.operand.toNat)])]

def ofJson? : Value → Option Instruction
  | .object [(some tag, content)] => do
    let opcode ← Opcode.ofTag? tag
    match ← content.record? [opcode.operandName] with
    | [operand] => (operand.naturalBelow? UInt32.size).map fun n => ⟨opcode, .ofNat n⟩
    | _ => none
  | _ => none

end Instruction

namespace TraceEntry

def toJson (e : TraceEntry) : Value :=
  .record [("mnemonic", .text e.mnemonic), ("opcode", .natural e.code.toNat),
    ("operand", .natural e.operand.toNat), ("instruction_word", .natural e.word.toNat)]

def ofJson? (v : Value) : Option TraceEntry := do
  match ← v.record? ["mnemonic", "opcode", "operand", "instruction_word"] with
  | [mnemonic, code, operand, word] =>
    some {
      mnemonic := ← mnemonic.text?
      code := .ofNat (← code.naturalBelow? UInt8.size)
      operand := .ofNat (← operand.naturalBelow? UInt32.size)
      word := .ofNat (← word.naturalBelow? UInt32.size) }
  | _ => none

end TraceEntry

def Assembly.traceJson (a : Assembly) : Value := .array (a.trace.map TraceEntry.toJson)

end AccumulatorMachine
