import AccumulatorMachine.Instruction
import AccumulatorMachine.Source.Error
import AccumulatorMachine.Source.Token

/-!
# One line of source

A line holds nothing, or a mnemonic followed by one number. The tokens are taken from the
left and the first that is out of place is reported, so an unknown mnemonic is reported
whatever follows it, and the value of the operand is looked at last.

A number may have any length and any leading zeros; only its value has to fit, first 64
bits and then the operand. The error for one that does not keeps the number as it is
written.
-/

namespace AccumulatorMachine.Source

/-- The source from a token up to the next blank. -/
def quote (token : Token) (rest : List Char) : String := .ofList (Text.wordAt (token.text ++ rest))

def parseMnemonic (name : String) : Except LineError Opcode :=
  match Opcode.ofMnemonic? name with
  | some opcode => .ok opcode
  | none => .error (.unknownMnemonic name)

/-- The opcode that the first token names. -/
def parseFirst (token : Token) (rest : List Char) : Except LineError Opcode :=
  match token.kind with
  | .name => parseMnemonic (.ofList token.text)
  | .number | .stray => .error (.unknownMnemonic (quote token rest))

/-- The digits of the number that is all the rest of a line. -/
def parseLiteral (opcode : Opcode) (text : List Char) : Except LineError (List Char) :=
  match next? text with
  | none => .error (.malformedOperand opcode.mnemonic .missing)
  | some (⟨.number, digits⟩, rest) =>
    match next? rest with
    | none => .ok digits
    | some (token, rest) => .error (.malformedOperand opcode.mnemonic (.trailing (quote token rest)))
  | some (token, rest) => .error (.malformedOperand opcode.mnemonic (.notNumber (quote token rest)))

/-- The instruction with a given operand, if it fits; digits that overflow 64 bits do not. -/
def parseOperand (opcode : Opcode) (digits : List Char) : Except LineError Instruction :=
  match Numeral.ofDecimal64? digits with
  | none => .error (.operandOutOfRange opcode (.ofList digits) opcode.maxOperand)
  | some value =>
    match Instruction.ofOperand opcode value with
    | .ok instruction => .ok instruction
    | .error (.operandOutOfRange ..) =>
      .error (.operandOutOfRange opcode (.ofList digits) opcode.maxOperand)
    | .error cause => .error (.malformedOperand opcode.mnemonic (.other cause.message))

/-- The instruction on a line, if there is one. -/
def parseLine (text : List Char) : Except LineError (Option Instruction) :=
  match next? text with
  | none => .ok none
  | some (token, rest) => do
    let opcode ← parseFirst token rest
    let digits ← parseLiteral opcode rest
    let instruction ← parseOperand opcode digits
    .ok (some instruction)

end AccumulatorMachine.Source
