import AccumulatorMachine.Opcode
import AccumulatorMachine.Text.Blank

/-!
# Errors in source text

A line is wrong in one of three ways: it does not begin with a mnemonic, the mnemonic is
not followed by exactly one number, or the number is too large. Where the fault is a token
out of place, the error quotes the source from that token up to the next blank, so that
`3.14` is quoted whole although it is three tokens.

An error in a source says on which line it is, and holds the line.
-/

namespace AccumulatorMachine.Source

/-- What is wrong with what follows a mnemonic. -/
inductive OperandFlaw where
  | missing
  | notNumber (word : String)
  | trailing (word : String)
  /-- A flaw in words of the caller's own. -/
  | other (reason : String)
  deriving DecidableEq

def OperandFlaw.reason : OperandFlaw → String
  | missing => "missing operand"
  | notNumber word => "expected unsigned integer, found `" ++ word ++ "`"
  | trailing word => "unexpected trailing input `" ++ word ++ "`"
  | other reason => reason

/-- What is wrong with a line. -/
inductive LineError where
  | unknownMnemonic (name : String)
  | malformedOperand (mnemonic : String) (flaw : OperandFlaw)
  /-- The number as it is written, and the largest that fits. -/
  | operandOutOfRange (opcode : Opcode) (literal : String) (largest : Nat)
  deriving DecidableEq

def LineError.message : LineError → String
  | unknownMnemonic name => "Unknown instruction: " ++ name
  | malformedOperand mnemonic flaw => "Malformed operand for " ++ mnemonic ++ ": " ++ flaw.reason
  | operandOutOfRange opcode literal largest =>
    s!"Operand {literal} out of range for {opcode.mnemonic} (max {largest})"

/-- An error in a line, or such an error placed in a text. -/
inductive SourceError where
  | inLine (cause : LineError)
  | atLine (number : Nat) (text : String) (cause : SourceError)
  deriving DecidableEq

namespace SourceError

/-- Places an error at a line, which is kept without the blanks at its ends. -/
def located (cause : SourceError) (number : Nat) (line : List Char) : SourceError :=
  .atLine number (.ofList (Text.trim line)) cause

/-- The number of the outermost line, if the error has been placed. -/
def line? : SourceError → Option Nat
  | inLine _ => none
  | atLine number .. => some number

/-- What is wrong, wherever it is. -/
def kind : SourceError → LineError
  | inLine cause => cause
  | atLine _ _ cause => cause.kind

/-- The wording of one layer of an error; a place is named without what is wrong there. -/
def message : SourceError → String
  | inLine cause => cause.message
  | atLine number text _ => "Line " ++ toString number ++ " `" ++ text ++ "`"

/-- The wordings of all layers, the outermost first. -/
def chain : SourceError → List String
  | inLine cause => [(inLine cause).message]
  | atLine number text cause => (atLine number text cause).message :: cause.chain

end SourceError

end AccumulatorMachine.Source
