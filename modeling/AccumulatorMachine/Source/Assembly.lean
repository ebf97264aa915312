import AccumulatorMachine.Program
import AccumulatorMachine.Source.Line
import AccumulatorMachine.Text.Lines

/-!
# Assembling a source

The lines of a source are encoded in order up to the first that is wrong. Each line with an
instruction adds its word and its entry to an assembly: the program, and beside it a trace with
one entry per word. If no line is wrong, that is what the source assembles to. Otherwise the
error is that line's, placed at its number; nothing of the lines before it is kept, but the pass
over the lines remembers them, since whoever watches it has seen them go by.
-/

namespace AccumulatorMachine

/-- One assembled instruction, for people to read. -/
structure TraceEntry where
  mnemonic : String
  code : UInt8
  operand : UInt32
  word : Word
  deriving DecidableEq

/-- The entry of an instruction; the operand is as the instruction holds it. -/
def TraceEntry.ofInstruction (i : Instruction) : TraceEntry :=
  ⟨i.opcode.mnemonic, i.opcode.code, i.operand, i.encode⟩

/-- A program and its trace. -/
structure Assembly where
  program : Program := ⟨[]⟩
  trace : List TraceEntry := []
  deriving DecidableEq

/-- An assembly with one more word, and its entry, in front. -/
def Assembly.cons (word : Word) (entry : TraceEntry) (a : Assembly) : Assembly :=
  ⟨⟨word :: a.program.code⟩, entry :: a.trace⟩

namespace Source

/-- What a pass over the lines of a source has made, and the error that ended it, if any. -/
structure Pass where
  /-- The numbers of the lines that the words come from. -/
  numbers : List Nat := []
  assembly : Assembly := {}
  error : Option SourceError := none
  deriving DecidableEq

/-- The word and the trace entry of the instruction on a line, if there is one. -/
def assembleLine (line : List Char) : Except LineError (Option (Word × TraceEntry)) :=
  (parseLine line).map (Option.map fun i => (i.encode, .ofInstruction i))

/-- Encodes lines up to the first that is wrong; the first line has the given number. -/
def encodeLines (number : Nat) : List (List Char) → Pass
  | [] => {}
  | line :: lines =>
    match assembleLine line with
    | .error cause => { error := some (SourceError.inLine cause |>.located number line) }
    | .ok none => encodeLines (number + 1) lines
    | .ok (some (word, entry)) =>
      let rest := encodeLines (number + 1) lines
      ⟨number :: rest.numbers, rest.assembly.cons word entry, rest.error⟩

def pass (source : String) : Pass := encodeLines 1 (Text.lines source.toList)

/-- The assembly that a pass ends in. -/
def Pass.result (p : Pass) : Except SourceError Assembly :=
  match p.error with
  | none => .ok p.assembly
  | some cause => .error cause

def assemble (source : String) : Except SourceError Assembly := (pass source).result

end Source

end AccumulatorMachine
