import AccumulatorMachine.Instruction
import AccumulatorMachine.Power

/-!
# Faults

Everything that can stop the machine. A fault that concerns one word carries the word's
index, which is the number of instructions executed before it.
-/

namespace AccumulatorMachine

/-- Why the machine stopped, or could not be made. -/
inductive Fault where
  | format (cause : FormatError)
  | unknownOpcode (index : Nat) (code : UInt8) (word : Word)
  | truncatedStream (length trailing : Nat)
  | pow (index : Nat) (cause : PowerError)
  /-- Bytes that could not be read, in the words of whoever should have delivered them. -/
  | io (text : String)
  deriving DecidableEq

/-- The index of the word that a fault concerns, if it concerns one. -/
def Fault.index? : Fault → Option Nat
  | unknownOpcode index .. | pow index _ => some index
  | format _ | truncatedStream .. | io _ => none

def Fault.message : Fault → String
  | format cause => s!"Spec error: {cause.message}"
  | unknownOpcode index code word =>
    s!"Unknown opcode 0x{String.ofList (Numeral.hexadecimal 2 code.toNat)} in word {word.text} at index {index}"
  | truncatedStream length trailing =>
    s!"Truncated stream: {length} bytes leaves {trailing} trailing bytes after the last word"
  | pow index (.limitExceeded bits limit) =>
    s!"POW at index {index} needs at least {bits} bits (limit {limit})"
  | pow index (.exponentTooLarge digits) =>
    s!"POW at index {index}: exponent {digits} does not fit in 32 bits"
  | io text => s!"I/O error: {text}"

/-- The wordings of a fault and of what is behind it, the outermost first. -/
def Fault.chain : Fault → List String
  | format cause => (format cause).message :: cause.chain
  | io text => [(io text).message, text]
  | fault => [fault.message]

end AccumulatorMachine
