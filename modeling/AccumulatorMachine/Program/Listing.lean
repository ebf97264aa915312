import AccumulatorMachine.Program

/-!
# Program listings

One line per word: its index, the word in hexadecimal, and the instruction in it.

    0000: 0x00000542  LOAD_CONST 5
    0001: 0x00000000  <invalid>

The index takes at least four digits and the word always eight, so both can be read back
off the line, `Listing.readLine?`; the text column is for people, and a word whose code
is unknown has a mark there.
-/

namespace AccumulatorMachine

namespace Listing

/-- What stands for an instruction where there is none. -/
def invalidMark : String := "<invalid>"

/-- The text column of a word. -/
def instructionText (word : Word) : String :=
  match Instruction.decode? word with
  | some i => i.text
  | none => invalidMark

/-- One line, without its line feed. -/
def line (index : Nat) (word : Word) : List Char :=
  Numeral.padded 4 (Numeral.decimal index) ++ ": ".toList ++ word.text.toList
    ++ "  ".toList ++ (instructionText word).toList

/-- The index and the word on a line. -/
def readLine? (line : List Char) : Option (Nat × Word) :=
  match line.dropWhile Char.isDigit with
  | ':' :: ' ' :: '0' :: 'x' :: rest =>
    (Numeral.ofHexadecimal? (rest.take 8)).map fun value =>
      (Numeral.ofDecimal (line.takeWhile Char.isDigit), .ofNat value)
  | _ => none

end Listing

/-- The listing of a program, every line closed by a line feed. -/
def Program.listing (p : Program) : String :=
  .ofList (p.code.zipIdx.flatMap fun (word, index) => Listing.line index word ++ ['\n'])

end AccumulatorMachine
