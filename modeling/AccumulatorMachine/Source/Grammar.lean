import AccumulatorMachine.Numeral
import AccumulatorMachine.Instruction
import AccumulatorMachine.Text.Blank
import Mathlib

/-!
# The grammar of a line

What a line may look like, said without tokens. Separators are blanks and comments. Where a
comment ends is not up to the comment: it goes on to the next line feed, which is not part
of it, or to the end of the text. So whether characters are separators depends on what
comes after them, and a gap is always a gap in front of something.

An instruction is written as a gap, its mnemonic, a gap that is not empty, the digits of
its operand, and a last gap. The gap between the two is what keeps a name and a number
apart; everywhere else gaps may be empty.
-/

namespace AccumulatorMachine.Source

/-- Any number of separators in front of a given rest of the text. -/
inductive Gap : List Char → List Char → Prop
  | nil {rest : List Char} : Gap [] rest
  | blank {c : Char} {gap rest : List Char} (isBlank : Text.isBlank c) (more : Gap gap rest) :
      Gap (c :: gap) rest
  /-- A comment holds no line feed, and a line feed or nothing follows it. -/
  | comment {body gap rest : List Char} (inside : '\n' ∉ body)
      (ended : gap ++ rest = [] ∨ (gap ++ rest).head? = some '\n') (more : Gap gap rest) :
      Gap ('#' :: body ++ gap) rest

/-- A text that is a way to write an instruction. -/
inductive Spells : List Char → Instruction → Prop
  | intro {before between digits after : List Char} {i : Instruction}
      (lead : Gap before (i.opcode.mnemonic.toList ++ between ++ digits ++ after))
      (inner : Gap between (digits ++ after)) (apart : between ≠ [])
      (someDigit : digits ≠ []) (allDigits : ∀ c ∈ digits, c.isDigit)
      (value : Numeral.ofDecimal digits = i.operand.toNat)
      (fits : i.operand.toNat ≤ 2 ^ i.opcode.bits - 1) (last : Gap after []) :
      Spells (before ++ i.opcode.mnemonic.toList ++ between ++ digits ++ after) i

end AccumulatorMachine.Source
