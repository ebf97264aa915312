import AccumulatorMachine.Json.Value

/-!
# Memory dumps

Cells are written to JSON as an array of exact integers. A cell is spelled out in decimal first,
and the spelling is taken for a number only if it is a number literal, so the making of a dump
has a place where it could fail.
-/

namespace AccumulatorMachine.Json

/-- The number with a given literal, if the text is a literal. -/
def Value.ofLiteral? (literal : List Char) : Option Value :=
  if isNumber literal then some (.number literal) else none

/-- A cell as an exact number, or the cell itself if its digits are no literal. -/
def dumpCell (cell : Nat) : Except Nat Value :=
  match Value.ofLiteral? (Numeral.decimal cell) with
  | some number => .ok number
  | none => .error cell

/-- The array of some cells, or the first of them that is no number. -/
def dump (cells : List Nat) : Except Nat Value := (cells.mapM dumpCell).map .array

end AccumulatorMachine.Json
