/-!
# Lines

A line ends at a line feed, which is not part of it, and neither is a carriage return
right before the line feed. What follows the last line feed is a line of its own if there
is anything; a carriage return at its very end stays, since no line feed follows it.
-/

namespace AccumulatorMachine.Text

/-- The lines of a text, in order. -/
def lines : List Char → List (List Char)
  | [] => []
  | '\n' :: rest => [] :: lines rest
  | '\r' :: '\n' :: rest => [] :: lines rest
  | c :: rest =>
    match lines rest with
    | [] => [[c]]
    | line :: more => (c :: line) :: more

example : lines "a\r\nb\n\r\nc\r".toList = ["a".toList, "b".toList, [], "c\r".toList] := by decide

end AccumulatorMachine.Text
