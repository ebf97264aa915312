/-!
# Blank characters

The characters with the Unicode property `White_Space`, as a table of ranges. Core's
`Char.isWhitespace` has four of them; source text is separated by any.
-/

namespace AccumulatorMachine.Text

/-- The ranges of code points with the property `White_Space`, ends included. -/
def blankRanges : List (Nat × Nat) :=
  [(0x0009, 0x000D), (0x0020, 0x0020), (0x0085, 0x0085), (0x00A0, 0x00A0), (0x1680, 0x1680),
    (0x2000, 0x200A), (0x2028, 0x2029), (0x202F, 0x202F), (0x205F, 0x205F), (0x3000, 0x3000)]

def isBlank (c : Char) : Bool := blankRanges.any fun (low, high) => low ≤ c.toNat && c.toNat ≤ high

/-- The characters up to the first blank. -/
def wordAt (text : List Char) : List Char := text.takeWhile (!isBlank ·)

/-- A text without the blanks at its two ends. -/
def trim (text : List Char) : List Char := ((text.dropWhile isBlank).reverse.dropWhile isBlank).reverse

end AccumulatorMachine.Text
