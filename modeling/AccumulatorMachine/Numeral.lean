/-!
# Numerals

Decimal and hexadecimal digits as lists of characters, and the numbers they spell.
Decimal digits are those of `Nat.toDigits`, so a number has one spelling without leading
zeros; reading accepts any number of them. `ofDecimal` reads digits as the number they
spell, however large; `ofDecimal64?` reads them as a program does that has 64 bits for
the number, digit by digit, and gives up when it runs over. Hexadecimal digits are written
in lower case and read in either.
-/

namespace AccumulatorMachine.Numeral

/-- The decimal digits of a number, with no leading zero. -/
def decimal (n : Nat) : List Char := Nat.toDigits 10 n

/-- Zeros in front of digits that do not fill a width; longer digits are left alone. -/
def padded (width : Nat) (digits : List Char) : List Char :=
  List.replicate (width - digits.length) '0' ++ digits

/-- Lower-case hexadecimal digits, at least `width` of them. -/
def hexadecimal (width n : Nat) : List Char := padded width (Nat.toDigits 16 n)

/-- The number that decimal digits spell; leading zeros do not count. -/
def ofDecimal (digits : List Char) : Nat := Nat.ofDigitChars 10 digits 0

/-- A number and one more decimal digit, unless together they need more than 64 bits. -/
def pushDigit? (n : Nat) (c : Char) : Option Nat :=
  let next := 10 * n + (c.toNat - '0'.toNat)
  if next < UInt64.size then some next else none

/-- The number that decimal digits spell, given up at the first digit that overflows 64 bits. -/
def ofDecimal64? (digits : List Char) : Option Nat := digits.foldlM pushDigit? 0

/-- What one hexadecimal digit is worth. -/
def hexDigit? (c : Char) : Option Nat :=
  if '0' ≤ c ∧ c ≤ '9' then some (c.toNat - '0'.toNat)
  else if 'a' ≤ c ∧ c ≤ 'f' then some (c.toNat - 'a'.toNat + 10)
  else if 'A' ≤ c ∧ c ≤ 'F' then some (c.toNat - 'A'.toNat + 10)
  else none

/-- The number that hexadecimal digits spell, unless one of them is no such digit. -/
def ofHexadecimal? (digits : List Char) : Option Nat :=
  digits.foldlM (fun n c => (hexDigit? c).map (16 * n + ·)) 0

@[simp] theorem ofDecimal_decimal (n : Nat) : ofDecimal (decimal n) = n :=
  Nat.ofDigitChars_toDigits (by decide) (by decide)

theorem isDigit_of_mem_decimal {n : Nat} {c : Char} (hmem : c ∈ decimal n) : c.isDigit :=
  Nat.isDigit_of_mem_toDigits (by decide) (by decide) hmem

theorem decimal_ne_nil (n : Nat) : decimal n ≠ [] := Nat.toDigits_ne_nil

/-- Padding changes no value. -/
@[simp] theorem ofDecimal_padded (width : Nat) (digits : List Char) :
    ofDecimal (padded width digits) = ofDecimal digits := by
  unfold padded
  induction width - digits.length with
  | zero => rfl
  | succ k ih => simpa [ofDecimal, Nat.ofDigitChars, List.replicate_succ] using ih

/-- More digits do not make a number smaller. -/
theorem le_ofDigitChars (digits : List Char) : ∀ n, n ≤ Nat.ofDigitChars 10 digits n := by
  induction digits with
  | nil => intro n; exact Nat.le_of_eq Nat.ofDigitChars_nil.symm
  | cons c digits ih =>
      intro n
      have hle := ih (10 * n + (c.toNat - '0'.toNat))
      rw [Nat.ofDigitChars_cons]
      omega

theorem foldlM_pushDigit?_eq_some_iff (digits : List Char) {value : Nat} :
    ∀ n, n < UInt64.size →
      (digits.foldlM pushDigit? n = some value ↔
        Nat.ofDigitChars 10 digits n = value ∧ value < UInt64.size) := by
  induction digits with
  | nil =>
      intro n hsmall
      rw [List.foldlM_nil, Nat.ofDigitChars_nil]
      exact ⟨fun hsame => Option.some.inj hsame ▸ ⟨rfl, hsmall⟩, fun hsame => congrArg some hsame.1⟩
  | cons c digits ih =>
      intro n _
      rw [List.foldlM_cons, Nat.ofDigitChars_cons, pushDigit?]
      by_cases hnext : 10 * n + (c.toNat - '0'.toNat) < UInt64.size
      · simp only [if_pos hnext]
        exact ih _ hnext
      -- once a digit has overflowed, the value only grows
      · have hle := le_ofDigitChars digits (10 * n + (c.toNat - '0'.toNat))
        simp only [if_neg hnext]
        refine ⟨fun hfound => ?_, fun ⟨hsame, hsmall⟩ => ?_⟩
        · contradiction
        · omega

/-- **Reading digits into 64 bits** gives their value if it fits, and never another. -/
theorem ofDecimal64?_eq_some_iff {digits : List Char} {value : Nat} :
    ofDecimal64? digits = some value ↔ ofDecimal digits = value ∧ value < UInt64.size :=
  foldlM_pushDigit?_eq_some_iff digits 0 (by decide)

end AccumulatorMachine.Numeral
