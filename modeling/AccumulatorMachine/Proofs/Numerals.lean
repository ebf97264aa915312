import AccumulatorMachine.Numeral
import Mathlib

/-!
# Spellings of numbers

The digits of a number are those of its quotient by the base and one more, so every fact about
the digits of all numbers is an induction on the number. Two are needed beside the one that stands
with the digits themselves: a decimal does not begin with a zero unless it is zero, and hexadecimal
digits are read back, whatever zeros stand in front of them. The other way, from decimal digits to
their number and back, the induction is on the digits (`toDigits_ofDigitChars`).
-/

namespace AccumulatorMachine.Numeral

/-! ## Decimal -/

theorem digitChar_ne_zero {d : Nat} (hpos : 0 < d) (hlt : d < 10) : d.digitChar ≠ '0' := by
  interval_cases d <;> decide

theorem head?_decimal_ne_zero {n : Nat} (hpos : 0 < n) : (decimal n).head? ≠ some '0' := by
  unfold decimal
  induction n using Nat.strongRecOn with
  | ind n ih =>
      rcases Nat.lt_or_ge n 10 with hlt | hge
      · rw [Nat.toDigits_of_lt_base hlt, List.head?_cons]
        exact fun h => digitChar_ne_zero hpos hlt (Option.some.inj h)
      · -- the first digit is that of the quotient
        rw [Nat.toDigits_of_base_le (by decide) hge,
          List.head?_append_of_ne_nil _ Nat.toDigits_ne_nil]
        exact ih (n / 10) (by omega) (by omega)

theorem value_lt_of_isDigit {c : Char} (h : c.isDigit) : c.toNat - '0'.toNat < 10 := by
  have hhigh := (Char.isDigit_iff_toNat.mp h).2
  have hnine : '9'.toNat = '0'.toNat + 9 := rfl
  omega

theorem digitChar_of_isDigit {c : Char} (h : c.isDigit) :
    (c.toNat - '0'.toNat).digitChar = c := by
  have hlow := (Char.isDigit_iff_toNat.mp h).1
  have hzero : '0'.toNat = 48 := rfl
  apply Char.toNat_inj.mp
  rw [Nat.toNat_digitChar_of_lt_ten (value_lt_of_isDigit h)]
  omega

/-- Digits that are read on from a number are written on behind it. -/
theorem toDigits_ofDigitChars {digits : List Char} (h : ∀ c ∈ digits, c.isDigit) {n : Nat}
    (hpos : 0 < n) :
    Nat.toDigits 10 (Nat.ofDigitChars 10 digits n) = Nat.toDigits 10 n ++ digits := by
  induction digits generalizing n with
  | nil => rw [Nat.ofDigitChars_nil, List.append_nil]
  | cons c digits ih =>
      obtain ⟨hc, hdigits⟩ := List.forall_mem_cons.mp h
      have hlt := value_lt_of_isDigit hc
      rw [Nat.ofDigitChars_cons, ih hdigits (by omega),
        ← Nat.toDigits_append_toDigits (by decide) hpos hlt, Nat.toDigits_of_lt_base hlt,
        digitChar_of_isDigit hc, List.append_assoc, List.singleton_append]

theorem length_padded (width : Nat) (digits : List Char) :
    (padded width digits).length = max width digits.length := by
  unfold padded
  rw [List.length_append, List.length_replicate]
  omega

theorem isDigit_of_mem_padded {width n : Nat} {c : Char} (h : c ∈ padded width (decimal n)) :
    c.isDigit := by
  rcases List.mem_append.mp h with hzero | hdigit
  · rw [List.eq_of_mem_replicate hzero]
    decide
  · exact isDigit_of_mem_decimal hdigit

/-! ## Hexadecimal -/

theorem hexDigit?_digitChar {d : Nat} (h : d < 16) : hexDigit? d.digitChar = some d := by
  interval_cases d <;> decide

theorem ofHexadecimal?_append (front back : List Char) :
    ofHexadecimal? (front ++ back)
      = (ofHexadecimal? front).bind fun n =>
          back.foldlM (fun n c => (hexDigit? c).map (16 * n + ·)) n := by
  unfold ofHexadecimal?
  rw [List.foldlM_append]
  rfl

theorem ofHexadecimal?_toDigits (n : Nat) : ofHexadecimal? (Nat.toDigits 16 n) = some n := by
  induction n using Nat.strongRecOn with
  | ind n ih =>
      rcases Nat.lt_or_ge n 16 with hlt | hge
      · rw [Nat.toDigits_of_lt_base hlt, ofHexadecimal?, List.foldlM_cons,
          hexDigit?_digitChar hlt]
        simp
      · have hlast : n % 16 < 16 := Nat.mod_lt _ (by decide)
        rw [Nat.toDigits_of_base_le (by decide) hge, ofHexadecimal?_append, ih (n / 16) (by omega),
          Option.bind_some, List.foldlM_cons, hexDigit?_digitChar hlast]
        simp [Nat.div_add_mod]

/-- Leading zeros do not count. -/
theorem ofHexadecimal?_hexadecimal (width n : Nat) :
    ofHexadecimal? (hexadecimal width n) = some n := by
  have hzeros : ∀ k, ofHexadecimal? (List.replicate k '0') = some 0 := by
    intro k
    induction k with
    | zero => rfl
    | succ k ih => exact ih
  have hdigits := ofHexadecimal?_toDigits n
  unfold hexadecimal padded
  rw [ofHexadecimal?_append, hzeros]
  exact hdigits

/-- Digits that are read as a number are digits, each of them. -/
theorem exists_hexDigit?_of_mem {digits : List Char} {value : Nat}
    (h : ofHexadecimal? digits = some value) : ∀ c ∈ digits, ∃ d, hexDigit? c = some d := by
  unfold ofHexadecimal? at h
  -- what has been read so far is free in the induction
  generalize 0 = n at h
  induction digits generalizing n with
  | nil => simp
  | cons c digits ih =>
      rw [List.foldlM_cons] at h
      obtain ⟨next, hnext, hrest⟩ := Option.bind_eq_some_iff.mp h
      obtain ⟨d, hd, -⟩ := Option.map_eq_some_iff.mp hnext
      exact List.forall_mem_cons.mpr ⟨⟨d, hd⟩, ih next hrest⟩

theorem length_hexadecimal {width n : Nat} (hpos : 0 < width) (h : n < 16 ^ width) :
    (hexadecimal width n).length = width := by
  have hle := (Nat.length_toDigits_le_iff (by decide) hpos).mpr h
  unfold hexadecimal padded
  rw [List.length_append, List.length_replicate]
  omega

end AccumulatorMachine.Numeral
