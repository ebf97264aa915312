import AccumulatorMachine.Numeral

/-!
# Guarded powers

`POW` can ask for numbers that no computer can hold, so a power is refused before it is
computed when its length is already known to be too great.

For a base of at least two the result has at least `(bitLength base - 1) * exponent + 1`
bits. That count is kept in 64 bits and stops at their maximum instead of wrapping, and so
it is never more than the true length: nothing that would fit is refused. Only then is the
exponent itself looked at: it has to fit 32 bits. A result that passes both is computed and
measured once more.

Bases of zero and one and an exponent of zero never grow, and skip all of this; zero to
the power zero is one.
-/

namespace AccumulatorMachine

/-- The number of binary digits; zero has none. -/
def bitLength (n : Nat) : Nat := if n = 0 then 0 else n.log2 + 1

/-- Why a power is refused. -/
inductive PowerError where
  /-- The result needs this many bits or more, beyond the limit. -/
  | limitExceeded (bits limit : Nat)
  /-- The exponent has more than 32 bits; it is kept as its decimal digits. -/
  | exponentTooLarge (digits : String)
  deriving DecidableEq

/-- The greatest bit count that is told apart from greater ones. -/
def maxCount : Nat := UInt64.size - 1

/-- A lower bound on the length of a power of a base of at least two. -/
def leastBits (base exponent : Nat) : Nat :=
  min maxCount ((bitLength base - 1) * min exponent maxCount + 1)

/-- Refuses a length beyond the limit, if there is one. -/
def checkLength (limit : Option Nat) (bits : Nat) : Except PowerError Unit :=
  match limit with
  | some limit => if limit < bits then .error (.limitExceeded bits limit) else .ok ()
  | none => .ok ()

/-- A power, unless its length is beyond the limit or its exponent beyond 32 bits. -/
def power (base exponent : Nat) (limit : Option Nat) : Except PowerError Nat :=
  if exponent = 0 then .ok 1
  else if base ≤ 1 then .ok base
  else do
    checkLength limit (leastBits base exponent)
    if UInt32.size ≤ exponent then .error (.exponentTooLarge (.ofList (Numeral.decimal exponent)))
    else do
      checkLength limit (bitLength (base.pow exponent))
      .ok (base.pow exponent)

theorem bitLength_le_iff (n width : Nat) : bitLength n ≤ width ↔ n < 1 <<< width := by
  rw [Nat.one_shiftLeft]
  unfold bitLength
  split
  next hzero => exact ⟨fun _ => hzero ▸ Nat.two_pow_pos width, fun _ => Nat.zero_le width⟩
  next hpos => exact Nat.log2_lt hpos

theorem checkLength_eq_ok_iff (limit : Option Nat) (bits : Nat) :
    checkLength limit bits = .ok () ↔ ∀ most, limit = some most → bits ≤ most := by
  cases limit with
  | none => simp [checkLength]
  | some most =>
      unfold checkLength
      by_cases hlong : most < bits
      · simp [hlong]
      · simp [hlong, Nat.le_of_not_lt hlong]

end AccumulatorMachine
