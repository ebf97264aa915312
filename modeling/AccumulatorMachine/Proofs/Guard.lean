import AccumulatorMachine.Machine.State
import AccumulatorMachine.Proofs.Power

/-!
# The guard on powers is exact, and its reports are true

A power is computed, or refused for its length, or refused for its exponent, and which of the
three it is can be said in terms of the true result, although a refusal comes before there is
one. The length in a refusal is either the true one or the lower bound, and the lower bound is
never more (`leastBits_le`), so a length beyond the limit is always real. An exponent is only
blamed where the lower bound is within the limit. There the two places at which 64-bit
arithmetic stops do not show: the bound is what it would be with one stop at the end
(`leastBits_eq`).
-/

namespace AccumulatorMachine

/-! ## The lower bound -/

/-- The exponent need not be cut to 64 bits. One that has to be takes the product to the maximum
anyway. -/
theorem leastBits_eq {base : Nat} (hb : 2 ≤ base) (exponent : Nat) :
    leastBits base exponent = min maxCount ((bitLength base - 1) * exponent + 1) := by
  have hlen : 1 ≤ bitLength base - 1 := by
    have htwo : 1 < bitLength base := (lt_bitLength_iff base 1).mpr hb
    omega
  unfold leastBits
  rcases Nat.le_total exponent maxCount with hshort | hlong
  · rw [Nat.min_eq_left hshort]
  · have hcut : maxCount ≤ (bitLength base - 1) * maxCount := Nat.le_mul_of_pos_left _ hlen
    have hfull : (bitLength base - 1) * maxCount ≤ (bitLength base - 1) * exponent :=
      Nat.mul_le_mul_left _ hlong
    rw [Nat.min_eq_right hlong, Nat.min_eq_left (by omega), Nat.min_eq_left (by omega)]

/-! ## Refusals -/

/-- **A length that is reported is beyond the limit**, and the result has at least as many bits. -/
theorem limitExceeded_of_power {base exponent bits most : Nat} {limit : Option Nat}
    (h : power base exponent limit = .error (.limitExceeded bits most)) :
    limit = some most ∧ most < bits ∧ bits ≤ bitLength (base ^ exponent) := by
  have hchecked : ∀ length, checkLength limit length = .error (.limitExceeded bits most) →
      limit = some most ∧ most < bits ∧ bits = length := by
    intro length hlength
    obtain ⟨_, hlimit, hlong, hcause⟩ := checkLength_eq_error_iff.mp hlength
    obtain ⟨rfl, rfl⟩ := PowerError.limitExceeded.inj hcause
    exact ⟨hlimit, hlong, rfl⟩
  obtain ⟨hb, -, hleast | ⟨-, -, hcause⟩ | ⟨-, hexact⟩⟩ := power_error_cases h
  · obtain ⟨hlimit, hlong, rfl⟩ := hchecked _ hleast
    exact ⟨hlimit, hlong, leastBits_le hb exponent⟩
  · contradiction
  · obtain ⟨hlimit, hlong, rfl⟩ := hchecked _ hexact
    exact ⟨hlimit, hlong, Nat.le_refl _⟩

theorem powerAt_eq_ok_iff {index base exponent result : Nat} {limit : Option Nat} :
    powerAt index base exponent limit = .ok result ↔ power base exponent limit = .ok result := by
  unfold powerAt
  cases power base exponent limit with
  | ok computed => simp [Except.mapError]
  | error cause => simp [Except.mapError]

theorem powerAt_eq_error_iff {index base exponent : Nat} {limit : Option Nat} {fault : Fault} :
    powerAt index base exponent limit = .error fault ↔
      ∃ cause, power base exponent limit = .error cause ∧ fault = .pow index cause := by
  unfold powerAt
  cases power base exponent limit with
  | ok computed => simp [Except.mapError]
  | error cause => simp [Except.mapError, eq_comm]

/-- What a refused exponent is reported with. -/
theorem message_exponentTooLarge (index : Nat) (digits : String) :
    (Fault.pow index (.exponentTooLarge digits)).message
      = "POW at index " ++ String.ofList (Numeral.decimal index) ++ ": exponent " ++ digits
        ++ " does not fit in 32 bits" := by
  have hdecimal : String.ofList (Numeral.decimal index) = toString index :=
    Nat.toString_eq_ofList_toDigits.symm
  rw [hdecimal]
  rfl

/--
**The guard on powers is exact, and its reports are true.**

A power is computed just when its base or exponent is trivial, or its exponent has no more than 32
bits and its true length is within the limit; it is then the true power, and within the limit. A
refusal carries the index. One for the length carries the limit and a length beyond it that the
true result has at least. One for the exponent comes just where the exponent is too long and the
lower bound of the length, with one stop at 64 bits, is within the limit; it carries the exponent
in decimal, and that is what is shown. `POW` is this power, at the index of its word.
-/
theorem powerAt_guard_is_exact (index base exponent : Nat) (limit : Option Nat) :
    (∀ result, powerAt index base exponent limit = .ok result ↔
      result = base ^ exponent ∧ (base ≤ 1 ∨ exponent = 0 ∨ (exponent < 2 ^ 32
        ∧ ∀ most, limit = some most → bitLength (base ^ exponent) ≤ most)))
    ∧ (∀ result most, powerAt index base exponent limit = .ok result → limit = some most →
        1 ≤ most → bitLength result ≤ most)
    ∧ (∀ fault, powerAt index base exponent limit = .error fault →
        (∃ bits most, fault = .pow index (.limitExceeded bits most) ∧ limit = some most
          ∧ most < bits ∧ bits ≤ bitLength (base ^ exponent))
        ∨ (fault = .pow index (.exponentTooLarge (.ofList (Numeral.decimal exponent)))
          ∧ fault.message
            = "POW at index " ++ String.ofList (Numeral.decimal index) ++ ": exponent "
              ++ String.ofList (Numeral.decimal exponent) ++ " does not fit in 32 bits"))
    ∧ (powerAt index base exponent limit
          = .error (.pow index (.exponentTooLarge (.ofList (Numeral.decimal exponent)))) ↔
        2 ≤ base ∧ 2 ^ 32 ≤ exponent ∧ ∀ most, limit = some most →
          min (2 ^ 64 - 1) ((bitLength base - 1) * exponent + 1) ≤ most)
    ∧ (Fault.pow index (.exponentTooLarge (.ofList (Numeral.decimal exponent)))).message
        = "POW at index " ++ String.ofList (Numeral.decimal index) ++ ": exponent "
          ++ String.ofList (Numeral.decimal exponent) ++ " does not fit in 32 bits"
    ∧ ∀ (i : Instruction) (s : State), i.opcode = .pow → s.steps = index → s.accumulator = base →
        s.memory.load i.significant = exponent →
        State.execute limit i s
          = (powerAt index base exponent limit).map (s.advance · s.memory) := by
  refine ⟨fun result => ?_, fun result most hpower hlimit hone => ?_, fun fault hpower => ?_, ?_,
    message_exponentTooLarge index _, ?_⟩
  · rw [powerAt_eq_ok_iff, power_eq_ok_iff]
    refine and_congr_right fun _ => ⟨fun h => ?_, fun h hb he => ?_⟩
    · by_cases htrivial : base ≤ 1 ∨ exponent = 0
      · exact htrivial.imp_right Or.inl
      · exact Or.inr (Or.inr (h (by omega) (by omega)))
    · obtain hb' | he' | hchecked := h
      · omega
      · contradiction
      · exact hchecked
  · rw [hlimit, powerAt_eq_ok_iff] at hpower
    have hlength := bitLength_of_power hpower
    omega
  · obtain ⟨cause, hcause, rfl⟩ := powerAt_eq_error_iff.mp hpower
    cases cause with
    | limitExceeded bits most => exact Or.inl ⟨bits, most, rfl, limitExceeded_of_power hcause⟩
    | exponentTooLarge digits =>
        rw [(power_eq_exponentTooLarge_iff.mp hcause).1]
        exact Or.inr ⟨rfl, message_exponentTooLarge index _⟩
  · rw [powerAt_eq_error_iff]
    have hcount : maxCount = 2 ^ 64 - 1 := rfl
    constructor
    · rintro ⟨cause, hcause, hfault⟩
      obtain ⟨-, rfl⟩ := Fault.pow.inj hfault
      obtain ⟨-, hb, hlong, hleast⟩ := power_eq_exponentTooLarge_iff.mp hcause
      rw [checkLength_eq_ok_iff, leastBits_eq hb, hcount] at hleast
      exact ⟨hb, hlong, hleast⟩
    · rintro ⟨hb, hlong, hleast⟩
      rw [← hcount, ← leastBits_eq hb, ← checkLength_eq_ok_iff] at hleast
      exact ⟨_, power_eq_exponentTooLarge_iff.mpr ⟨rfl, hb, hlong, hleast⟩, rfl⟩
  · rintro i s hop rfl rfl rfl
    exact State.execute_pow_eq_map limit s hop

/-- A result that just fits, one that is a bit too long although its lower bound is not, and an
exponent of a hundred bits against the greatest limit. -/
theorem powerAt_guard_is_exact_at_the_edges :
    (powerAt 4 3 40 (some 64) = .ok 12157665459056928801 ∧ bitLength 12157665459056928801 ≤ 64)
    ∧ (powerAt 4 3 41 (some 64) = .error (.pow 4 (.limitExceeded 65 64))
        ∧ 65 ≤ bitLength (3 ^ 41))
    ∧ (powerAt 9 2 (2 ^ 100) (some (2 ^ 64 - 1))
          = .error (.pow 9 (.exponentTooLarge "1267650600228229401496703205376"))
        ∧ (Fault.pow 9 (.exponentTooLarge "1267650600228229401496703205376")).message
          = "POW at index 9: exponent 1267650600228229401496703205376 does not fit in 32 bits")
    ∧ ∃ t, State.execute (some 64) ⟨.pow, 1⟩ ⟨3, ⟨#[0, 40]⟩, 4⟩ = .ok t
        ∧ t.accumulator = 12157665459056928801 := by
  obtain ⟨hok, hwithin, -, -, -, hinstruction⟩ := powerAt_guard_is_exact 4 3 40 (some 64)
  obtain ⟨-, -, hrefused, -, -, -⟩ := powerAt_guard_is_exact 4 3 41 (some 64)
  obtain ⟨-, -, -, hlong, hmessage, -⟩ := powerAt_guard_is_exact 9 2 (2 ^ 100) (some (2 ^ 64 - 1))
  have hfits : powerAt 4 3 40 (some 64) = .ok 12157665459056928801 := by
    refine (hok _).mpr ⟨by decide, Or.inr (Or.inr ⟨by decide, fun most hmost => ?_⟩)⟩
    obtain rfl := Option.some.inj hmost
    decide
  have hbeyond : powerAt 4 3 41 (some 64) = .error (.pow 4 (.limitExceeded 65 64)) := by rfl
  refine ⟨⟨hfits, hwithin _ 64 hfits rfl (by decide)⟩, ⟨hbeyond, ?_⟩, ⟨?_, ?_⟩, ?_⟩
  · obtain ⟨bits, most, hfault, -, -, hlength⟩ | ⟨hfault, -⟩ := hrefused _ hbeyond
    · obtain ⟨rfl, rfl⟩ := PowerError.limitExceeded.inj (Fault.pow.inj hfault).2
      exact hlength
    · contradiction
  · refine hlong.mpr ⟨by decide, by decide, fun most hmost => ?_⟩
    obtain rfl := Option.some.inj hmost
    exact Nat.min_le_left _ _
  · exact hmessage
  · rw [hinstruction ⟨.pow, 1⟩ ⟨3, ⟨#[0, 40]⟩, 4⟩ rfl rfl rfl rfl, hfits]
    exact ⟨_, rfl, rfl⟩

end AccumulatorMachine
