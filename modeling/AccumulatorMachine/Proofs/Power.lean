import AccumulatorMachine.Power
import Mathlib

/-!
# The guard on powers refuses nothing that fits

`power` looks at a lower bound of the result's length before it computes anything. That is
only sound if the bound really lies below the true length, also where its 64-bit
arithmetic stops at the maximum: `leastBits_le` says so. With it the early check never
decides anything that the exact check after it would not decide the same way, and what
`power` computes can be said without the bound: `power_eq_ok_iff`.
-/

namespace AccumulatorMachine

/-- A number is longer than a width when it reaches the next power of two. -/
theorem lt_bitLength_iff (n width : Nat) : width < bitLength n ↔ 2 ^ width ≤ n := by
  have h := bitLength_le_iff n width
  rw [Nat.one_shiftLeft] at h
  rw [← Nat.not_le, h, Nat.not_lt]

theorem bitLength_le_of_lt {n width : Nat} (h : n < 2 ^ width) : bitLength n ≤ width := by
  rw [← Nat.not_lt, lt_bitLength_iff]
  omega

/-- **The lower bound is one.** Each factor of a base of `k + 1` bits doubles the power `k`
times at least, and both places where the count stops can only lower it. -/
theorem leastBits_le {base : Nat} (hb : 2 ≤ base) (exponent : Nat) :
    leastBits base exponent ≤ bitLength (base ^ exponent) := by
  have hlen : bitLength base - 1 = base.log2 := by
    unfold bitLength
    rw [if_neg (by omega)]
    rfl
  have hcap : base.log2 * min exponent maxCount ≤ base.log2 * exponent :=
    Nat.mul_le_mul_left _ (Nat.min_le_left _ _)
  have htrue : base.log2 * exponent < bitLength (base ^ exponent) := by
    -- the base is at least `2 ^ log2`, and raising both to the exponent keeps that
    rw [lt_bitLength_iff, Nat.pow_mul]
    exact Nat.pow_le_pow_left (Nat.log2_self_le (by omega)) exponent
  unfold leastBits
  rw [hlen]
  exact Nat.le_trans (Nat.min_le_right _ _) (by omega)

/-- A limit that allows the true length allows the lower bound. -/
theorem checkLength_leastBits {base exponent : Nat} {limit : Option Nat} (hb : 2 ≤ base)
    (h : checkLength limit (bitLength (base ^ exponent)) = .ok ()) :
    checkLength limit (leastBits base exponent) = .ok () := by
  rw [checkLength_eq_ok_iff] at h ⊢
  intro most hmost
  exact Nat.le_trans (leastBits_le hb exponent) (h most hmost)

/-- A base of zero or one, or an exponent of zero, has its power at once. -/
theorem power_trivial {base exponent : Nat} (limit : Option Nat) (h : base ≤ 1 ∨ exponent = 0) :
    power base exponent limit = .ok (base ^ exponent) := by
  unfold power
  by_cases he : exponent = 0
  · rw [if_pos he, he, Nat.pow_zero]
  · have hb : base ≤ 1 := by omega
    rw [if_neg he, if_pos hb]
    rcases Nat.le_one_iff_eq_zero_or_eq_one.mp hb with rfl | rfl
    · rw [Nat.zero_pow (Nat.pos_of_ne_zero he)]
    · rw [Nat.one_pow]

/-- What is left of the guard for a base that grows: a short exponent and the true length. -/
theorem power_growing {base exponent result : Nat} {limit : Option Nat} (hb : 2 ≤ base)
    (he : exponent ≠ 0) :
    power base exponent limit = .ok result ↔
      result = base ^ exponent ∧ exponent < 2 ^ 32 ∧
        checkLength limit (bitLength (base ^ exponent)) = .ok () := by
  have hsize : UInt32.size = 2 ^ 32 := rfl
  have hpow : base.pow exponent = base ^ exponent := rfl
  unfold power
  rw [if_neg he, if_neg (by omega), hpow]
  refine ⟨?_, ?_⟩
  · intro h
    cases hleast : checkLength limit (leastBits base exponent) with
    | error cause => rw [hleast] at h; contradiction
    | ok =>
        rw [hleast] at h
        change (if UInt32.size ≤ exponent then _ else _) = _ at h
        split at h
        · contradiction
        · cases hexact : checkLength limit (bitLength (base ^ exponent)) with
          | error cause => rw [hexact] at h; contradiction
          | ok =>
              rw [hexact] at h
              cases h
              exact ⟨rfl, by omega, rfl⟩
  · intro h
    obtain ⟨rfl, hshort, hexact⟩ := h
    -- the early check passes because the exact one does
    rw [checkLength_leastBits hb hexact]
    change (if UInt32.size ≤ exponent then _ else _) = _
    rw [if_neg (by omega), hexact]
    rfl

/-- **When a power is computed, and what it then is.** The early check has no part in it. -/
theorem power_eq_ok_iff {base exponent result : Nat} {limit : Option Nat} :
    power base exponent limit = .ok result ↔
      result = base ^ exponent ∧
        (2 ≤ base → exponent ≠ 0 → exponent < 2 ^ 32 ∧
          ∀ most, limit = some most → bitLength (base ^ exponent) ≤ most) := by
  by_cases htrivial : base ≤ 1 ∨ exponent = 0
  · rw [power_trivial limit htrivial]
    refine ⟨fun h => ?_, fun h => ?_⟩
    · exact ⟨(Except.ok.inj h).symm, fun hb he => by omega⟩
    · rw [h.1]
  · have hb : 2 ≤ base := by omega
    have he : exponent ≠ 0 := by omega
    rw [power_growing hb he, checkLength_eq_ok_iff]
    exact ⟨fun h => ⟨h.1, fun _ _ => h.2⟩, fun h => ⟨h.1, h.2 hb he⟩⟩

/-- A power that is computed under a limit has no more bits, except that it may have one. -/
theorem bitLength_of_power {base exponent result most : Nat}
    (h : power base exponent (some most) = .ok result) : bitLength result ≤ max 1 most := by
  obtain ⟨rfl, hchecked⟩ := power_eq_ok_iff.mp h
  by_cases htrivial : base ≤ 1 ∨ exponent = 0
  · have hone : base ^ exponent ≤ 1 := by
      rcases htrivial with hb | rfl
      · have hpow := Nat.pow_le_pow_left hb exponent
        rwa [Nat.one_pow] at hpow
      · rw [Nat.pow_zero]
    have hlt : base ^ exponent < 2 ^ 1 := by omega
    exact Nat.le_trans (bitLength_le_of_lt hlt) (Nat.le_max_left _ _)
  · have hlength := (hchecked (by omega) (by omega)).2 most rfl
    omega

theorem checkLength_eq_error_iff {limit : Option Nat} {bits : Nat} {cause : PowerError} :
    checkLength limit bits = .error cause ↔
      ∃ most, limit = some most ∧ most < bits ∧ cause = .limitExceeded bits most := by
  cases limit with
  | none => simp [checkLength]
  | some most =>
      unfold checkLength
      by_cases hlong : most < bits
      · simp [hlong, eq_comm]
      · simp [hlong]

/-- **The three ways to refuse a power**, in the order in which they are looked for. -/
theorem power_error_cases {base exponent : Nat} {limit : Option Nat} {cause : PowerError}
    (h : power base exponent limit = .error cause) :
    2 ≤ base ∧ exponent ≠ 0 ∧
      (checkLength limit (leastBits base exponent) = .error cause
      ∨ (checkLength limit (leastBits base exponent) = .ok ()
          ∧ 2 ^ 32 ≤ exponent
          ∧ cause = .exponentTooLarge (.ofList (Numeral.decimal exponent)))
      ∨ (exponent < 2 ^ 32 ∧ checkLength limit (bitLength (base ^ exponent)) = .error cause)) := by
  have hsize : UInt32.size = 2 ^ 32 := rfl
  by_cases htrivial : base ≤ 1 ∨ exponent = 0
  · rw [power_trivial limit htrivial] at h
    contradiction
  · refine ⟨by omega, by omega, ?_⟩
    unfold power at h
    rw [if_neg (by omega), if_neg (by omega)] at h
    cases hleast : checkLength limit (leastBits base exponent) with
    | error first =>
        rw [hleast] at h
        exact Or.inl (congrArg Except.error (Except.error.inj h))
    | ok =>
        rw [hleast] at h
        change (if UInt32.size ≤ exponent then _ else _) = _ at h
        split at h
        · exact Or.inr (Or.inl ⟨rfl, by omega, (Except.error.inj h).symm⟩)
        · refine Or.inr (Or.inr ⟨by omega, ?_⟩)
          change checkLength limit (bitLength (base.pow exponent)) = _
          cases hexact : checkLength limit (bitLength (base.pow exponent)) with
          | error last =>
              rw [hexact] at h
              exact congrArg Except.error (Except.error.inj h)
          | ok =>
              rw [hexact] at h
              contradiction

/-- **When an exponent is refused**, and with which digits. The early check has passed then, and the
exact one has not been made. -/
theorem power_eq_exponentTooLarge_iff {base exponent : Nat} {digits : String}
    {limit : Option Nat} :
    power base exponent limit = .error (.exponentTooLarge digits) ↔
      digits = .ofList (Numeral.decimal exponent) ∧ 2 ≤ base ∧ 2 ^ 32 ≤ exponent
        ∧ checkLength limit (leastBits base exponent) = .ok () := by
  have hsize : UInt32.size = 2 ^ 32 := rfl
  constructor
  · intro h
    obtain ⟨hb, -, hleast | ⟨hleast, hlong, hcause⟩ | ⟨-, hexact⟩⟩ := power_error_cases h
    · obtain ⟨_, -, -, hcause⟩ := checkLength_eq_error_iff.mp hleast
      contradiction
    · exact ⟨PowerError.exponentTooLarge.inj hcause, hb, hlong, hleast⟩
    · obtain ⟨_, -, -, hcause⟩ := checkLength_eq_error_iff.mp hexact
      contradiction
  · rintro ⟨rfl, hb, hlong, hleast⟩
    unfold power
    rw [if_neg (by omega), if_neg (by omega), hleast]
    exact if_pos (by omega)

/-- Without a limit only the exponent can be at fault. -/
theorem power_unlimited_error {base exponent : Nat} {cause : PowerError}
    (h : power base exponent none = .error cause) :
    cause = .exponentTooLarge (.ofList (Numeral.decimal exponent)) := by
  obtain ⟨-, -, hleast | ⟨-, -, hcause⟩ | ⟨-, hexact⟩⟩ := power_error_cases h
  · contradiction
  · exact hcause
  · contradiction

end AccumulatorMachine
