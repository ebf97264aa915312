import AccumulatorMachine.Memory.Checked
import AccumulatorMachine.Proofs.Slices

/-!
# Slices for all 64-bit bounds

A slice is asked for with two signed bounds of 64 bits, and cut out between two unsigned indices.
The way from one to the other goes through an absolute value, which the least bound has only
without a sign, a subtraction that stops at zero, and two conversions. None of it shows: each index
is the bound clamped to the memory as a bound among the integers is (`toNat_clamp`). The first is
then cut to the second, so what is left is always a range, and all there is to say about slices is
said about integers.
-/

namespace AccumulatorMachine

/-! ## Minimum and absolute value -/

theorem toNat_min (a b : UInt64) : (min a b).toNat = min a.toNat b.toNat := by
  show (if a ≤ b then a else b).toNat = _
  by_cases hle : a ≤ b
  · rw [if_pos hle, Nat.min_eq_left (UInt64.le_iff_toNat_le.mp hle)]
  · have hge : b.toNat ≤ a.toNat :=
      Nat.le_of_not_le fun hnat => hle (UInt64.le_iff_toNat_le.mpr hnat)
    rw [if_neg hle, Nat.min_eq_right hge]

/-- Without a sign every bound has its absolute value, also the least one. -/
theorem toNat_abs (bound : Int64) : bound.abs.toUInt64.toNat = bound.toInt.natAbs := by
  have habs : bound.abs.toUInt64.toNat = bound.toBitVec.abs.toNat := rfl
  have hint := BitVec.toInt_eq_msb_cond bound.toBitVec
  have hlt := bound.toBitVec.isLt
  rw [habs, BitVec.toNat_abs, ← Int64.toInt_toBitVec, hint]
  split
  · omega
  · omega

/-- A start that is cut to the stop gives the same cells. -/
theorem extract_min (cells : Array Nat) (start stop : Nat) :
    cells.extract (min start stop) stop = cells.extract start stop := by
  rcases Nat.le_total start stop with hle | hge
  · rw [Nat.min_eq_left hle]
  · rw [Nat.min_eq_right hge, Array.extract_empty_of_stop_le_start (Nat.le_refl stop),
      Array.extract_empty_of_stop_le_start hge]

namespace Memory

variable {m : Memory}

/-! ## Bounds -/

/-- **A bound of 64 bits falls where the integer falls.** -/
theorem toNat_clamp (h : m.size < 2 ^ 63) (bound : Int64) :
    (m.clamp bound).toNat = m.sliceBound bound.toInt := by
  have hsize : UInt64.size = 2 ^ 64 := rfl
  have hlow := bound.le_toInt
  have hhigh := bound.toInt_lt
  have hsign : bound < 0 ↔ bound.toInt < 0 := Int64.lt_iff_toInt_lt
  have hcount : m.count.toNat = m.size := toNat_count (by omega)
  unfold clamp sliceBound
  by_cases hneg : bound < 0
  · have hback : narrow? bound.toInt.natAbs = some (.ofNat bound.toInt.natAbs) :=
      if_pos (by omega)
    have hvalue : (UInt64.ofNat bound.toInt.natAbs).toNat = bound.toInt.natAbs :=
      UInt64.toNat_ofNat_of_lt' (by omega)
    have hmin : (min m.count (UInt64.ofNat bound.toInt.natAbs)).toNat
        = min m.size bound.toInt.natAbs := by rw [toNat_min, hcount, hvalue]
    -- no more is taken off than there is
    have hle : min m.count (UInt64.ofNat bound.toInt.natAbs) ≤ m.count := by
      rw [UInt64.le_iff_toNat_le, hmin, hcount]
      exact Nat.min_le_left _ _
    rw [if_pos hneg, if_pos (hsign.mp hneg), toNat_abs, hback, Option.getD_some,
      UInt64.toNat_sub_of_le _ _ hle, hmin, hcount]
    have := hsign.mp hneg
    omega
  · have hvalue : (UInt64.ofNat bound.toInt.toNat).toNat = bound.toInt.toNat :=
      UInt64.toNat_ofNat_of_lt' (by omega)
    have hbound : narrow? bound.toInt.toNat = some (.ofNat bound.toInt.toNat) :=
      if_pos (by omega)
    rw [if_neg hneg, if_neg (mt hsign.mpr hneg), hbound, Option.map_some, Option.getD_some,
      toNat_min, hcount, hvalue]

/-! ## Slices -/

/-- A slice is always a range inside the memory, and it is the one between the integers. -/
theorem slice?_eq (h : m.size < 2 ^ 63) (start stop : Int64) :
    m.slice? start stop = some (m.slice start.toInt stop.toInt) := by
  have hrange : min (m.clamp start) (m.clamp stop) ≤ m.clamp stop
      ∧ (m.clamp stop).toNat ≤ m.cells.size := by
    rw [UInt64.le_iff_toNat_le, toNat_min, toNat_clamp h stop]
    exact ⟨Nat.min_le_right _ _, m.sliceBound_le stop.toInt⟩
  unfold slice? slice
  dsimp only
  rw [if_pos hrange, toNat_min, extract_min, toNat_clamp h, toNat_clamp h]

theorem slice_of_le {start stop : Int} (h : m.sliceBound stop ≤ m.sliceBound start) :
    m.slice start stop = [] := by
  unfold slice
  rw [Array.extract_empty_of_stop_le_start h, Array.toList_empty]

/-- Slices that meet at a bound make one slice. -/
theorem slice_append {a b c : Int} (hab : m.sliceBound a ≤ m.sliceBound b)
    (hbc : m.sliceBound b ≤ m.sliceBound c) : m.slice a b ++ m.slice b c = m.slice a c := by
  have hmiddle : m.sliceBound b = m.sliceBound a + (m.sliceBound b - m.sliceBound a) := by omega
  have hwhole : m.sliceBound c - m.sliceBound a
      = (m.sliceBound b - m.sliceBound a) + (m.sliceBound c - m.sliceBound b) := by omega
  rw [slice_eq_map_range', slice_eq_map_range', slice_eq_map_range', ← List.map_append, hwhole,
    ← List.range'_append_1, ← hmiddle]

theorem slice_whole {start stop : Int} (hstart : m.sliceBound start = 0)
    (hstop : m.sliceBound stop = m.size) : m.slice start stop = m.cells.toList := by
  unfold slice
  rw [hstart, hstop]
  exact congrArg Array.toList Array.extract_size

/--
**Slices follow their bounds, whatever these are.**

For any number of cells that an array has room for, none included, and any two signed bounds of 64
bits, there is a slice: the cells at the indices from the first bound up to the second, in order,
each bound clamped to the memory as an integer. It is empty when the clamped bounds are equal or
cross. Slices that meet at a bound make one slice, and the slice from the least bound to the
greatest is the whole memory. For the same bounds as integers of any size the slice is the same.
-/
theorem slice_follows_bounds {m : Memory} (h : m.size < 2 ^ 63) :
    (∀ start stop : Int64,
      m.slice? start stop = some (between m.size m.cell start.toInt stop.toInt))
    ∧ (∀ start stop : Int64, boundIn m.size stop.toInt ≤ boundIn m.size start.toInt →
        m.slice? start stop = some [])
    ∧ (∀ a b c : Int64, boundIn m.size a.toInt ≤ boundIn m.size b.toInt →
        boundIn m.size b.toInt ≤ boundIn m.size c.toInt →
        ∃ front back, m.slice? a b = some front ∧ m.slice? b c = some back
          ∧ m.slice? a c = some (front ++ back))
    ∧ m.slice? Int64.minValue Int64.maxValue = some m.cells.toList
    ∧ ∀ start stop : Int64, m.slice? start stop = some (m.slice start.toInt stop.toInt) := by
  have hle : ∀ a b : Int, boundIn m.size a ≤ boundIn m.size b →
      m.sliceBound a ≤ m.sliceBound b := by
    intro a b hab
    rw [← sliceBound_eq, ← sliceBound_eq] at hab
    exact Int.ofNat_le.mp hab
  refine ⟨fun start stop => ?_, fun start stop hcross => ?_, fun a b c hab hbc => ?_, ?_,
    slice?_eq h⟩
  · rw [slice?_eq h, slice_eq_between]
  · rw [slice?_eq h, slice_of_le (hle _ _ hcross)]
  · refine ⟨_, _, slice?_eq h a b, slice?_eq h b c, ?_⟩
    rw [slice?_eq h, slice_append (hle _ _ hab) (hle _ _ hbc)]
  · have hstart : m.sliceBound Int64.minValue.toInt = 0 := by
      rw [Int64.toInt_minValue]
      unfold sliceBound
      rw [if_pos (by decide)]
      omega
    have hstop : m.sliceBound Int64.maxValue.toInt = m.size := by
      rw [Int64.toInt_maxValue]
      unfold sliceBound
      rw [if_neg (by decide)]
      omega
    rw [slice?_eq h, slice_whole hstart hstop]

/-- Three cells: from the least bound to the last cell, from there to the greatest bound, and
crossing. -/
theorem slice_follows_bounds_three_cells :
    (⟨#[10, 20, 30]⟩ : Memory).size < 2 ^ 63
    ∧ (⟨#[10, 20, 30]⟩ : Memory).slice? Int64.minValue (-1) = some [10, 20]
    ∧ (⟨#[10, 20, 30]⟩ : Memory).slice? (-1) Int64.maxValue = some [30]
    ∧ boundIn 3 Int64.minValue.toInt ≤ boundIn 3 (-1 : Int64).toInt
    ∧ boundIn 3 (-1 : Int64).toInt ≤ boundIn 3 Int64.maxValue.toInt
    ∧ (⟨#[10, 20, 30]⟩ : Memory).slice? Int64.minValue Int64.maxValue = some [10, 20, 30]
    ∧ (⟨#[10, 20, 30]⟩ : Memory).slice? (-1) 1 = some [] := by
  have hsize : (⟨#[10, 20, 30]⟩ : Memory).size < 2 ^ 63 := by decide
  have hlow : boundIn 3 Int64.minValue.toInt ≤ boundIn 3 (-1 : Int64).toInt := by decide
  have hhigh : boundIn 3 (-1 : Int64).toInt ≤ boundIn 3 Int64.maxValue.toInt := by decide
  obtain ⟨hbetween, hempty, happend, -, -⟩ := slice_follows_bounds hsize
  obtain ⟨front, back, hfront, hback, hwhole⟩ :=
    happend Int64.minValue (-1) Int64.maxValue hlow hhigh
  have htwo : (⟨#[10, 20, 30]⟩ : Memory).slice? Int64.minValue (-1) = some [10, 20] :=
    (hbetween _ _).trans (by rfl)
  have hone : (⟨#[10, 20, 30]⟩ : Memory).slice? (-1) Int64.maxValue = some [30] :=
    (hbetween _ _).trans (by rfl)
  obtain rfl := Option.some.inj (htwo.symm.trans hfront)
  obtain rfl := Option.some.inj (hone.symm.trans hback)
  exact ⟨hsize, htwo, hone, hlow, hhigh, hwhole, hempty (-1) 1 (by decide)⟩

end Memory

end AccumulatorMachine
