import AccumulatorMachine.Memory
import AccumulatorMachine.Proofs.Lists

/-!
# Slices of memory

A slice is cut out between two clamped positions, and the clamping is stated here on integers,
where a bound of either sign is a number like any other (`boundIn`). Once both positions are known
to be no further than the end, the slice is its indices in order, each with its cell.
-/

namespace AccumulatorMachine.Memory

/-- Where a bound falls among so many cells: a negative one counts from the end, and one beyond
either end falls on that end. -/
def boundIn (size : Nat) (bound : Int) : Int :=
  if bound < 0 then max 0 (size + bound) else min bound size

/-- The cells of so many that stand between two bounds, in order. -/
def between (size : Nat) (cell : Nat → Nat) (start stop : Int) : List Nat :=
  ((List.range size).filter fun (i : Nat) =>
    boundIn size start ≤ i ∧ i < boundIn size stop).map cell

theorem sliceBound_eq (m : Memory) (bound : Int) :
    (m.sliceBound bound : Int) = boundIn m.size bound := by
  unfold sliceBound boundIn
  split
  · omega
  · omega

theorem sliceBound_le (m : Memory) (bound : Int) : m.sliceBound bound ≤ m.size := by
  unfold sliceBound
  split
  · omega
  · omega

theorem slice_eq_map_range' (m : Memory) (start stop : Int) :
    m.slice start stop
      = (List.range' (m.sliceBound start) (m.sliceBound stop - m.sliceBound start)).map m.cell := by
  have hstop : m.sliceBound stop ≤ m.cells.size := m.sliceBound_le stop
  refine List.ext_getElem? fun i => ?_
  unfold slice cell
  rw [Array.getElem?_toList, Array.getElem?_extract, Nat.min_eq_left hstop, List.getElem?_map]
  by_cases hi : i < m.sliceBound stop - m.sliceBound start
  · rw [if_pos hi, List.getElem?_range' hi, Option.map_some, Nat.one_mul,
      Array.getD_eq_getD_getElem?, Array.getElem?_eq_getElem (by omega), Option.getD_some]
  · rw [if_neg hi, List.getElem?_eq_none (by rw [List.length_range']; omega), Option.map_none]

/-- **A slice holds the cells between its bounds.** -/
theorem slice_eq_between (m : Memory) (start stop : Int) :
    m.slice start stop = between m.size m.cell start stop := by
  unfold between
  rw [slice_eq_map_range', ← Lists.filter_range (m.sliceBound_le stop), ← sliceBound_eq,
    ← sliceBound_eq]
  simp only [Int.ofNat_le, Int.ofNat_lt]

end AccumulatorMachine.Memory
