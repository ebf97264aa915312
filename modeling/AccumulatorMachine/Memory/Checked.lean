import AccumulatorMachine.Memory

/-!
# Memory with 64-bit indices

`Memory` takes addresses and bounds for numbers of any size. Here the number of cells, the
indices and the bounds of slices have 64 bits, and so things can go wrong: a sum may be too
long, a remainder may be asked of no cells at all, an index may miss, two bounds may be no range,
and a memory may have more cells than fit into one array. An operation that meets one of these has
no value.

Narrowing a number is no such case. Where a number is too long, another one is taken in its
place, and nothing is reported.
-/

namespace AccumulatorMachine

/-- A number as one of 64 bits, unless it is too long. -/
def narrow? (n : Nat) : Option UInt64 := if n < UInt64.size then some (.ofNat n) else none

/-- A sum, unless it is too long. -/
def sum? (a b : UInt64) : Option UInt64 := narrow? (a.toNat + b.toNat)

namespace Memory

/-- The most cells that an array can have. An array has less than `2 ^ 63` bytes, and a cell takes
24 of them: for the place of its digits, their number, and the room for them. -/
def maxCells : Nat := 0x7FFFFFFFFFFFFFFF / 24

/-- A memory of a given size, every cell zero, unless it has too many cells. Up to `maxCells` the
system is taken to have the room that is asked for. -/
def zeroed? (size : Nat) : Option Memory := if size ≤ maxCells then some (.zeroed size) else none

/-- The number of cells. -/
def count (m : Memory) : UInt64 := .ofNat m.size

/-- The index of the cell that a 64-bit address means, unless there are no cells. -/
def index? (m : Memory) (address : UInt64) : Option UInt64 :=
  if m.count = 0 then none else some (address % m.count)

/-- The same for an address of any length. It is reduced before it is narrowed, and a remainder
that is still too long counts as zero. -/
def longIndex? (m : Memory) (address : Nat) : Option UInt64 :=
  if m.count = 0 then none else some ((narrow? (address % m.count.toNat)).getD 0)

def load? (m : Memory) (address : UInt64) : Option Nat := do
  let index ← m.index? address
  m.cells[index.toNat]?

def store? (m : Memory) (address : UInt64) (value : Nat) : Option Memory := do
  let index ← m.index? address
  if index.toNat < m.cells.size then some ⟨m.cells.setIfInBounds index.toNat value⟩ else none

/-- Where a bound of a slice falls. A negative one is taken off the end, as far as there are
cells. Its absolute value is read without a sign, since the least bound has no signed one. -/
def clamp (m : Memory) (bound : Int64) : UInt64 :=
  if bound < 0 then
    let back := (narrow? bound.abs.toUInt64.toNat).getD (.ofNat (UInt64.size - 1))
    m.count - min m.count back
  else ((narrow? bound.toInt.toNat).map (min · m.count)).getD m.count

/-- The cells from one bound up to another, which is no range unless the first comes before the
second and both are inside the memory. -/
def slice? (m : Memory) (start stop : Int64) : Option (List Nat) :=
  let stop := m.clamp stop
  let start := min (m.clamp start) stop
  if start ≤ stop ∧ stop.toNat ≤ m.cells.size then
    some (m.cells.extract start.toNat stop.toNat).toList
  else none

end Memory

theorem narrow?_of_lt {n : Nat} (h : n < UInt64.size) : narrow? n = some (.ofNat n) := if_pos h

theorem Memory.zeroed?_of_le {size : Nat} (h : size ≤ maxCells) :
    zeroed? size = some (.zeroed size) := if_pos h

theorem Memory.zeroed?_eq_none_iff {size : Nat} : zeroed? size = none ↔ maxCells < size := by
  unfold zeroed?
  split
  next h => exact ⟨fun hnone => by contradiction, fun hlarge => absurd h (Nat.not_le_of_lt hlarge)⟩
  next h => exact ⟨fun _ => Nat.lt_of_not_le h, fun _ => rfl⟩

theorem Memory.toNat_count {m : Memory} (h : m.size < UInt64.size) : m.count.toNat = m.size :=
  UInt64.toNat_ofNat_of_lt' h

end AccumulatorMachine
