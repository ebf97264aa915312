/-!
# Memory

A fixed number of cells, each holding a natural number of any size. Every address is
reduced modulo the number of cells, so no access can miss; `Memory.wrap` is the only
place where that happens.

The bounds of a slice are integers of either sign: a negative one counts from the end, and
both are then clamped to the cells there are.
-/

namespace AccumulatorMachine

structure Memory where
  cells : Array Nat
  deriving DecidableEq

namespace Memory

/-- A memory of a given size, every cell zero. -/
def zeroed (size : Nat) : Memory := ⟨.replicate size 0⟩

def size (m : Memory) : Nat := m.cells.size

/-- The index of the cell that an address means. -/
def wrap (m : Memory) (address : Nat) : Nat := address % m.size

def load (m : Memory) (address : Nat) : Nat := m.cells.getD (m.wrap address) 0

/-- The value of one cell; past the last cell there is nothing but zeros. -/
def cell (m : Memory) (index : Nat) : Nat := m.cells.getD index 0

/-- The memory with another value at an address. -/
def store (m : Memory) (address value : Nat) : Memory := ⟨m.cells.setIfInBounds (m.wrap address) value⟩

/-- Where a bound of a slice falls. -/
def sliceBound (m : Memory) (bound : Int) : Nat :=
  if bound < 0 then (m.size + bound).toNat else min bound.toNat m.size

/-- The cells from one bound up to, not including, another. -/
def slice (m : Memory) (start stop : Int) : List Nat :=
  (m.cells.extract (m.sliceBound start) (m.sliceBound stop)).toList

def usedCells (m : Memory) : Nat := m.cells.countP (· ≠ 0)

@[simp] theorem size_zeroed (size : Nat) : (zeroed size).size = size := by simp [zeroed, Memory.size]

@[simp] theorem size_store (m : Memory) (address value : Nat) : (m.store address value).size = m.size := by
  simp [store, size]

theorem wrap_lt (m : Memory) (address : Nat) (hne : 0 < m.size) : m.wrap address < m.size :=
  Nat.mod_lt _ hne

@[simp] theorem cell_zeroed (size index : Nat) : (zeroed size).cell index = 0 := by
  simp [cell, zeroed, Array.getD_eq_getD_getElem?, Array.getElem?_replicate]
  split <;> rfl

/-- A load reads the one cell that the address means. -/
theorem load_eq_cell (m : Memory) (address : Nat) : m.load address = m.cell (m.wrap address) := rfl

/-- A store changes the one cell that the address means. -/
theorem cell_store (m : Memory) (address value index : Nat) (hne : 0 < m.size) :
    (m.store address value).cell index = if index = m.wrap address then value else m.cell index := by
  have hinside : m.wrap address < m.cells.size := m.wrap_lt address hne
  unfold cell store
  rw [Array.getD_eq_getD_getElem?, Array.getD_eq_getD_getElem?, Array.getElem?_setIfInBounds]
  by_cases hsame : m.wrap address = index
  · rw [if_pos hsame, if_pos hsame.symm, if_pos hinside]
    rfl
  · rw [if_neg hsame, if_neg (Ne.symm hsame)]

/-- A load sees the last store to the same cell, and no other. -/
theorem load_store (m : Memory) (a b value : Nat) (hne : 0 < m.size) :
    (m.store a value).load b = if m.wrap a = m.wrap b then value else m.load b := by
  have hsame : (m.store a value).wrap b = m.wrap b := by simp [wrap]
  rw [load_eq_cell, hsame, cell_store m a value _ hne, load_eq_cell]
  exact ite_congr (propext eq_comm) (fun _ => rfl) (fun _ => rfl)

end Memory

end AccumulatorMachine
