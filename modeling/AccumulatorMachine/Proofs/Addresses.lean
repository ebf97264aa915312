import AccumulatorMachine.Machine.Checked
import AccumulatorMachine.Proofs.Aliases

/-!
# 64-bit addresses lose nothing

An instruction computes its addresses with 64 bits, and the accumulator has any number of them. So
`READ_MEM` reduces twice: first the accumulator, which makes it short, and then the sum with the
offset. Two things make that the same as one reduction of numbers of any size. A remainder is below
the number of cells, which is far below `2 ^ 64` for any memory that there can be, so it is never
too long and an offset of eleven bits can be added to it; and reducing a summand does not change
where the sum falls.

The same bound carries the other instructions, so none of them ever fails in its arithmetic
(`State.execute?_eq`).
-/

namespace AccumulatorMachine

/-- The mask leaves the part of the operand that counts. -/
theorem Instruction.toNat_address (i : Instruction) : i.address.toNat = i.significant := by
  have hmask : i.operand &&& .ofNat i.opcode.maxOperand = i.masked.operand := by
    rw [masked_eq_and]
    rfl
  unfold address
  rw [hmask, UInt32.toNat_toUInt64, toNat_operand_masked]

namespace Memory

/-- A memory with some cells, and not more than 64 bits can count. -/
structure Addressable (m : Memory) : Prop where
  nonempty : 0 < m.size
  short : m.size < UInt64.size

/-- A memory that a machine can hold: some cells, and not more than an array has room for. -/
structure Indexable (m : Memory) : Prop where
  nonempty : 0 < m.size
  small : m.size < 2 ^ 63

variable {m : Memory}

/-! ## Single reductions -/

theorem Addressable.wrap_lt_size (h : m.Addressable) (address : Nat) :
    m.wrap address < UInt64.size :=
  Nat.lt_trans (m.wrap_lt address h.nonempty) h.short

theorem Addressable.toNat_ofNat_wrap (h : m.Addressable) (address : Nat) :
    (UInt64.ofNat (m.wrap address)).toNat = m.wrap address :=
  UInt64.toNat_ofNat_of_lt' (h.wrap_lt_size address)

theorem Addressable.count_ne_zero (h : m.Addressable) : m.count ≠ 0 := by
  intro hzero
  have hcount := toNat_count h.short
  rw [hzero, UInt64.toNat_zero] at hcount
  have hpos := h.nonempty
  omega

theorem Addressable.index?_eq (h : m.Addressable) (address : UInt64) :
    m.index? address = some (.ofNat (m.wrap address.toNat)) := by
  unfold index?
  rw [if_neg h.count_ne_zero, Option.some.injEq, ← UInt64.toNat_inj, h.toNat_ofNat_wrap,
    UInt64.toNat_mod, toNat_count h.short]
  rfl

/-- **The remainder is never too long**, so nothing is taken in its place. -/
theorem Addressable.narrow?_mod (h : m.Addressable) (address : Nat) :
    narrow? (address % m.size) = some (.ofNat (m.wrap address)) :=
  narrow?_of_lt (h.wrap_lt_size address)

theorem Addressable.longIndex?_eq (h : m.Addressable) (address : Nat) :
    m.longIndex? address = some (.ofNat (m.wrap address)) := by
  unfold longIndex?
  rw [if_neg h.count_ne_zero, toNat_count h.short, h.narrow?_mod, Option.getD_some]

theorem getElem?_wrap (m : Memory) (hne : 0 < m.size) (address : Nat) :
    m.cells[m.wrap address]? = some (m.load address) := by
  have hinside : m.wrap address < m.cells.size := m.wrap_lt address hne
  unfold load
  rw [Array.getD_eq_getD_getElem?, Array.getElem?_eq_getElem hinside, Option.getD_some]

theorem Addressable.load?_eq (h : m.Addressable) (address : UInt64) :
    m.load? address = some (m.load address.toNat) := by
  unfold load?
  rw [h.index?_eq, Option.bind_eq_bind, Option.bind_some, h.toNat_ofNat_wrap,
    m.getElem?_wrap h.nonempty]

theorem Addressable.store?_eq (h : m.Addressable) (address : UInt64) (value : Nat) :
    m.store? address value = some (m.store address.toNat value) := by
  have hinside : m.wrap address.toNat < m.cells.size := m.wrap_lt _ h.nonempty
  unfold store?
  rw [h.index?_eq, Option.bind_eq_bind, Option.bind_some, h.toNat_ofNat_wrap, if_pos hinside]
  rfl

/-! ## Two reductions -/

theorem Indexable.addressable (h : m.Indexable) : m.Addressable :=
  ⟨h.nonempty, Nat.lt_trans h.small (by decide)⟩

/-- The sum of an index and an operand is not too long either: an operand has 24 bits at most. -/
theorem Indexable.sum_lt_size (h : m.Indexable) (address : Nat) (i : Instruction) :
    m.wrap address + i.significant < UInt64.size := by
  have hindex := m.wrap_lt address h.nonempty
  have hsmall := h.small
  have hoperand := Nat.lt_of_lt_of_le i.significant_lt i.opcode.operandCount_le
  have hsize : UInt64.size = 2 ^ 64 := rfl
  omega

theorem Indexable.toNat_sum (h : m.Indexable) (address : Nat) (i : Instruction) :
    (UInt64.ofNat (m.wrap address + i.significant)).toNat = m.wrap address + i.significant :=
  UInt64.toNat_ofNat_of_lt' (h.sum_lt_size address i)

theorem Indexable.sum?_eq (h : m.Indexable) (address : Nat) (i : Instruction) :
    sum? (.ofNat (m.wrap address)) i.address
      = some (.ofNat (m.wrap address + i.significant)) := by
  unfold sum?
  rw [h.addressable.toNat_ofNat_wrap, i.toNat_address]
  exact narrow?_of_lt (h.sum_lt_size address i)

/-- Reducing the accumulator first does not change where the sum falls. -/
theorem wrap_wrap_add (m : Memory) (a b : Nat) : m.wrap (m.wrap a + b) = (a + b) % m.size :=
  Nat.mod_add_mod a m.size b

end Memory

namespace State

/-- **No instruction fails in its arithmetic**, and what it does is what it does with numbers of
any size. -/
theorem execute?_eq {s : State} (h : s.memory.Indexable) (limit : Option Nat) (i : Instruction) :
    execute? limit i s = some (execute limit i s) := by
  unfold execute?
  cases hop : i.opcode with
  | loadConst =>
      rw [execute_loadConst limit s hop]
      dsimp only
      rw [i.toNat_address]
  | readMem =>
      rw [execute_readMem limit s hop]
      dsimp only
      rw [h.addressable.longIndex?_eq, Option.bind_eq_bind, Option.bind_some, h.sum?_eq,
        Option.bind_eq_bind, Option.bind_some, h.addressable.load?_eq, h.toNat_sum]
      rfl
  | writeMem =>
      rw [execute_writeMem limit s hop]
      dsimp only
      rw [h.addressable.store?_eq, i.toNat_address]
      rfl
  | pow =>
      rw [execute_pow_eq_map limit s hop]
      dsimp only
      rw [h.addressable.load?_eq, i.toNat_address]
      rfl

/-- A read asks for the accumulator by its remainder alone. -/
theorem execute_readMem_congr {s t : State} {i : Instruction} (limit : Option Nat)
    (hop : i.opcode = .readMem) (hmemory : t.memory = s.memory) (hsteps : t.steps = s.steps)
    (h : t.accumulator ≡ s.accumulator [MOD s.memory.size]) :
    execute limit i t = execute limit i s := by
  rw [execute_readMem limit t hop, execute_readMem limit s hop]
  unfold advance
  rw [hmemory, hsteps, Memory.wrap_congr h]

/--
**The two reductions of a read are one, and nothing goes wrong in them.**

For any number of cells that an array has room for, any accumulator and any 32-bit offset: the
remainder of the accumulator has 64 bits, so it is itself the index that the first reduction gives;
the sum with the masked offset has 64 bits too; the second reduction gives the index of the whole
sum of accumulator and masked offset, reduced once, and there is a cell at it. That cell is what
is read, with addresses of 64 bits and with numbers of any size. And from a state with the same
memory and as many steps, whose accumulator leaves the same remainder, the read leads to the same
state.
-/
theorem readMem_reduction_is_exact {s : State} (hcells : 1 ≤ s.memory.size)
    (hsize : s.memory.size < 2 ^ 63) (limit : Option Nat) (offset : UInt32) :
    (∃ base address index : UInt64,
      narrow? (s.accumulator % s.memory.size) = some base
      ∧ s.memory.longIndex? s.accumulator = some base
      ∧ sum? base (Instruction.address ⟨.readMem, offset⟩) = some address
      ∧ address.toNat = base.toNat + offset.toNat % 2 ^ 11
      ∧ s.memory.index? address = some index
      ∧ index.toNat = (s.accumulator + offset.toNat % 2 ^ 11) % s.memory.size
      ∧ index.toNat < s.memory.size)
    ∧ (∃ value,
      s.memory.cells[(s.accumulator + offset.toNat % 2 ^ 11) % s.memory.size]? = some value
      ∧ execute? limit ⟨.readMem, offset⟩ s = some (.ok (s.advance value s.memory))
      ∧ execute limit ⟨.readMem, offset⟩ s = .ok (s.advance value s.memory))
    ∧ ∀ t : State, t.memory = s.memory → t.steps = s.steps →
        t.accumulator ≡ s.accumulator [MOD s.memory.size] →
        execute? limit ⟨.readMem, offset⟩ t = execute? limit ⟨.readMem, offset⟩ s
        ∧ execute limit ⟨.readMem, offset⟩ t = execute limit ⟨.readMem, offset⟩ s := by
  have h : s.memory.Indexable := ⟨hcells, hsize⟩
  have haddressable := h.addressable
  have hoffset : Instruction.significant ⟨.readMem, offset⟩ = offset.toNat % 2 ^ 11 := rfl
  have hindex := s.memory.wrap_wrap_add s.accumulator (offset.toNat % 2 ^ 11)
  have hread := execute_readMem (i := ⟨.readMem, offset⟩) limit s rfl
  rw [hoffset] at hread
  refine ⟨?_, ?_, ?_⟩
  · refine ⟨_, _, _, haddressable.narrow?_mod _, haddressable.longIndex?_eq _, h.sum?_eq _ _, ?_,
      haddressable.index?_eq _, ?_, ?_⟩
    · rw [h.toNat_sum, haddressable.toNat_ofNat_wrap, hoffset]
    · rw [haddressable.toNat_ofNat_wrap, h.toNat_sum, hoffset, hindex]
    · rw [haddressable.toNat_ofNat_wrap]
      exact s.memory.wrap_lt _ h.nonempty
  · refine ⟨_, ?_, (execute?_eq h limit _).trans (congrArg some hread), hread⟩
    rw [← hindex, s.memory.getElem?_wrap h.nonempty]
  · intro t hmemory hsteps hsame
    have hcongr := execute_readMem_congr (i := ⟨.readMem, offset⟩) limit rfl hmemory hsteps hsame
    have ht : t.memory.Indexable := hmemory ▸ h
    exact ⟨by rw [execute?_eq ht, execute?_eq h, hcongr], hcongr⟩

/-- Three cells, an accumulator of 201 bits, and an offset with all bits set that do not count. -/
theorem readMem_reduction_is_exact_three_cells :
    1 ≤ (⟨#[10, 20, 30]⟩ : Memory).size ∧ (⟨#[10, 20, 30]⟩ : Memory).size < 2 ^ 63
    ∧ (2 ^ 200 + 1 + (0xFFFFFFFF : UInt32).toNat % 2 ^ 11) % 3 = 0
    ∧ execute? none ⟨.readMem, 0xFFFFFFFF⟩ ⟨2 ^ 200 + 1, ⟨#[10, 20, 30]⟩, 7⟩
      = some (.ok ⟨10, ⟨#[10, 20, 30]⟩, 8⟩)
    ∧ 2 ≡ 2 ^ 200 + 1 [MOD 3]
    ∧ execute? none ⟨.readMem, 0xFFFFFFFF⟩ ⟨2, ⟨#[10, 20, 30]⟩, 7⟩
      = some (.ok ⟨10, ⟨#[10, 20, 30]⟩, 8⟩) := by
  have hcells : 1 ≤ (⟨#[10, 20, 30]⟩ : Memory).size := by decide
  have hsize : (⟨#[10, 20, 30]⟩ : Memory).size < 2 ^ 63 := by decide
  have hsame : 2 ≡ 2 ^ 200 + 1 [MOD 3] := by decide
  obtain ⟨-, ⟨value, hvalue, hread, -⟩, hcongr⟩ := readMem_reduction_is_exact
    (s := ⟨2 ^ 200 + 1, ⟨#[10, 20, 30]⟩, 7⟩) hcells hsize none 0xFFFFFFFF
  obtain rfl : 10 = value := Option.some.inj hvalue
  have hother := (hcongr ⟨2, ⟨#[10, 20, 30]⟩, 7⟩ rfl rfl hsame).1
  exact ⟨hcells, hsize, by decide, hread, hsame, hother.trans hread⟩

end State

end AccumulatorMachine
