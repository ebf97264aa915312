import AccumulatorMachine.Machine
import AccumulatorMachine.Memory.Checked

/-!
# The machine with 64-bit addresses

What `Machine.create` and `State.execute` do with numbers of any size, done where the memory has a
greatest size and addresses are masked, narrowed and summed with 64 bits. The accumulator and the
cells stay as long as they like; only what becomes an index is short. Where the memory is too large
or the arithmetic fails there is no value, which is neither success nor a fault of the machine.
-/

namespace AccumulatorMachine

/-- The fresh machine of a valid configuration, unless its memory is too large. The configuration
is looked at first. -/
def Machine.create? (config : Config) : Option (Except Fault Machine) :=
  match config.validate with
  | .error cause => some (.error (.format (.invalidConfig cause)))
  | .ok () => (Memory.zeroed? config.memorySize).map fun memory => .ok ⟨config, { memory }⟩

/-- The operand bits that count, as a 64-bit number. -/
def Instruction.address (i : Instruction) : UInt64 :=
  (i.operand &&& .ofNat i.opcode.maxOperand).toUInt64

/-- One instruction, with a limit on the length of powers. -/
def State.execute? (limit : Option Nat) (i : Instruction) (s : State) : Option (Except Fault State) :=
  match i.opcode with
  | .loadConst => some (.ok (s.advance i.address.toNat s.memory))
  | .readMem => do
    let base ← s.memory.longIndex? s.accumulator
    let address ← sum? base i.address
    let value ← s.memory.load? address
    some (.ok (s.advance value s.memory))
  | .writeMem => do
    let memory ← s.memory.store? i.address s.accumulator
    some (.ok (s.advance s.accumulator memory))
  | .pow => do
    let exponent ← s.memory.load? i.address
    some ((powerAt s.steps s.accumulator exponent limit).map (s.advance · s.memory))

/-- **Making a machine** lacks room just where a valid configuration asks for too many cells. -/
theorem Machine.create?_eq_none_iff {config : Config} :
    create? config = none ↔ config.Valid ∧ Memory.maxCells < config.memorySize := by
  rw [← Config.validate_eq_ok_iff]
  unfold create?
  cases config.validate with
  | error cause => simp
  | ok => simp [Memory.zeroed?_eq_none_iff]

/-- Where there is room, the machine is the one of numbers of any size. -/
theorem Machine.create?_of_le {config : Config} (h : config.memorySize ≤ Memory.maxCells) :
    create? config = some (create config) := by
  unfold create? create
  rw [Memory.zeroed?_of_le h]
  cases config.validate with
  | error cause => rfl
  | ok => rfl

end AccumulatorMachine
