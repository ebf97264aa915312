import AccumulatorMachine.Machine.Fault
import AccumulatorMachine.Memory

/-!
# One instruction

The state of a machine is one unbounded accumulator, its memory, and a count of the
instructions executed. The count is a natural number; where it has 64 bits it is taken not
to reach `2 ^ 64`, which no machine lives to see. Executing an instruction either gives the
next state or a fault and no state at all, so a failed instruction cannot leave anything
half done.

Only the operand bits that count are used, whatever the instruction holds. `READ_MEM`
reduces the accumulator to an index before it adds the offset, and then reduces again:
the sum of an index and an eleven-bit offset stays small however large the accumulator
is.
-/

namespace AccumulatorMachine

/-- The power that the word at a given index asks for; a refusal names the index. -/
def powerAt (index base exponent : Nat) (limit : Option Nat) : Except Fault Nat :=
  (power base exponent limit).mapError (.pow index)

/-- What a machine holds between two instructions. -/
structure State where
  accumulator : Nat := 0
  memory : Memory
  steps : Nat := 0
  deriving DecidableEq

namespace State

/-- The state after one more instruction, with a given accumulator and memory. -/
def advance (s : State) (accumulator : Nat) (memory : Memory) : State :=
  ⟨accumulator, memory, s.steps + 1⟩

/-- One instruction, with a limit on the length of powers. -/
def execute (limit : Option Nat) (i : Instruction) (s : State) : Except Fault State :=
  match i.opcode with
  | .loadConst => .ok (s.advance i.significant s.memory)
  | .readMem => .ok (s.advance (s.memory.load (s.memory.wrap s.accumulator + i.significant)) s.memory)
  | .writeMem => .ok (s.advance s.accumulator (s.memory.store i.significant s.accumulator))
  | .pow =>
    match power s.accumulator (s.memory.load i.significant) limit with
    | .ok result => .ok (s.advance result s.memory)
    | .error cause => .error (.pow s.steps cause)

section

variable (limit : Option Nat) {i : Instruction} (s : State)

theorem execute_loadConst (h : i.opcode = .loadConst) :
    execute limit i s = .ok (s.advance i.significant s.memory) := by
  unfold execute; rw [h]

theorem execute_readMem (h : i.opcode = .readMem) :
    execute limit i s =
      .ok (s.advance (s.memory.load (s.memory.wrap s.accumulator + i.significant)) s.memory) := by
  unfold execute; rw [h]

theorem execute_writeMem (h : i.opcode = .writeMem) :
    execute limit i s = .ok (s.advance s.accumulator (s.memory.store i.significant s.accumulator)) := by
  unfold execute; rw [h]

theorem execute_pow (h : i.opcode = .pow) :
    execute limit i s =
      match power s.accumulator (s.memory.load i.significant) limit with
      | .ok result => .ok (s.advance result s.memory)
      | .error cause => .error (.pow s.steps cause) := by
  unfold execute; rw [h]

/-- `POW` is a power at the index of its word. -/
theorem execute_pow_eq_map (h : i.opcode = .pow) :
    execute limit i s =
      (powerAt s.steps s.accumulator (s.memory.load i.significant) limit).map
        (s.advance · s.memory) := by
  rw [execute_pow limit s h]
  unfold powerAt
  cases power s.accumulator (s.memory.load i.significant) limit with
  | ok result => rfl
  | error cause => rfl

end

/-- Operand bits that do not count make no difference. -/
theorem execute_masked (limit : Option Nat) (i : Instruction) (s : State) :
    execute limit i.masked s = execute limit i s := by
  simp [execute]

/-- Every instruction that does not fail counts for one step. -/
theorem steps_of_execute {limit : Option Nat} {i : Instruction} {s t : State}
    (h : execute limit i s = .ok t) : t.steps = s.steps + 1 := by
  unfold execute at h
  split at h
  · cases h; rfl
  · cases h; rfl
  · cases h; rfl
  · split at h
    · cases h; rfl
    · contradiction

end State

end AccumulatorMachine
