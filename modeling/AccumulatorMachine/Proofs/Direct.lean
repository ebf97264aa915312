import AccumulatorMachine.Machine.InPlace
import AccumulatorMachine.Proofs.Run

/-!
# Instructions without their words

An instruction can be executed as it stands, or packed into a word that is run. The word keeps
24 bits of its operand, decoding keeps as many as its opcode has, and executing masks once more;
an instruction that is executed as it stands meets only the last of these masks. It is the
narrowest of the three, so the two ways agree on every operand, also on one that no word could
hold (`Machine.step_encode`).

For a list there is more to compare than its instructions. One side is a procedure that
overwrites a state and knows nothing of a machine, the other a run, and both stop at the first
fault. What has to be kept in step is where each of them stands when it stops.
-/

namespace AccumulatorMachine

namespace State

/-- Instructions in order, each on the state that the last one left, up to the first that fails. -/
def executeAllInPlace (limit : Option Nat) (is : List Instruction) : Procedure State Unit := do
  for i in is do
    executeInPlace limit i

/-- An instruction that fails is the last to be looked at, and the state stays as it found it. -/
theorem executeAllInPlace_cons (limit : Option Nat) (i : Instruction) (is : List Instruction)
    (s : State) :
    executeAllInPlace limit (i :: is) s =
      match execute limit i s with
      | .ok t => executeAllInPlace limit is t
      | .error fault => .error fault s := by
  unfold executeAllInPlace
  rw [List.forIn_cons]
  simp only [Procedure.bind_apply]
  rw [executeInPlace_eq]
  cases execute limit i s with
  | ok t => rfl
  | error fault => rfl

end State

namespace Machine

/-- A program of instructions runs as the instructions are performed. -/
theorem runProgram_ofInstructions (m : Machine) (is : List Instruction) :
    m.runProgram (.ofInstructions is) = m.performAll is := run_encode is m

/-- Performing instructions on a machine is executing them on its state. -/
theorem performAll_eq (is : List Instruction) : ∀ m : Machine,
    m.performAll is =
      match State.executeAllInPlace m.config.powLimit is m.state with
      | .ok () left => ⟨{ m with state := left }, none⟩
      | .error fault left => ⟨{ m with state := left }, some fault⟩ := by
  induction is with
  | nil => intro m; rfl
  | cons i is ih =>
      intro m
      rw [State.executeAllInPlace_cons]
      cases h : State.execute m.config.powLimit i m.state with
      | ok t =>
          -- the next machine has the same configuration, so the limit stays what it is
          have hperform : m.perform i = .ok { m with state := t } :=
            perform_eq_ok_iff.mpr ⟨t, h, rfl⟩
          rw [performAll, runWith_cons_ok hperform]
          exact ih { m with state := t }
      | error fault =>
          have hperform : m.perform i = .error fault := perform_eq_error_iff_execute.mpr h
          rw [performAll, runWith_cons_error hperform]

/--
**Executing instructions is running their words.**

Whatever the operands of the instructions are, executing them in order on the state of a machine
succeeds just when running their words on the machine does, and leaves the same accumulator,
memory and steps. Where one of the two fails, so does the other, with the same fault and the same
state left.
-/
theorem executing_is_running_words (m : Machine) (is : List Instruction) :
    (∀ left, State.executeAllInPlace m.config.powLimit is m.state = .ok () left ↔
        runInPlace (Program.ofInstructions is).code m
          = .ok ⟨left.steps, left.accumulator⟩ { m with state := left })
    ∧ ∀ fault left, State.executeAllInPlace m.config.powLimit is m.state = .error fault left ↔
        runInPlace (Program.ofInstructions is).code m = .error fault { m with state := left } := by
  have hrun : runInPlace (Program.ofInstructions is).code m = (m.performAll is).asProcedure := by
    rw [runInPlace_eq, ← runProgram_ofInstructions]
    rfl
  rw [hrun, performAll_eq]
  cases State.executeAllInPlace m.config.powLimit is m.state with
  | ok done t =>
      refine ⟨fun left => ⟨fun h => ?_, fun h => ?_⟩, fun fault left => ⟨fun h => ?_, fun h => ?_⟩⟩
      · obtain ⟨-, rfl⟩ := EStateM.Result.ok.inj h
        rfl
      -- the machine that is left has its state in it
      · obtain ⟨-, hleft⟩ := EStateM.Result.ok.inj h
        rw [(Machine.mk.inj hleft).2]
      · contradiction
      · contradiction
  | error first t =>
      refine ⟨fun left => ⟨fun h => ?_, fun h => ?_⟩, fun fault left => ⟨fun h => ?_, fun h => ?_⟩⟩
      · contradiction
      · contradiction
      · obtain ⟨rfl, rfl⟩ := EStateM.Result.error.inj h
        rfl
      · obtain ⟨rfl, hleft⟩ := EStateM.Result.error.inj h
        rw [(Machine.mk.inj hleft).2]

end Machine

end AccumulatorMachine
