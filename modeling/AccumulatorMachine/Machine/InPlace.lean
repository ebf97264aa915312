import AccumulatorMachine.Machine

/-!
# The machine in place

The same machine as procedures that overwrite what they work on. An instruction reads the
index and its operands, writes the accumulator or a cell, and only then counts itself. A fault
ends a procedure where it arises, and whatever was written by then stays written, so nothing
is undone for free: that a refused instruction leaves no trace depends on the order of the
writes. The order is a right one, since every procedure ends like the run it stands for:
`State.executeInPlace_eq` and `Machine.runInPlace_eq`.

Errors of the format are looked at one by one here. Those that cannot arise have their fault
too, `Fault.format`.
-/

namespace AccumulatorMachine

/-- A procedure on something that it changes. It ends with a value or a fault, and leaves
something in both cases. -/
abbrev Procedure (σ α : Type) := EStateM Fault σ α

namespace Procedure

variable {σ α β : Type}

/-- A procedure goes on with what another has left, unless that ended with a fault. -/
theorem bind_apply (p : Procedure σ α) (next : α → Procedure σ β) (s : σ) :
    (p >>= next) s =
      match p s with
      | .ok a left => next a left
      | .error fault left => .error fault left := by
  show EStateM.bind p next s = _
  unfold EStateM.bind
  cases p s with
  | ok a left => rfl
  | error fault left => rfl

theorem get_bind (next : σ → Procedure σ α) (s : σ) : (get >>= next) s = next s s := rfl

/-- The end of a procedure that has its whole effect or none. -/
def atomic (s : σ) : Except Fault σ → EStateM.Result Fault σ Unit
  | .ok t => .ok () t
  | .error fault => .error fault s

theorem atomic_eq_error_iff {s left : σ} {effect : Except Fault σ} {fault : Fault} :
    atomic s effect = .error fault left ↔ effect = .error fault ∧ left = s := by
  cases effect with
  | ok t => simp [atomic]
  | error first => simp [atomic, eq_comm]

end Procedure

namespace State

/-- One instruction, with a limit on the length of powers. -/
def executeInPlace (limit : Option Nat) (i : Instruction) : Procedure State Unit := do
  let index := (← get).steps
  match i.opcode with
  | .loadConst => modify fun s => { s with accumulator := i.significant }
  | .readMem =>
    modify fun s => { s with accumulator := s.memory.load (s.memory.wrap s.accumulator + i.significant) }
  | .writeMem => modify fun s => { s with memory := s.memory.store i.significant s.accumulator }
  | .pow =>
    let s ← get
    match power s.accumulator (s.memory.load i.significant) limit with
    | .ok result => set { s with accumulator := result }
    | .error cause => throw (.pow index cause)
  modify fun s => { s with steps := s.steps + 1 }

/-- In place or not, an instruction does the same, and one that fails leaves everything as it was. -/
theorem executeInPlace_eq (limit : Option Nat) (i : Instruction) (s : State) :
    executeInPlace limit i s = Procedure.atomic s (execute limit i s) := by
  unfold executeInPlace
  cases hop : i.opcode with
  | loadConst => rw [execute_loadConst limit s hop]; rfl
  | readMem => rw [execute_readMem limit s hop]; rfl
  | writeMem => rw [execute_writeMem limit s hop]; rfl
  | pow =>
      rw [execute_pow limit s hop, Procedure.get_bind]
      dsimp only
      rw [Procedure.get_bind]
      -- the power is refused before the accumulator is written
      cases power s.accumulator (s.memory.load i.significant) limit with
      | ok result => rfl
      | error cause => rfl

end State

namespace Machine

/-- A procedure on the state of a machine, which leaves the configuration alone. -/
def onState {α : Type} (p : Procedure State α) : Procedure Machine α := fun m =>
  match p m.state with
  | .ok a state => .ok a { m with state }
  | .error fault state => .error fault { m with state }

def stepInPlace (word : Word) : Procedure Machine Unit := do
  let m ← get
  match Instruction.decode word with
  | .ok i => onState (State.executeInPlace m.config.powLimit i)
  | .error (.unknownCode code) => throw (.unknownOpcode m.state.steps code word)
  | .error cause => throw (.format cause)

def runInPlace (words : List Word) : Procedure Machine Summary := do
  for word in words do
    stepInPlace word
  return (← get).summary

def runBytesInPlace (bytes : List UInt8) : Procedure Machine Summary :=
  match Program.ofBytes bytes with
  | .ok p => runInPlace p.code
  | .error (.truncated length trailing) => throw (.truncatedStream length trailing)
  | .error cause => throw (.format cause)

end Machine

/-- A run as a procedure would have ended: its summary or its fault, and the machine it left. -/
def Run.asProcedure (r : Run) : EStateM.Result Fault Machine Summary :=
  match r.fault with
  | none => .ok r.machine.summary r.machine
  | some fault => .error fault r.machine

theorem Run.asProcedure_eq_error_iff {r : Run} {fault : Fault} {left : Machine} :
    r.asProcedure = .error fault left ↔ r = ⟨left, some fault⟩ := by
  obtain ⟨m, stop⟩ := r
  cases stop with
  | none => simp [asProcedure]
  | some first => simp [asProcedure, and_comm]

namespace Machine

theorem stepInPlace_eq (word : Word) (m : Machine) :
    stepInPlace word m = Procedure.atomic m (m.step word) := by
  unfold stepInPlace step Instruction.decode
  rw [Procedure.get_bind]
  cases Instruction.decode? word with
  | none => rfl
  | some i =>
      dsimp only
      unfold onState perform
      rw [State.executeInPlace_eq]
      cases State.execute m.config.powLimit i m.state with
      | ok t => rfl
      | error fault => rfl

theorem runInPlace_cons (word : Word) (words : List Word) (m : Machine) :
    runInPlace (word :: words) m =
      match stepInPlace word m with
      | .ok () next => runInPlace words next
      | .error fault left => .error fault left := by
  unfold runInPlace
  rw [List.forIn_cons]
  simp only [Procedure.bind_apply]
  cases stepInPlace word m with
  | ok _ next => rfl
  | error fault left => rfl

/-- A run leaves the machine that is overwritten where it says. -/
theorem runInPlace_eq (words : List Word) (m : Machine) :
    runInPlace words m = (m.run words).asProcedure := by
  induction words generalizing m with
  | nil => rfl
  | cons word words ih =>
      rw [runInPlace_cons, stepInPlace_eq, run, runWith]
      cases m.step word with
      | ok next => exact ih next
      | error fault => rfl

theorem runBytesInPlace_eq (bytes : List UInt8) (m : Machine) :
    runBytesInPlace bytes m = (m.runBytes bytes).asProcedure := by
  unfold runBytesInPlace runBytes Program.ofBytes
  by_cases hwhole : bytes.length % 4 = 0
  · rw [if_pos hwhole]
    exact runInPlace_eq _ m
  · rw [if_neg hwhole]
    rfl

end Machine

end AccumulatorMachine
