import AccumulatorMachine.Machine.State
import AccumulatorMachine.Program

/-!
# Machines and runs

A machine is a configuration and a state. It takes words one at a time, and a run is
nothing but its steps: it stops at the first fault, and the machine stays where the last
successful step left it. So a run reports two things, the machine as it was left and the
fault that stopped it, if one did; later runs go on from there. The count of steps, and so the
index that a fault carries, goes on too, and is taken never to need more than 64 bits.

Bytes are measured before any word is run. A byte string that is cut off inside a word is
refused as a whole.
-/

namespace AccumulatorMachine

/-- A state together with the configuration that it was made for. -/
structure Machine where
  config : Config
  state : State
  deriving DecidableEq

/-- What a successful run reports. -/
structure Summary where
  steps : Nat
  accumulator : Nat
  deriving DecidableEq

/-- How a run ended: the machine as it was left, and the fault that stopped it, if any. -/
structure Run where
  machine : Machine
  fault : Option Fault
  deriving DecidableEq

/-- What comes next, unless the run has already failed. -/
def Run.andThen (r : Run) (next : Machine → Run) : Run :=
  match r.fault with
  | none => next r.machine
  | some _ => r

namespace Machine

/-- The machine of a configuration before its first instruction, valid or not. -/
def fresh (config : Config) : Machine := ⟨config, { memory := .zeroed config.memorySize }⟩

/-- The fresh machine of a valid configuration. -/
def create (config : Config) : Except Fault Machine :=
  match config.validate with
  | .ok () => .ok (fresh config)
  | .error cause => .error (.format (.invalidConfig cause))

/-- The number of instructions executed and the accumulator. -/
def summary (m : Machine) : Summary := ⟨m.state.steps, m.state.accumulator⟩

def perform (m : Machine) (i : Instruction) : Except Fault Machine :=
  (m.state.execute m.config.powLimit i).map fun state => { m with state }

def step (m : Machine) (word : Word) : Except Fault Machine :=
  match Instruction.decode? word with
  | some i => m.perform i
  | none => .error (.unknownOpcode m.state.steps word.code word)

/-- One action after another, up to the first that fails. -/
def runWith {α : Type} (act : Machine → α → Except Fault Machine) (m : Machine) : List α → Run
  | [] => ⟨m, none⟩
  | a :: as =>
    match act m a with
    | .ok next => runWith act next as
    | .error fault => ⟨m, some fault⟩

def run (m : Machine) (words : List Word) : Run := runWith step m words

/-- Instructions in order, without their words. -/
def performAll (m : Machine) (is : List Instruction) : Run := runWith perform m is

def runProgram (m : Machine) (p : Program) : Run := m.run p.code

/-- The program in a byte string, unless it is cut short. -/
def runBytes (m : Machine) (bytes : List UInt8) : Run :=
  match Program.ofBytes bytes with
  | .ok p => m.runProgram p
  | .error _ => ⟨m, some (.truncatedStream bytes.length (bytes.length % 4))⟩

end Machine

/-- The summary of a run that met no fault. -/
def Run.result (r : Run) : Except Fault Summary :=
  match r.fault with
  | none => .ok r.machine.summary
  | some fault => .error fault

namespace Machine

/-- A run in two parts: the second starts where the first ended, unless that failed. -/
theorem runWith_append {α : Type} (act : Machine → α → Except Fault Machine) (m : Machine) (xs ys : List α) :
    runWith act m (xs ++ ys) = (runWith act m xs).andThen (runWith act · ys) := by
  induction xs generalizing m with
  | nil => rfl
  | cons x xs ih =>
      simp only [List.cons_append, runWith]
      cases act m x with
      | ok next => exact ih next
      | error fault => rfl

/-- Performing an instruction is running its word. -/
theorem step_encode (m : Machine) (i : Instruction) : m.step i.encode = m.perform i := by
  simp [step, perform, State.execute_masked]

end Machine

end AccumulatorMachine
