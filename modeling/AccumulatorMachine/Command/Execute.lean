import AccumulatorMachine.Command.Report
import AccumulatorMachine.Json.Dump
import AccumulatorMachine.Machine.Checked

/-!
# The interpreter program

    [-v|--verbose] [--memory-size N] [--max-pow-bits B] BINARY RESULT MEM_START MEM_END

Runs the program in a file on a fresh machine, and writes a slice of the final memory. The
configuration is checked before the file is read, and the machine is made after that. One whose
memory is too large cannot be made, and there the program breaks off. Nothing is written unless
the whole program runs.
-/

namespace AccumulatorMachine.Command

/-- What the interpreter is asked to do. -/
structure ExecuteArguments where
  verbose : Bool
  config : Config
  binary : String
  result : String
  start : Int
  stop : Int
  deriving DecidableEq

namespace ExecuteArguments

def shape : Shape :=
  ⟨[("memory-size", .unsigned), ("max-pow-bits", .unsigned)], [.path, .path, .signed, .signed]⟩

/-- The arguments on a command line. The configuration may still be invalid. -/
def parse (args : List String) : Except Refusal ExecuteArguments := do
  let taken ← Command.parse shape args
  let standard : Config := {}
  let config : Config :=
    ⟨((taken.option? "memory-size").bind unsigned?).getD standard.memorySize,
      (taken.option? "max-pow-bits").bind unsigned?⟩
  match taken.positionals with
  | [binary, result, start, stop] =>
    match signed? start, signed? stop with
    | some start, some stop => .ok ⟨taken.verbose, config, binary, result, start, stop⟩
    | _, _ => .error .usage
  | _ => .error .usage

end ExecuteArguments

/-- Runs bytes on a machine, and writes the cells that are asked for. -/
def executeOn {m : Type → Type} [Monad m] [FileAccess m] (args : ExecuteArguments) (start : Machine)
    (bytes : List UInt8) : m Report := do
  let run := start.runBytes bytes
  let events := run.bytesEvents start bytes
  match run.fault with
  | some fault => return .failed events (s!"executing {args.binary}" :: fault.chain)
  | none =>
    let cells := run.machine.state.memory.slice args.start args.stop
    match Json.dump cells with
    | .error cell => return .failed events [s!"encoding {cell} as JSON", "invalid number"]
    | .ok dump =>
      match ← FileAccess.write args.result (bytesOfText dump.pretty) with
      | .error fault => return .failed events [s!"creating {args.result}", fault.message]
      | .ok () =>
        return {
          output := s!"Execution completed. Memory range saved to '{args.result}'.\n"
          events := events ++ [.dumpWritten run.machine.state.steps cells.length args.result] }

def executeFile {m : Type → Type} [Monad m] [FileAccess m] (args : ExecuteArguments) : m Report := do
  match args.config.validate with
  | .error cause => return .failed [] ["invalid machine configuration", cause.message]
  | .ok () =>
    match ← FileAccess.read args.binary with
    | .error fault => return .failed [] [s!"reading {args.binary}", fault.message]
    | .ok bytes =>
      match Machine.create? args.config with
      | none => return .brokenOff
      | some (.error fault) => return .failed [] fault.chain
      | some (.ok start) => executeOn args start bytes

/-- The interpreter, from its arguments and the level that its surroundings ask for. -/
def execute {m : Type → Type} [Monad m] [FileAccess m] (args : List String) (setting : Option String) :
    m Transcript := do
  match ExecuteArguments.parse args with
  | .error refusal => return .refused refusal
  | .ok args => return (← executeFile args).transcript (.shown args.verbose setting)

end AccumulatorMachine.Command
