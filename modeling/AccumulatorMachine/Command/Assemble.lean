import AccumulatorMachine.Command.Report
import AccumulatorMachine.Json.Form

/-!
# The assembler program

    [-v|--verbose] SOURCE BINARY TRACE

Reads a source, and writes the bytes of its program and the trace of its assembly. Nothing
is written unless the whole source assembles. The two files are written one after the
other, and the first stays if the second cannot be written.
-/

namespace AccumulatorMachine.Command

/-- What the assembler is asked to do. -/
structure AssembleArguments where
  verbose : Bool
  source : String
  binary : String
  trace : String
  deriving DecidableEq

namespace AssembleArguments

def shape : Shape := ⟨[], [.path, .path, .path]⟩

def parse (args : List String) : Except Refusal AssembleArguments := do
  let taken ← Command.parse shape args
  match taken.positionals with
  | [source, binary, trace] => .ok ⟨taken.verbose, source, binary, trace⟩
  | _ => .error .usage

end AssembleArguments

def traceText (a : Assembly) : String := a.traceJson.pretty

def assembleFile {m : Type → Type} [Monad m] [FileAccess m] (args : AssembleArguments) : m Report := do
  match (← FileAccess.read args.source) >>= textOfBytes with
  | .error fault => return .failed [] [s!"reading {args.source}", fault.message]
  | .ok source =>
    let pass := Source.pass source
    match pass.result with
    | .error cause => return .failed pass.events (s!"assembling {args.source}" :: cause.chain)
    | .ok assembly =>
      match ← FileAccess.write args.binary assembly.program.toBytes with
      | .error fault => return .failed pass.events [s!"writing {args.binary}", fault.message]
      | .ok () =>
        match ← FileAccess.write args.trace (bytesOfText (traceText assembly)) with
        | .error fault => return .failed pass.events [s!"creating {args.trace}", fault.message]
        | .ok () =>
          return {
            output := s!"Assembly completed. Binary saved to '{args.binary}'. Log saved to '{args.trace}'.\n"
            events := pass.events ++ [.assemblyWritten assembly.program.size args.binary args.trace] }

/-- The assembler, from its arguments and the level that its surroundings ask for. -/
def assemble {m : Type → Type} [Monad m] [FileAccess m] (args : List String) (setting : Option String) :
    m Transcript := do
  match AssembleArguments.parse args with
  | .error refusal => return .refused refusal
  | .ok args => return (← assembleFile args).transcript (.shown args.verbose setting)

end AccumulatorMachine.Command
