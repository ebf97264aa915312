import AccumulatorMachine.Command.Assemble
import AccumulatorMachine.Command.Execute

/-!
# The two programs

The first argument names the program, `asm` or `run`, and the rest are its arguments. An
environment variable names the level of the events to be shown. All that is decided here is
which error of the system is which `FileFault`.
-/

namespace AccumulatorMachine

/-- Whether an error carries a given code; some carry it negated. -/
def hasCode (code wanted : UInt32) : Bool := code == wanted || code == 0 - wanted

/-- The reason behind an error of the system. -/
def FileFault.ofSystem : IO.Error → FileFault
  | .noFileOrDirectory .. => .notFound
  | .inappropriateType _ code _ => if hasCode code 21 then .isFolder else .notFolder
  | .permissionDenied .. => .other "Permission denied (os error 13)"
  | .invalidArgument name code details =>
    if hasCode code 36 then .nameTooLong else .other (IO.Error.invalidArgument name code details).toString
  | cause => .other cause.toString

instance : FileAccess IO where
  read path := do
    try
      return .ok (← IO.FS.readBinFile path).toList
    catch cause => return .error (.ofSystem cause)
  write path bytes := do
    try
      IO.FS.writeBinFile path ⟨bytes.toArray⟩
      return .ok ()
    catch cause => return .error (.ofSystem cause)

def Command.Transcript.print (t : Command.Transcript) : IO UInt32 := do
  for line in t.trace do
    IO.eprintln line
  match t.error with
  | some line => IO.eprintln line
  | none => pure ()
  IO.print t.output
  return t.exit.toUInt32

end AccumulatorMachine

open AccumulatorMachine in
/-- Runs the program that the first argument names. -/
def main (args : List String) : IO UInt32 := do
  let setting ← IO.getEnv "RUST_LOG"
  match args with
  | "asm" :: rest => (← Command.assemble rest setting).print
  | "run" :: rest => (← Command.execute rest setting).print
  | _ =>
    IO.eprintln "usage: asm ARGUMENT... | run ARGUMENT..."
    return 2
