import AccumulatorMachine.Machine
import AccumulatorMachine.Source.Assembly

/-!
# Events

What the two programs tell about their work while they do it. An event is a fact of the
domain, and its level and wording follow from it. Which events happen does not depend on
who listens: a listener names the least severe level to be shown, and the others are left
out.
-/

namespace AccumulatorMachine

/-- How much is shown, or how severe an event is. -/
inductive Level where
  | off
  | error
  | warn
  | info
  | debug
  | trace
  deriving DecidableEq

namespace Level

/-- Greater for levels that show more. -/
def rank : Level → Nat
  | off => 0
  | error => 1
  | warn => 2
  | info => 3
  | debug => 4
  | trace => 5

/-- How a level is written in front of an event. -/
def label : Level → String
  | off => "OFF"
  | error => "ERROR"
  | warn => "WARN"
  | info => "INFO"
  | debug => "DEBUG"
  | trace => "TRACE"

/-- The level with a given name; a name that is no level shows nothing. -/
def ofName (name : String) : Level :=
  match [error, warn, info, debug, trace].find? (·.label == name.toUpper) with
  | some level => level
  | none => off

/-- The level to be shown: a request for details wins over a setting, and without either it is
`warn`. -/
def shown (verbose : Bool) (setting : Option String) : Level :=
  if verbose then debug
  else match setting with
    | some name => ofName name
    | none => warn

end Level

/-- Something that happened while a program ran. -/
inductive Event where
  | encoded (line : Nat) (word : Word) (entry : TraceEntry)
  | assembled (instructions : Nat)
  | assemblyWritten (words : Nat) (binary trace : String)
  | loaded (words bytes : Nat)
  | executing (index : Nat) (word : Word) (instruction : Instruction)
  | executed (steps accumulatorBits : Nat)
  | dumpWritten (steps cells : Nat) (path : String)
  deriving DecidableEq

namespace Event

def level : Event → Level
  | encoded .. | loaded .. | executing .. => .debug
  | assembled .. | assemblyWritten .. | executed .. | dumpWritten .. => .info

def origin : Event → String
  | encoded .. | assembled .. => "accvm_assembler::assembler"
  | assemblyWritten .. => "accvm_asm"
  | loaded .. | executing .. | executed .. => "accvm_runtime::vm"
  | dumpWritten .. => "accvm_run"

def message : Event → String
  | encoded line word entry =>
    s!"encoded {word.text} line={line} mnemonic={entry.mnemonic} operand={entry.operand.toNat}"
  | assembled instructions => s!"assembly complete instructions={instructions}"
  | assemblyWritten words binary trace => s!"assembly written words={words} binary={binary} log={trace}"
  | loaded words bytes => s!"loaded binary words={words} bytes={bytes}"
  | executing index word i => s!"{word.text} {i.text} index={index}"
  | executed steps bits => s!"execution complete steps={steps} accumulator_bits={bits}"
  | dumpWritten steps cells path => s!"memory dump written steps={steps} cells={cells} path={path}"

def line (e : Event) : String := s!"{e.level.label} {e.origin}: {e.message}"

/-- The lines of the events that a level shows. -/
def linesAt (level : Level) (events : List Event) : List String :=
  (events.filter (·.level.rank ≤ level.rank)).map line

end Event

/-! ## Where events come from -/

/-- The events of a pass over a source: each encoded line, and the end if there was no error. -/
def Source.Pass.events (p : Source.Pass) : List Event :=
  (p.numbers.zip (p.assembly.program.code.zip p.assembly.trace)).map
      (fun (line, word, entry) => .encoded line word entry)
    ++ (if p.error.isNone then [.assembled p.assembly.program.size] else [])

/-- The events of a run of words that began on a given machine. A run tries the words that it
executed and the one after them, if there is one; a word without an instruction is not announced. -/
def Run.events (r : Run) (start : Machine) (words : List Word) : List Event :=
  let tried := words.take (r.machine.state.steps - start.state.steps + 1)
  (tried.zipIdx start.state.steps).filterMap (fun (word, index) =>
      (Instruction.decode? word).map (.executing index word))
    ++ (if r.fault.isNone then [.executed r.machine.state.steps (bitLength r.machine.state.accumulator)] else [])

/-- The events of a run of a byte string; one that is cut short has none. -/
def Run.bytesEvents (r : Run) (start : Machine) (bytes : List UInt8) : List Event :=
  match Program.ofBytes bytes with
  | .ok p => .loaded p.size bytes.length :: r.events start p.code
  | .error _ => []

end AccumulatorMachine
