import AccumulatorMachine.Command.Arguments
import AccumulatorMachine.Event
import AccumulatorMachine.FileSystem

/-!
# Reports

What a program that has run tells the world beside the files that it wrote. A report holds
everything: an exit code, a text on the output, a line of error, and all events on the way.
A failure names what was being done, why it could not be done, and what was behind that. A
program that breaks off in the middle has no such line: what the system then says is its own,
and left out here. A transcript is what is left of a report when only the events of a level
are shown.
-/

namespace AccumulatorMachine.Command

structure Report where
  exit : Nat := 0
  output : String := ""
  /-- The line on the error channel, without its line feed. -/
  error : Option String := none
  events : List Event := []
  deriving DecidableEq

namespace Report

/-- A failure, told from what was being done down to the last cause. -/
def failed (events : List Event) (chain : List String) : Report :=
  { exit := 1, error := some ("Error: " ++ ": ".intercalate chain), events }

/-- The end of a program that breaks off, since it cannot have what it needs. -/
def brokenOff : Report := { exit := 101 }

end Report

/-- What a program prints, and its exit code. -/
structure Transcript where
  exit : Nat := 0
  output : String := ""
  /-- Lines on the error channel that show events. -/
  trace : List String := []
  /-- The last line on the error channel. -/
  error : Option String := none
  deriving DecidableEq

/-- A report with the events that a level shows. -/
def Report.transcript (r : Report) (level : Level) : Transcript :=
  ⟨r.exit, r.output, Event.linesAt level r.events, r.error⟩

/-- What a program prints that was not asked to run. The texts that explain its usage are left
out, those of a mistake as well as those that were asked for. -/
def Transcript.refused : Refusal → Transcript
  | .usage => { exit := 2 }
  | .help => {}
  | .version => { output := "accvm-cli 0.1.0\n" }

end AccumulatorMachine.Command
