import AccumulatorMachine.Command.Execute
import AccumulatorMachine.Proofs.Dump
import AccumulatorMachine.Proofs.Feeding
import AccumulatorMachine.Proofs.Files
import AccumulatorMachine.Proofs.Slices

/-!
# The interpreter writes a whole dump or nothing

The dump is written last, so a failure before it has nothing to undo, and a failure to write it
changes no file either. What is left to say is when there is none. `Executes` gathers what a
successful execution needs, one field for each way to fail. With all of it the dump is put in its
place (`executeFile_of_executes`), and each thing that is missing ends the program with the files
as they were (`executeFile_of_not_executes`). One of them ends it in a way of its own, since it is
noticed by the system and not by the program: the memory may have more cells than an array can
(`OutOfRoom`, `executeFile_of_outOfRoom`). Room for fewer cells is taken to be granted.

The cells of a dump are those of a run of the file's words, selected by bounds of either sign; the
text is what these cells look like on lines of their own, whatever was in the place before.
-/

namespace AccumulatorMachine.Command

open FileSystem (Path)
open Json (listing)

/-- The words of a byte string, run on a fresh machine. -/
def freshRun (config : Config) (bytes : List UInt8) : Run :=
  (Machine.fresh config).run (Program.wordsOfBytes bytes)

/-- What an execution needs: a valid configuration, room for its memory, a file of whole words that
run, and a place for the result. -/
structure Executes (a : ExecuteArguments) (fs : FileSystem) (bytes : List UInt8) (path : Path) :
    Prop where
  valid : a.config.Valid
  fits : a.config.memorySize ≤ Memory.maxCells
  read : fs.read a.binary = .ok bytes
  whole : bytes.length % 4 = 0
  runs : (freshRun a.config bytes).fault = none
  target : fs.target a.result = .ok path

/-- What breaks an execution off: all is well until the machine is made, and then there is no room
for its memory. -/
structure OutOfRoom (a : ExecuteArguments) (fs : FileSystem) : Prop where
  valid : a.config.Valid
  read : ∃ bytes, fs.read a.binary = .ok bytes
  large : Memory.maxCells < a.config.memorySize

/-- The cells that are asked for, as a run leaves them. -/
def dumped (a : ExecuteArguments) (bytes : List UInt8) : List Nat :=
  Memory.between a.config.memorySize (freshRun a.config bytes).machine.state.memory.cell
    a.start a.stop

theorem runBytes_eq_freshRun (config : Config) {bytes : List UInt8} (h : bytes.length % 4 = 0) :
    (Machine.fresh config).runBytes bytes = freshRun config bytes :=
  Machine.runBytes_of_whole _ h

theorem slice_freshRun {a : ExecuteArguments} (h : a.config.Valid) (bytes : List UInt8) :
    (freshRun a.config bytes).machine.state.memory.slice a.start a.stop = dumped a bytes := by
  have hsize := (Machine.wellFormed_run (Machine.wellFormed_fresh h)
    (Program.wordsOfBytes bytes)).size
  rw [Machine.config_of_run] at hsize
  rw [Memory.slice_eq_between]
  unfold dumped freshRun
  rw [hsize]
  rfl

/-- Up to the machine: with room for its memory it is the fresh one. -/
theorem run_executeFile_of_fits {a : ExecuteArguments} {fs : FileSystem} {bytes : List UInt8}
    (hvalid : a.config.Valid) (hread : fs.read a.binary = .ok bytes)
    (hfits : a.config.memorySize ≤ Memory.maxCells) :
    (executeFile a : StateM FileSystem Report).run fs
      = (executeOn a (.fresh a.config) bytes : StateM FileSystem Report).run fs := by
  unfold executeFile
  rw [(Config.validate_eq_ok_iff a.config).mpr hvalid]
  dsimp only
  rw [FileSystem.run_read_bind, hread]
  dsimp only
  rw [Machine.create?_of_le hfits, Machine.create_eq_ok_iff.mpr ⟨hvalid, rfl⟩]

theorem executeFile_of_outOfRoom {a : ExecuteArguments} {fs : FileSystem} (h : OutOfRoom a fs) :
    (executeFile a : StateM FileSystem Report).run fs = (.brokenOff, fs) := by
  obtain ⟨bytes, hread⟩ := h.read
  unfold executeFile
  rw [(Config.validate_eq_ok_iff a.config).mpr h.valid]
  dsimp only
  rw [FileSystem.run_read_bind, hread]
  dsimp only
  rw [Machine.create?_eq_none_iff.mpr ⟨h.valid, h.large⟩]
  rfl

theorem executeFile_of_executes {a : ExecuteArguments} {fs : FileSystem} {bytes : List UInt8}
    {path : Path} (h : Executes a fs bytes path) :
    ∃ report, (executeFile a : StateM FileSystem Report).run fs
        = (report, fs.put path (bytesOfText (Json.Value.naturals (dumped a bytes)).pretty))
      ∧ report.exit = 0 := by
  rw [run_executeFile_of_fits h.valid h.read h.fits]
  unfold executeOn
  rw [runBytes_eq_freshRun a.config h.whole]
  dsimp only
  rw [h.runs]
  dsimp only
  rw [slice_freshRun h.valid, Json.dump_eq]
  dsimp only
  rw [FileSystem.run_write_bind h.target]
  exact ⟨_, rfl, rfl⟩

theorem executeFile_of_not_executes {a : ExecuteArguments} {fs : FileSystem}
    (h : ∀ bytes path, ¬ Executes a fs bytes path) (hroom : ¬ OutOfRoom a fs) :
    ∃ report, (executeFile a : StateM FileSystem Report).run fs = (report, fs)
      ∧ report.exit = 1 := by
  cases hvalidate : a.config.validate with
  | error cause =>
      unfold executeFile
      rw [hvalidate]
      exact ⟨_, rfl, rfl⟩
  | ok =>
      have hvalid := (Config.validate_eq_ok_iff a.config).mp hvalidate
      cases hread : fs.read a.binary with
      | error fault =>
          unfold executeFile
          rw [hvalidate]
          dsimp only
          rw [FileSystem.run_read_bind, hread]
          exact ⟨_, rfl, rfl⟩
      | ok bytes =>
          have hfits : a.config.memorySize ≤ Memory.maxCells :=
            Nat.le_of_not_lt fun hlarge => hroom ⟨hvalid, ⟨bytes, hread⟩, hlarge⟩
          rw [run_executeFile_of_fits hvalid hread hfits]
          unfold executeOn
          by_cases hwhole : bytes.length % 4 = 0
          · rw [runBytes_eq_freshRun a.config hwhole]
            dsimp only
            cases hruns : (freshRun a.config bytes).fault with
            | some fault => exact ⟨_, rfl, rfl⟩
            | none =>
                dsimp only
                rw [Json.dump_eq]
                dsimp only
                cases htarget : fs.target a.result with
                | error fault =>
                    rw [FileSystem.run_write_bind_error htarget]
                    exact ⟨_, rfl, rfl⟩
                | ok path =>
                    exact absurd ⟨hvalid, hfits, hread, hwhole, hruns, htarget⟩ (h bytes path)
          · rw [Machine.runBytes_truncated _ hwhole]
            exact ⟨_, rfl, rfl⟩

theorem run_execute {args : List String} {a : ExecuteArguments}
    (h : ExecuteArguments.parse args = .ok a) (setting : Option String) {fs after : FileSystem}
    {report : Report} (hrun : (executeFile a : StateM FileSystem Report).run fs = (report, after)) :
    (execute args setting : StateM FileSystem Transcript).run fs
      = (report.transcript (.shown a.verbose setting), after) := by
  unfold execute
  rw [h]
  dsimp only
  rw [StateT.run_bind, hrun]
  rfl

/--
**The interpreter writes a whole dump or nothing.**

It succeeds just when the configuration is valid, the binary can be read, there is room for the
memory, the bytes are whole words, these run on a fresh machine without a fault, and the result has
a place. It then puts there the cells between the two bounds, each in decimal on a line of its own,
and changes nothing else. In all other cases it leaves the files as they were; it breaks off just
when a valid configuration and a binary are there and the room is not.
-/
theorem execute_dumps_or_changes_nothing {args : List String} {a : ExecuteArguments}
    (h : ExecuteArguments.parse args = .ok a) (setting : Option String) (fs : FileSystem) :
    ∃ transcript after,
      (execute args setting : StateM FileSystem Transcript).run fs = (transcript, after)
      ∧ (transcript.exit = 0 ↔ ∃ bytes path, Executes a fs bytes path)
      ∧ (transcript.exit = 101 ↔ OutOfRoom a fs)
      ∧ (transcript.exit ≠ 0 →
          (transcript.exit = 1 ∨ transcript.exit = 101) ∧ after = fs)
      ∧ ∀ bytes path, Executes a fs bytes path → ∃ text,
          text = (if dumped a bytes = [] then "[]"
            else listing "[\n    " ",\n    " "\n]" (dumped a bytes))
          ∧ after = fs.put path (bytesOfText text)
          ∧ after.folders = fs.folders
          ∧ (∀ other, after.contents? other =
              if other = path then some (bytesOfText text) else fs.contents? other)
          ∧ after.read a.result = .ok (bytesOfText text)
          ∧ textOfBytes (bytesOfText text) = .ok text
          ∧ Json.readNaturals? text = some (dumped a bytes) := by
  by_cases hneeds : ∃ bytes path, Executes a fs bytes path
  · obtain ⟨bytes, path, hexecutes⟩ := hneeds
    obtain ⟨report, hrun, hexit⟩ := executeFile_of_executes hexecutes
    have hzero : (report.transcript (.shown a.verbose setting)).exit = 0 := hexit
    refine ⟨_, _, run_execute h setting hrun, ?_, ?_, fun hfailed => absurd hzero hfailed, ?_⟩
    · exact ⟨fun _ => ⟨bytes, path, hexecutes⟩, fun _ => hzero⟩
    · refine ⟨fun hbroken => ?_, fun hroom => absurd hexecutes.fits (Nat.not_le_of_lt hroom.large)⟩
      exact absurd (hzero.symm.trans hbroken) (by decide)
    · intro bytes' path' hexecutes'
      obtain rfl := Except.ok.inj (hexecutes.read.symm.trans hexecutes'.read)
      obtain rfl := Except.ok.inj (hexecutes.target.symm.trans hexecutes'.target)
      exact ⟨_, Json.pretty_naturals (dumped a bytes), rfl, rfl,
        fun other => FileSystem.contents?_put fs path other _,
        FileSystem.read_put_self _ hexecutes.target, textOfBytes_bytesOfText _,
        Json.readNaturals?_pretty (dumped a bytes)⟩
  · have hnot : ∀ bytes path, ¬ Executes a fs bytes path :=
      fun bytes path hexecutes => hneeds ⟨bytes, path, hexecutes⟩
    -- the files are as they were in both cases, and only the exit differs
    by_cases hroom : OutOfRoom a fs
    · have hbroken : (Report.brokenOff.transcript (.shown a.verbose setting)).exit = 101 := rfl
      refine ⟨_, _, run_execute h setting (executeFile_of_outOfRoom hroom), ?_, ?_,
        fun _ => ⟨Or.inr hbroken, rfl⟩, ?_⟩
      · refine ⟨fun hzero => ?_, fun hexecutes => absurd hexecutes hneeds⟩
        exact absurd (hbroken.symm.trans hzero) (by decide)
      · exact ⟨fun _ => hroom, fun _ => hbroken⟩
      · exact fun bytes path hexecutes => absurd hexecutes (hnot bytes path)
    · obtain ⟨report, hrun, hexit⟩ := executeFile_of_not_executes hnot hroom
      have hone : (report.transcript (.shown a.verbose setting)).exit = 1 := hexit
      refine ⟨_, _, run_execute h setting hrun, ?_, ?_, fun _ => ⟨Or.inl hone, rfl⟩, ?_⟩
      · refine ⟨fun hzero => ?_, fun hexecutes => absurd hexecutes hneeds⟩
        exact absurd (hone.symm.trans hzero) (by decide)
      · refine ⟨fun hbroken => ?_, fun hyes => absurd hyes hroom⟩
        exact absurd (hone.symm.trans hbroken) (by decide)
      · exact fun bytes path hexecutes => absurd hexecutes (hnot bytes path)

/-- A dump that takes the place of its own program; a power that is too long, at index 2, and leaves
an older dump alone; and a memory with more cells than there are addresses, which has no room. -/
theorem execute_dumps_or_changes_nothing_three_runs :
    (∃ transcript,
      (execute ["--memory-size", "4", "p.bin", "p.bin", "-2", "9"] none
        : StateM FileSystem Transcript).run
          (.ofFiles [(["p.bin"], [0x42, 5, 0, 0, 0xBB, 3, 0, 0])])
        = (transcript, (FileSystem.ofFiles
            [(["p.bin"], [0x42, 5, 0, 0, 0xBB, 3, 0, 0])]).put ["p.bin"]
              (bytesOfText "[\n    0,\n    5\n]"))
      ∧ transcript.exit = 0)
    ∧ (∃ transcript,
      (execute ["--memory-size=8", "p.bin", "old.json", "0", "1", "--max-pow-bits", "11"] none
        : StateM FileSystem Transcript).run
          (.ofFiles [(["old.json"], [0x5B, 0x5D]),
            (["p.bin"], [0x42, 5, 0, 0, 0xBB, 3, 0, 0, 0x2F, 3, 0, 0])])
        = (transcript, .ofFiles [(["old.json"], [0x5B, 0x5D]),
            (["p.bin"], [0x42, 5, 0, 0, 0xBB, 3, 0, 0, 0x2F, 3, 0, 0])])
      ∧ transcript.exit = 1)
    ∧ ∃ transcript,
      (execute ["--memory-size", "18446744073709551615", "p.bin", "r.json", "0", "0"] none
        : StateM FileSystem Transcript).run (.ofFiles [(["p.bin"], [])])
        = (transcript, .ofFiles [(["p.bin"], [])])
      ∧ transcript.exit = 101 := by
  refine ⟨?_, ?_, ?_⟩
  · have hparse : ExecuteArguments.parse ["--memory-size", "4", "p.bin", "p.bin", "-2", "9"]
        = .ok ⟨false, ⟨4, none⟩, "p.bin", "p.bin", -2, 9⟩ := by cbv
    obtain ⟨transcript, after, hrun, hexit, -, -, hdump⟩ :=
      execute_dumps_or_changes_nothing hparse none
        (.ofFiles [(["p.bin"], [0x42, 5, 0, 0, 0xBB, 3, 0, 0])])
    have hexecutes : Executes ⟨false, ⟨4, none⟩, "p.bin", "p.bin", -2, 9⟩
        (.ofFiles [(["p.bin"], [0x42, 5, 0, 0, 0xBB, 3, 0, 0])])
        [0x42, 5, 0, 0, 0xBB, 3, 0, 0] ["p.bin"] :=
      ⟨⟨by decide, by decide⟩, by decide, by cbv, by decide, by cbv, by cbv⟩
    obtain ⟨text, htext, rfl, -⟩ := hdump _ _ hexecutes
    have hcells : dumped ⟨false, ⟨4, none⟩, "p.bin", "p.bin", -2, 9⟩
        [0x42, 5, 0, 0, 0xBB, 3, 0, 0] = [0, 5] := by cbv
    rw [hcells] at htext
    obtain rfl : text = "[\n    0,\n    5\n]" := htext.trans (by decide)
    exact ⟨transcript, hrun, hexit.mpr ⟨_, _, hexecutes⟩⟩
  · have hparse : ExecuteArguments.parse
          ["--memory-size=8", "p.bin", "old.json", "0", "1", "--max-pow-bits", "11"]
        = .ok ⟨false, ⟨8, some 11⟩, "p.bin", "old.json", 0, 1⟩ := by cbv
    obtain ⟨transcript, after, hrun, hexit, hbroken, hfailed, -⟩ :=
      execute_dumps_or_changes_nothing hparse none
        (.ofFiles [(["old.json"], [0x5B, 0x5D]),
          (["p.bin"], [0x42, 5, 0, 0, 0xBB, 3, 0, 0, 0x2F, 3, 0, 0])])
    have hread : FileSystem.read (.ofFiles [(["old.json"], [0x5B, 0x5D]),
          (["p.bin"], [0x42, 5, 0, 0, 0xBB, 3, 0, 0, 0x2F, 3, 0, 0])]) "p.bin"
        = .ok [0x42, 5, 0, 0, 0xBB, 3, 0, 0, 0x2F, 3, 0, 0] := by cbv
    have hfault : (freshRun ⟨8, some 11⟩
        [0x42, 5, 0, 0, 0xBB, 3, 0, 0, 0x2F, 3, 0, 0]).fault
          = some (.pow 2 (.limitExceeded 12 11)) := by decide +kernel
    have hnonzero : transcript.exit ≠ 0 := by
      intro hzero
      obtain ⟨bytes, path, hexecutes⟩ := hexit.mp hzero
      obtain rfl := Except.ok.inj (hread.symm.trans hexecutes.read)
      exact absurd (hfault.symm.trans hexecutes.runs) (by decide)
    obtain ⟨hone | hlarge, rfl⟩ := hfailed hnonzero
    · exact ⟨transcript, hrun, hone⟩
    · exact absurd (hbroken.mp hlarge).large (by decide)
  · have hparse : ExecuteArguments.parse
          ["--memory-size", "18446744073709551615", "p.bin", "r.json", "0", "0"]
        = .ok ⟨false, ⟨18446744073709551615, none⟩, "p.bin", "r.json", 0, 0⟩ := by cbv
    obtain ⟨transcript, after, hrun, -, hbroken, hfailed, -⟩ :=
      execute_dumps_or_changes_nothing hparse none (.ofFiles [(["p.bin"], [])])
    have hroom : OutOfRoom ⟨false, ⟨18446744073709551615, none⟩, "p.bin", "r.json", 0, 0⟩
        (.ofFiles [(["p.bin"], [])]) :=
      ⟨⟨by decide, by decide⟩, ⟨[], by cbv⟩, by decide⟩
    have hexit := hbroken.mpr hroom
    obtain ⟨-, rfl⟩ := hfailed (by rw [hexit]; decide)
    exact ⟨transcript, hrun, hexit⟩

end AccumulatorMachine.Command
