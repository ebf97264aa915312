import AccumulatorMachine.Command.Assemble
import AccumulatorMachine.Proofs.Assembly
import AccumulatorMachine.Proofs.Binary
import AccumulatorMachine.Proofs.Dump
import AccumulatorMachine.Proofs.Files
import AccumulatorMachine.Proofs.JsonForms

/-!
# The assembler writes one assembly in two forms, or nothing

Nothing is written before there is an assembly, so a source without one changes no file
(`assembleFile_of_no_assembly`). With an assembly there are two writes, and three things that can
be left (`Leaves`): both files, the binary alone, or neither. The place of the trace is looked for
among files that hold the binary already, but a write takes no place away and makes none, so both
places can be asked of the files at the start.

What is written can be read back. The binary is that of the assembled program, and the text of the
trace is an array of entries (`pretty_traceJson`), which JSON readers take for just these entries.
-/

namespace AccumulatorMachine

open FileSystem (Path)
open Json (Value layout quoted readAs)

/-! ## The text of a trace -/

namespace TraceEntry

/-- The lines of an entry in the text of a trace. -/
def lines (e : TraceEntry) : String :=
  "\x7b\n        \"mnemonic\": " ++ String.ofList (quoted (some e.mnemonic.toList))
    ++ ",\n        \"opcode\": " ++ toString e.code.toNat
    ++ ",\n        \"operand\": " ++ toString e.operand.toNat
    ++ ",\n        \"instruction_word\": " ++ toString e.word.toNat ++ "\n    \x7d"

theorem layout_toJson (e : TraceEntry) :
    layout (e.toJson.laidOut 1 (Value.newline 1)) = Value.newline 1 ++ e.lines.toList := by
  have hlaid : e.toJson.laidOut 1 (Value.newline 1) =
      [(Value.newline 1, .openObject),
        (Value.newline 2, .string (some "mnemonic".toList)), ([], .colon),
        ([' '], .string (some e.mnemonic.toList)), ([], .comma),
        (Value.newline 2, .string (some "opcode".toList)), ([], .colon),
        ([' '], .number (Numeral.decimal e.code.toNat)), ([], .comma),
        (Value.newline 2, .string (some "operand".toList)), ([], .colon),
        ([' '], .number (Numeral.decimal e.operand.toNat)), ([], .comma),
        (Value.newline 2, .string (some "instruction_word".toList)), ([], .colon),
        ([' '], .number (Numeral.decimal e.word.toNat)), (Value.newline 1, .closeObject)] := rfl
  have hmnemonic : quoted (some "mnemonic".toList) = "\"mnemonic\"".toList := by decide
  have hopcode : quoted (some "opcode".toList) = "\"opcode\"".toList := by decide
  have hoperand : quoted (some "operand".toList) = "\"operand\"".toList := by decide
  have hword : quoted (some "instruction_word".toList) = "\"instruction_word\"".toList := by decide
  unfold lines
  rw [hlaid]
  simp only [layout, List.flatMap_cons, List.flatMap_nil, Json.Token.render, hmnemonic, hopcode,
    hoperand, hword, String.toList_append, String.toList_ofList, Json.toList_toString]
  simp [Value.newline]

/-- The entries in an array that holds nothing else. -/
def listOfJson? : Value → Option (List TraceEntry)
  | .array items => items.mapM ofJson?
  | _ => none

end TraceEntry

namespace Assembly

theorem listOfJson?_traceJson (asm : Assembly) :
    TraceEntry.listOfJson? asm.traceJson = some asm.trace := by
  unfold traceJson TraceEntry.listOfJson?
  dsimp only
  rw [Lists.mapM_eq_some_iff, List.map_map]
  exact List.map_congr_left fun e _ => e.ofJson?_toJson

theorem exact_traceJson (asm : Assembly) : asm.traceJson.Exact := by
  refine Json.exact_array fun v hv => ?_
  obtain ⟨e, -, rfl⟩ := List.mem_map.mp hv
  exact e.exact_toJson

theorem pretty_traceJson (asm : Assembly) :
    asm.traceJson.pretty = if asm.trace = [] then "[]"
      else "[\n    " ++ ",\n    ".intercalate (asm.trace.map TraceEntry.lines) ++ "\n]" :=
  Json.pretty_array TraceEntry.layout_toJson asm.trace

/-- A trace is read back from its text. -/
theorem readAs_pretty_traceJson (asm : Assembly) :
    readAs TraceEntry.listOfJson? asm.traceJson.pretty = some asm.trace :=
  (Json.readAs_of_written (Json.written_pretty asm.exact_traceJson)).trans
    asm.listOfJson?_traceJson

/-- The trace of an assembled source has the words of its program. -/
theorem words_of_assemble {source : String} {asm : Assembly}
    (h : Source.assemble source = .ok asm) : asm.trace.map (·.word) = asm.program.code := by
  obtain ⟨-, rfl⟩ := Source.assemble_eq_ok_iff.mp h
  unfold Assembly.ofInstructions Program.ofInstructions
  rw [List.map_map]
  rfl

end Assembly

/-! ## Runs of the assembler -/

namespace Command

/-- The text of a source file, if it can be read and is UTF-8. -/
def sourceText (fs : FileSystem) (text : String) : Except FileFault String :=
  fs.read text >>= textOfBytes

/-- What the assembler needs: a source that assembles, and a place for each of its two results. -/
structure Assembles (a : AssembleArguments) (fs : FileSystem) (source : String) (asm : Assembly)
    (binary trace : Path) : Prop where
  read : sourceText fs a.source = .ok source
  assembled : Source.assemble source = .ok asm
  binaryTarget : fs.target a.binary = .ok binary
  traceTarget : fs.target a.trace = .ok trace

/-- What can become of an assembly, with an exit code and the files that are left. -/
inductive Leaves (a : AssembleArguments) (fs : FileSystem) (asm : Assembly) :
    Nat → FileSystem → Prop where
  | both {binary trace : Path} : fs.target a.binary = .ok binary → fs.target a.trace = .ok trace →
      Leaves a fs asm 0 ((fs.put binary asm.program.toBytes).put trace
        (bytesOfText asm.traceJson.pretty))
  | binaryAlone {binary : Path} : fs.target a.binary = .ok binary →
      (∀ trace, fs.target a.trace ≠ .ok trace) →
      Leaves a fs asm 1 (fs.put binary asm.program.toBytes)
  | neither : (∀ binary, fs.target a.binary ≠ .ok binary) → Leaves a fs asm 1 fs

section

variable {a : AssembleArguments} {fs : FileSystem}

theorem Leaves.places {asm : Assembly} {after : FileSystem} (h : Leaves a fs asm 0 after) :
    ∃ binary trace, fs.target a.binary = .ok binary ∧ fs.target a.trace = .ok trace := by
  cases h with
  | both hbinary htrace => exact ⟨_, _, hbinary, htrace⟩

theorem Leaves.of_places {asm : Assembly} {exit : Nat} {after : FileSystem} {binary trace : Path}
    (h : Leaves a fs asm exit after) (hbinary : fs.target a.binary = .ok binary)
    (htrace : fs.target a.trace = .ok trace) :
    exit = 0 ∧ after = (fs.put binary asm.program.toBytes).put trace
      (bytesOfText asm.traceJson.pretty) := by
  cases h with
  | both hbinary' htrace' =>
      obtain rfl := Except.ok.inj (hbinary.symm.trans hbinary')
      obtain rfl := Except.ok.inj (htrace.symm.trans htrace')
      exact ⟨rfl, rfl⟩
  | binaryAlone _ hnone => exact absurd htrace (hnone trace)
  | neither hnone => exact absurd hbinary (hnone binary)

theorem assembleFile_of_no_assembly
    (h : ¬ ∃ source asm, sourceText fs a.source = .ok source ∧ Source.assemble source = .ok asm) :
    ∃ report, (assembleFile a : StateM FileSystem Report).run fs = (report, fs)
      ∧ report.exit = 1 := by
  unfold assembleFile
  rw [FileSystem.run_read_bind]
  cases hsource : (fs.read a.source >>= textOfBytes) with
  | error fault => exact ⟨_, rfl, rfl⟩
  | ok source =>
      dsimp only
      cases hresult : (Source.pass source).result with
      | error cause => exact ⟨_, rfl, rfl⟩
      | ok asm => exact absurd ⟨source, asm, hsource, hresult⟩ h

/-- A source that assembles leaves one of three things. -/
theorem assembleFile_leaves {source : String} {asm : Assembly}
    (hsource : sourceText fs a.source = .ok source) (hasm : Source.assemble source = .ok asm) :
    ∃ report after, (assembleFile a : StateM FileSystem Report).run fs = (report, after)
      ∧ Leaves a fs asm report.exit after := by
  unfold sourceText at hsource
  unfold Source.assemble at hasm
  unfold assembleFile
  rw [FileSystem.run_read_bind, hsource]
  dsimp only
  rw [hasm]
  dsimp only
  cases hbinary : fs.target a.binary with
  | error fault =>
      rw [FileSystem.run_write_bind_error hbinary]
      refine ⟨_, _, rfl, .neither fun binary hok => ?_⟩
      rw [hbinary] at hok
      contradiction
  | ok binary =>
      rw [FileSystem.run_write_bind hbinary]
      dsimp only
      -- the trace is placed among files that hold the binary already
      have hsame := FileSystem.target_put fs binary asm.program.toBytes a.trace
      cases htrace : (fs.put binary asm.program.toBytes).target a.trace with
      | error fault =>
          rw [FileSystem.run_write_bind_error htrace]
          refine ⟨_, _, rfl, .binaryAlone hbinary fun trace hok => ?_⟩
          rw [← hsame, htrace] at hok
          contradiction
      | ok trace =>
          rw [FileSystem.run_write_bind htrace]
          exact ⟨_, _, rfl, .both hbinary ((hsame trace).mp htrace)⟩

end

theorem run_assemble {args : List String} {a : AssembleArguments}
    (h : AssembleArguments.parse args = .ok a) (setting : Option String) {fs after : FileSystem}
    {report : Report}
    (hrun : (assembleFile a : StateM FileSystem Report).run fs = (report, after)) :
    (assemble args setting : StateM FileSystem Transcript).run fs
      = (report.transcript (.shown a.verbose setting), after) := by
  unfold assemble
  rw [h]
  dsimp only
  rw [StateT.run_bind, hrun]
  rfl

/--
**The assembler writes one assembly in two forms, or nothing.**

Without a source that can be read, is a text and assembles it leaves the files as they were. With
one, and with a place for each result, it succeeds, and these are the only cases where it does. It
then puts the words where the binary is to be and afterwards the trace, as an array with an indent
of four spaces, where the trace is to be, and changes nothing else. If these are two places, the
binary holds the assembled program and the trace its entries, word for word the same.
-/
theorem assemble_writes_both_or_nothing {args : List String} {a : AssembleArguments}
    (h : AssembleArguments.parse args = .ok a) (setting : Option String) (fs : FileSystem) :
    ∃ transcript after,
      (assemble args setting : StateM FileSystem Transcript).run fs = (transcript, after)
      ∧ (transcript.exit = 0 ↔ ∃ source asm binary trace, Assembles a fs source asm binary trace)
      ∧ ((¬ ∃ source asm, sourceText fs a.source = .ok source ∧ Source.assemble source = .ok asm) →
          transcript.exit = 1 ∧ after = fs)
      ∧ ∀ source asm binary trace, Assembles a fs source asm binary trace → ∃ text,
          text = (if asm.trace = [] then "[]"
            else "[\n    " ++ ",\n    ".intercalate (asm.trace.map TraceEntry.lines) ++ "\n]")
          ∧ after = (fs.put binary asm.program.toBytes).put trace (bytesOfText text)
          ∧ after.folders = fs.folders
          ∧ (∀ other, other ≠ binary → other ≠ trace →
              after.contents? other = fs.contents? other)
          ∧ (binary ≠ trace → after.read a.binary = .ok asm.program.toBytes)
          ∧ Program.ofBytes asm.program.toBytes = .ok asm.program
          ∧ after.read a.trace = .ok (bytesOfText text)
          ∧ textOfBytes (bytesOfText text) = .ok text
          ∧ readAs TraceEntry.listOfJson? text = some asm.trace
          ∧ asm.trace.map (·.word) = asm.program.code := by
  by_cases hassembly : ∃ source asm, sourceText fs a.source = .ok source
      ∧ Source.assemble source = .ok asm
  · obtain ⟨source, asm, hsource, hasm⟩ := hassembly
    obtain ⟨report, after, hrun, hleaves⟩ := assembleFile_leaves hsource hasm
    refine ⟨_, after, run_assemble h setting hrun, ?_, ?_, ?_⟩
    · constructor
      · intro (hzero : report.exit = 0)
        rw [hzero] at hleaves
        obtain ⟨binary, trace, hbinary, htrace⟩ := hleaves.places
        exact ⟨source, asm, binary, trace, hsource, hasm, hbinary, htrace⟩
      · rintro ⟨_, _, binary, trace, hassembles⟩
        exact (hleaves.of_places hassembles.binaryTarget hassembles.traceTarget).1
    · exact fun hnone => absurd ⟨source, asm, hsource, hasm⟩ hnone
    · intro source' asm' binary trace hassembles
      obtain rfl := Except.ok.inj (hsource.symm.trans hassembles.read)
      obtain rfl := Except.ok.inj (hasm.symm.trans hassembles.assembled)
      have hbinary := hassembles.binaryTarget
      have htrace := hassembles.traceTarget
      obtain ⟨-, rfl⟩ := hleaves.of_places hbinary htrace
      have hplaces := FileSystem.target_put fs binary asm.program.toBytes
      have hbinary' := (hplaces a.binary binary).mpr hbinary
      have htrace' := (hplaces a.trace trace).mpr htrace
      refine ⟨_, asm.pretty_traceJson, rfl, rfl, fun other hne hne' => ?_, fun hapart => ?_,
        Program.ofBytes_toBytes asm.program, FileSystem.read_put_self _ htrace',
        textOfBytes_bytesOfText _, asm.readAs_pretty_traceJson, Assembly.words_of_assemble hasm⟩
      · rw [FileSystem.contents?_put, if_neg hne', FileSystem.contents?_put, if_neg hne]
      · exact FileSystem.read_put_of_ne _ hbinary' hapart (FileSystem.read_put_self _ hbinary)
  · obtain ⟨report, hrun, hexit⟩ := assembleFile_of_no_assembly hassembly
    refine ⟨_, fs, run_assemble h setting hrun, ?_, fun _ => ⟨hexit, rfl⟩, ?_⟩
    · constructor
      · intro (hzero : report.exit = 0)
        exact absurd (hexit.symm.trans hzero) (by decide)
      · rintro ⟨source, asm, _, _, hassembles⟩
        exact absurd ⟨source, asm, hassembles.read, hassembles.assembled⟩ hassembly
    · intro source asm _ _ hassembles
      exact absurd ⟨source, asm, hassembles.read, hassembles.assembled⟩ hassembly

/-- A new binary and a trace in the place of an older one, and a source that is no program and
leaves both alone. -/
theorem assemble_writes_both_or_nothing_two_sources :
    (∃ transcript,
      (assemble ["a.asm", "a.bin", "a.json"] none : StateM FileSystem Transcript).run
          (.ofFiles [(["a.asm"], bytesOfText "LOAD_CONST 5\n"), (["a.json"], [0x5B, 0x5D])])
        = (transcript, ((FileSystem.ofFiles
            [(["a.asm"], bytesOfText "LOAD_CONST 5\n"), (["a.json"], [0x5B, 0x5D])]).put
              ["a.bin"] [0x42, 5, 0, 0]).put ["a.json"] (bytesOfText
                ("[\n    \x7b\n        \"mnemonic\": \"LOAD_CONST\",\n        \"opcode\": 66,\n"
                  ++ "        \"operand\": 5,\n        \"instruction_word\": 1346\n    \x7d\n]")))
      ∧ transcript.exit = 0)
    ∧ ∃ transcript,
      (assemble ["a.asm", "a.bin", "a.json"] none : StateM FileSystem Transcript).run
          (.ofFiles [(["a.asm"], bytesOfText "LOAD 5\n"), (["a.json"], [0x5B, 0x5D])])
        = (transcript,
            .ofFiles [(["a.asm"], bytesOfText "LOAD 5\n"), (["a.json"], [0x5B, 0x5D])])
      ∧ transcript.exit = 1 := by
  have hparse : AssembleArguments.parse ["a.asm", "a.bin", "a.json"]
      = .ok ⟨false, "a.asm", "a.bin", "a.json"⟩ := by cbv
  have hplaces : ∀ bytes, FileSystem.read (.ofFiles [(["a.asm"], bytes),
        (["a.json"], [0x5B, 0x5D])]) "a.asm" = .ok bytes
      ∧ FileSystem.target (.ofFiles [(["a.asm"], bytes), (["a.json"], [0x5B, 0x5D])]) "a.bin"
        = .ok ["a.bin"]
      ∧ FileSystem.target (.ofFiles [(["a.asm"], bytes), (["a.json"], [0x5B, 0x5D])]) "a.json"
        = .ok ["a.json"] := fun bytes => ⟨by cbv, by cbv, by cbv⟩
  have hread : ∀ text, sourceText (.ofFiles [(["a.asm"], bytesOfText text),
      (["a.json"], [0x5B, 0x5D])]) "a.asm" = .ok text := by
    intro text
    unfold sourceText
    rw [(hplaces (bytesOfText text)).1]
    exact textOfBytes_bytesOfText text
  constructor
  · obtain ⟨transcript, after, hrun, hexit, -, hleft⟩ := assemble_writes_both_or_nothing hparse none
      (.ofFiles [(["a.asm"], bytesOfText "LOAD_CONST 5\n"), (["a.json"], [0x5B, 0x5D])])
    have hassembles : Assembles ⟨false, "a.asm", "a.bin", "a.json"⟩
        (.ofFiles [(["a.asm"], bytesOfText "LOAD_CONST 5\n"), (["a.json"], [0x5B, 0x5D])])
        "LOAD_CONST 5\n" (.ofInstructions [⟨.loadConst, 5⟩]) ["a.bin"] ["a.json"] :=
      ⟨hread "LOAD_CONST 5\n", by rfl, (hplaces _).2.1, (hplaces _).2.2⟩
    obtain ⟨text, htext, rfl, -⟩ := hleft _ _ _ _ hassembles
    obtain rfl := htext.trans (by decide +kernel : _ =
      "[\n    \x7b\n        \"mnemonic\": \"LOAD_CONST\",\n        \"opcode\": 66,\n"
        ++ "        \"operand\": 5,\n        \"instruction_word\": 1346\n    \x7d\n]")
    exact ⟨transcript, hrun, hexit.mpr ⟨_, _, _, _, hassembles⟩⟩
  · obtain ⟨transcript, after, hrun, -, hnothing, -⟩ := assemble_writes_both_or_nothing hparse none
      (.ofFiles [(["a.asm"], bytesOfText "LOAD 5\n"), (["a.json"], [0x5B, 0x5D])])
    obtain ⟨cause, hcause⟩ : ∃ cause, Source.assemble "LOAD 5\n" = .error cause := ⟨_, rfl⟩
    have hnone : ¬ ∃ source asm, sourceText (.ofFiles [(["a.asm"], bytesOfText "LOAD 5\n"),
        (["a.json"], [0x5B, 0x5D])]) "a.asm" = .ok source ∧ Source.assemble source = .ok asm := by
      rintro ⟨source, asm, hsource, hasm⟩
      obtain rfl := Except.ok.inj ((hread "LOAD 5\n").symm.trans hsource)
      rw [hcause] at hasm
      contradiction
    obtain ⟨hone, rfl⟩ := hnothing hnone
    exact ⟨transcript, hrun, hone⟩

end Command

end AccumulatorMachine
