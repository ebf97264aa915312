import AccumulatorMachine.Proofs.LineGrammar
import AccumulatorMachine.Proofs.Run
import AccumulatorMachine.Source.Assembly

/-!
# What a source assembles to, and what its bytes do

A source assembles when each of its lines can be read, and then to the instructions on
those lines, in order (`assemble_eq_ok_iff`). So whatever is to be said about assemblies is
said about a list of instructions, and the text has no further part in it.

From there to the machine nothing is lost either: the bytes of a program are read back as
the same words, and running the word of an instruction is performing the instruction, with
all its masks. What can still fail is a power, and only that.
-/

namespace AccumulatorMachine

namespace Assembly

/-- The assembly of given instructions. -/
def ofInstructions (is : List Instruction) : Assembly :=
  ⟨.ofInstructions is, is.map .ofInstruction⟩

/-- The words and the entries of one assembly, and then those of another. -/
instance : Append Assembly := ⟨fun a b => ⟨a.program ++ b.program, a.trace ++ b.trace⟩⟩

theorem append_assoc (a b c : Assembly) : a ++ b ++ c = a ++ (b ++ c) := by
  show Assembly.mk ⟨_ ++ _ ++ _⟩ (_ ++ _ ++ _) = ⟨⟨_ ++ (_ ++ _)⟩, _ ++ (_ ++ _)⟩
  rw [List.append_assoc, List.append_assoc]

theorem append_empty (a : Assembly) : a ++ ({} : Assembly) = a := by
  show Assembly.mk ⟨_ ++ []⟩ (_ ++ []) = a
  rw [List.append_nil, List.append_nil]

end Assembly

namespace Source

/-! ## One line -/

/-- The instruction on a line, if the line can be read and holds one. -/
def instructionOn? (line : List Char) : Option Instruction :=
  match parseLine line with
  | .ok found => found
  | .error _ => none

theorem instructionOn?_of_parseLine {line : List Char} {found : Option Instruction}
    (h : parseLine line = .ok found) : instructionOn? line = found := by
  unfold instructionOn?
  rw [h]

theorem assembleLine_of_parseLine {line : List Char} {found : Option Instruction}
    (h : parseLine line = .ok found) :
    assembleLine line = .ok (found.map fun i => (i.encode, .ofInstruction i)) := by
  unfold assembleLine
  rw [h]
  rfl

theorem assembleLine_eq_error_iff {line : List Char} {flaw : LineError} :
    assembleLine line = .error flaw ↔ parseLine line = .error flaw := by
  unfold assembleLine
  cases parseLine line with
  | error cause => simp [Except.map]
  | ok found => simp [Except.map]

theorem exists_assembleLine_iff {line : List Char} :
    (∃ made, assembleLine line = .ok made) ↔ ∃ found, parseLine line = .ok found := by
  unfold assembleLine
  cases parseLine line with
  | error cause => simp [Except.map]
  | ok found => simp [Except.map]

/-! ## All lines -/

/-- The instructions on the lines of a source, in order. -/
def instructionsOf (source : String) : List Instruction :=
  (Text.lines source.toList).filterMap instructionOn?

theorem encodeLines_cons_ok {line : List Char} {found : Option Instruction}
    (h : parseLine line = .ok found) (number : Nat) (lines : List (List Char)) :
    (encodeLines number (line :: lines)).error = (encodeLines (number + 1) lines).error
    ∧ (encodeLines number (line :: lines)).assembly
        = .ofInstructions found.toList ++ (encodeLines (number + 1) lines).assembly := by
  rw [encodeLines, assembleLine_of_parseLine h]
  cases found with
  | none => exact ⟨rfl, rfl⟩
  | some i => exact ⟨rfl, rfl⟩

theorem encodeLines_cons_error {line : List Char} {cause : LineError}
    (h : parseLine line = .error cause) (number : Nat) (lines : List (List Char)) :
    encodeLines number (line :: lines)
      = { error := some ((SourceError.inLine cause).located number line) } := by
  rw [encodeLines, assembleLine_eq_error_iff.mpr h]

/-- A pass meets no error just when every line can be read. -/
theorem encodeLines_error_eq_none_iff : ∀ (lines : List (List Char)) (number : Nat),
    (encodeLines number lines).error = none ↔
      ∀ line ∈ lines, ∃ found, parseLine line = .ok found := by
  intro lines
  induction lines with
  | nil => intro number; exact ⟨fun _ line hline => absurd hline List.not_mem_nil, fun _ => rfl⟩
  | cons line lines ih =>
      intro number
      rw [List.forall_mem_cons]
      cases h : parseLine line with
      | error cause => rw [encodeLines_cons_error h]; simp
      | ok found =>
          rw [(encodeLines_cons_ok h number lines).1, ih]
          exact ⟨fun hall => ⟨⟨found, rfl⟩, hall⟩, fun hall => hall.2⟩

/-- A pass without an error has assembled the instructions of all its lines. -/
theorem assembly_encodeLines : ∀ (lines : List (List Char)) (number : Nat),
    (encodeLines number lines).error = none →
      (encodeLines number lines).assembly = .ofInstructions (lines.filterMap instructionOn?) := by
  -- the number of a line shows only in errors, so it is free in the induction
  intro lines
  induction lines with
  | nil => intro number _; rfl
  | cons line lines ih =>
      intro number h
      cases hline : parseLine line with
      | error cause => rw [encodeLines_cons_error hline] at h; contradiction
      | ok found =>
          obtain ⟨herror, hassembly⟩ := encodeLines_cons_ok hline number lines
          rw [herror] at h
          rw [hassembly, ih (number + 1) h, List.filterMap_cons, instructionOn?_of_parseLine hline]
          cases found with
          | none => rfl
          | some i => rfl

/-- **When a source assembles, and to what.** -/
theorem assemble_eq_ok_iff {source : String} {a : Assembly} :
    assemble source = .ok a ↔
      (∀ line ∈ Text.lines source.toList, ∃ found, parseLine line = .ok found)
        ∧ a = .ofInstructions (instructionsOf source) := by
  rw [← encodeLines_error_eq_none_iff _ 1]
  unfold assemble Pass.result pass instructionsOf
  cases h : (encodeLines 1 (Text.lines source.toList)).error with
  | some cause => simp
  | none =>
      rw [assembly_encodeLines _ 1 h]
      simp [eq_comm]

/--
**Assembling and running agree.**

If a source assembles, then running the bytes of the assembly on a machine does what performing
the instructions on its lines does: the same machine is left, with the same fault or none. The
only fault there can be is a refused power. It stands at a place of the trace with the mnemonic
of a power, and if there is no limit it is the exponent that is refused.
-/
theorem runBytes_assembly {source : String} {a : Assembly} (h : assemble source = .ok a)
    (m : Machine) :
    m.runBytes a.program.toBytes = m.performAll (instructionsOf source)
    ∧ ∀ fault, (m.runBytes a.program.toBytes).fault = some fault →
        ∃ (k : Nat) (entry : TraceEntry) (cause : PowerError),
          fault = .pow (m.state.steps + k) cause
          ∧ a.trace[k]? = some entry ∧ entry.mnemonic = "POW"
          ∧ (m.config.powLimit = none → ∃ exponent, cause = .exponentTooLarge exponent) := by
  obtain ⟨-, rfl⟩ := assemble_eq_ok_iff.mp h
  have hrun : m.runBytes (Assembly.ofInstructions (instructionsOf source)).program.toBytes
      = m.performAll (instructionsOf source) := by
    -- the bytes of a program are read back as its words, and those are the instructions'
    unfold Machine.runBytes
    rw [Program.ofBytes_toBytes]
    exact Machine.run_encode _ m
  refine ⟨hrun, ?_⟩
  rw [hrun]
  intro fault hfault
  obtain ⟨k, i, base, exponent, cause, hi, hop, hpow, rfl⟩ := Machine.performAll_fault hfault
  refine ⟨k, .ofInstruction i, cause, rfl, ?_, ?_, ?_⟩
  · unfold Assembly.ofInstructions
    rw [List.getElem?_map, hi]
    rfl
  · unfold TraceEntry.ofInstruction
    rw [hop]
    rfl
  · intro hlimit
    rw [hlimit] at hpow
    exact ⟨_, power_unlimited_error hpow⟩

/-- A power that is refused on the third of three instructions, behind a comment. -/
theorem runBytes_assembly_refused_power :
    ∃ a, assemble "LOAD_CONST 70000\nWRITE_MEM 9\n# too long\n POW 1" = .ok a
      ∧ ((Machine.fresh ⟨8, some 16⟩).runBytes a.program.toBytes).fault
        = some (.pow 2 (.limitExceeded 1120001 16))
      ∧ (Machine.fresh ⟨8, some 16⟩).runBytes a.program.toBytes
        = (Machine.fresh ⟨8, some 16⟩).performAll [⟨.loadConst, 70000⟩, ⟨.writeMem, 9⟩, ⟨.pow, 1⟩]
      ∧ ∃ entry, a.trace[2]? = some entry ∧ entry.mnemonic = "POW" := by
  have h : assemble "LOAD_CONST 70000\nWRITE_MEM 9\n# too long\n POW 1"
      = .ok (.ofInstructions [⟨.loadConst, 70000⟩, ⟨.writeMem, 9⟩, ⟨.pow, 1⟩]) := by rfl
  have hfault : ((Machine.fresh ⟨8, some 16⟩).runBytes
      (Assembly.ofInstructions [⟨.loadConst, 70000⟩, ⟨.writeMem, 9⟩, ⟨.pow, 1⟩]).program.toBytes).fault
        = some (.pow 2 (.limitExceeded 1120001 16)) := by rfl
  obtain ⟨hrun, hplace⟩ := runBytes_assembly h (Machine.fresh ⟨8, some 16⟩)
  obtain ⟨k, entry, cause, hk, hentry, hmnemonic, -⟩ := hplace _ hfault
  obtain ⟨hindex, -⟩ := Fault.pow.inj hk
  have htwo : k = 2 := by simpa [Machine.fresh] using hindex.symm
  exact ⟨_, h, hfault, hrun, entry, htwo ▸ hentry, hmnemonic⟩

end Source

end AccumulatorMachine
