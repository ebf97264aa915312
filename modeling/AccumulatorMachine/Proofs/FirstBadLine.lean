import AccumulatorMachine.Proofs.Concatenation

/-!
# The line that is blamed

A source either assembles or has one line to blame. A line can be bad only on its own: whether it
can be assembled does not depend on the lines around it, and so the error of a source is decided
by the lines one at a time. It is the error of the first bad line, at its number, which counts
blank lines and comments too.

The line is quoted without the blanks at its ends, and something is always left of it, because a
line with nothing but blanks on it is never bad.
-/

namespace AccumulatorMachine

namespace Text

/-- Nothing is left of a line just when there are only blanks on it. -/
theorem trim_eq_nil_iff {line : List Char} : trim line = [] ↔ ∀ c ∈ line, isBlank c := by
  unfold trim
  rw [List.reverse_eq_nil_iff, List.dropWhile_eq_nil_iff]
  constructor
  · intro h
    rw [← List.dropWhile_eq_nil_iff]
    -- what is left in front of a line would begin with a character that is not blank
    rcases hfront : line.dropWhile isBlank with _ | ⟨c, rest⟩
    · rfl
    · have hc : isBlank c := h c (by simp [hfront])
      have hstop := List.head?_dropWhile_not isBlank line
      rw [hfront] at hstop
      simp [hc] at hstop
  · intro h c hc
    exact h c (List.dropWhile_subset _ (List.mem_reverse.mp hc))

end Text

namespace Source

/-! ## One line -/

/-- **Something is left** of a line that cannot be read. -/
theorem trim_ne_nil_of_parseLine {line : List Char} {flaw : LineError}
    (h : parseLine line = .error flaw) : Text.trim line ≠ [] := by
  intro hnil
  have hgap : Gap line [] := gap_of_blanks (Text.trim_eq_nil_iff.mp hnil) []
  rw [parseLine_eq_none_iff_gap.mpr hgap] at h
  contradiction

/-! ## All lines -/

/-- What the lines of a source are assembled to, one by one. -/
theorem mapM_assembleLine {lines : List (List Char)}
    (h : ∀ line ∈ lines, ∃ found, parseLine line = .ok found) :
    ∃ made, lines.mapM assembleLine = .ok made
      ∧ made.reduceOption
          = (lines.filterMap instructionOn?).map fun i => (i.encode, .ofInstruction i) := by
  induction lines with
  | nil => exact ⟨[], rfl, rfl⟩
  | cons line lines ih =>
      obtain ⟨⟨found, hfound⟩, hlines⟩ := List.forall_mem_cons.mp h
      obtain ⟨made, hmade, hreduced⟩ := ih hlines
      refine ⟨found.map (fun i => (i.encode, .ofInstruction i)) :: made, ?_, ?_⟩
      · rw [List.mapM_cons, assembleLine_of_parseLine hfound, hmade]
        rfl
      · rw [List.filterMap_cons, instructionOn?_of_parseLine hfound]
        cases found with
        | none => exact hreduced
        | some i => exact congrArg (_ :: ·) hreduced

/-- The lines of a source that cannot be assembled, by their numbers. The first line is number
one. -/
def badLines (source : String) : Set Nat :=
  {number | 0 < number ∧ ∃ line flaw,
    (Text.lines source.toList)[number - 1]? = some line ∧ assembleLine line = .error flaw}

/-- A line behind others that can be read is the first bad one. -/
theorem isLeast_badLines {source : String} {before after : List (List Char)} {line : List Char}
    {flaw : LineError} (hlines : Text.lines source.toList = before ++ line :: after)
    (hbefore : ∀ earlier ∈ before, ∃ found, parseLine earlier = .ok found)
    (hline : parseLine line = .error flaw) :
    IsLeast (badLines source) (1 + before.length)
      ∧ (Text.lines source.toList)[1 + before.length - 1]? = some line := by
  have hplace : (Text.lines source.toList)[1 + before.length - 1]? = some line := by
    simp [hlines]
  refine ⟨⟨⟨by omega, line, flaw, hplace, assembleLine_eq_error_iff.mpr hline⟩, ?_⟩, hplace⟩
  rintro number ⟨hpos, bad, cause, hbad, hcause⟩
  have hgood : ∀ earlier ∈ before, ¬ ∃ fault, parseLine earlier = .error fault := by
    rintro earlier hearlier ⟨fault, hfault⟩
    obtain ⟨found, hfound⟩ := hbefore earlier hearlier
    rw [hfault] at hfound
    contradiction
  rw [hlines] at hbad
  have hfirst : before.length ≤ number - 1 := (Lists.isLeast_place hgood ⟨flaw, hline⟩).2
    ⟨bad, hbad, cause, assembleLine_eq_error_iff.mp hcause⟩
  omega

/--
**Assembly reports exactly the first bad line.**

A source assembles just when each of its lines does, and then to the words and the entries of its
lines, in order, where a line without an instruction adds nothing. Otherwise the error is placed
once, at the least number of a line that cannot be assembled; it quotes that line without the
blanks at its ends, which leaves something, and holds what is wrong with the line on its own.
-/
theorem assemble_reports_first_bad_line (source : String) :
    ((∃ a, assemble source = .ok a) ↔
      ∀ line ∈ Text.lines source.toList, ∃ made, assembleLine line = .ok made)
    ∧ (∀ a, assemble source = .ok a → ∃ made,
        (Text.lines source.toList).mapM assembleLine = .ok made
        ∧ a.program.code = made.reduceOption.map Prod.fst
        ∧ a.trace = made.reduceOption.map Prod.snd)
    ∧ ∀ cause, assemble source = .error cause → ∃ number line flaw,
        cause = .atLine number (.ofList (Text.trim line)) (.inLine flaw)
        ∧ IsLeast (badLines source) number
        ∧ (Text.lines source.toList)[number - 1]? = some line
        ∧ assembleLine line = .error flaw ∧ parseLine line = .error flaw
        ∧ Text.trim line ≠ [] := by
  refine ⟨?_, ?_, ?_⟩
  · simp only [assemble_eq_ok_iff, exists_and_left, exists_eq, and_true, exists_assembleLine_iff]
  · intro a h
    obtain ⟨hlines, rfl⟩ := assemble_eq_ok_iff.mp h
    obtain ⟨made, hmade, hreduced⟩ := mapM_assembleLine hlines
    refine ⟨made, hmade, ?_, ?_⟩
    · rw [hreduced, List.map_map]
      rfl
    · rw [hreduced, List.map_map]
      rfl
  · intro cause h
    obtain ⟨before, line, after, flaw, hlines, hbefore, hline, rfl⟩ :=
      encodeLines_error _ 1 cause (Pass.result_eq_error_iff.mp h)
    obtain ⟨hleast, hplace⟩ := isLeast_badLines hlines hbefore hline
    exact ⟨1 + before.length, line, flaw, rfl, hleast, hplace,
      assembleLine_eq_error_iff.mpr hline, hline, trim_ne_nil_of_parseLine hline⟩

/-- Two bad lines behind a blank line, a comment and a good line, and the good line alone. -/
theorem assemble_reports_first_bad_line_two_bad :
    (∃ cause, assemble "\n# start\r\nLOAD_CONST 1\n \u00a0POW 3.14\t\r\nFLY 2" = .error cause
      ∧ cause = .atLine 4 "POW 3.14"
          (.inLine (.malformedOperand "POW" (.trailing ".14")))
      ∧ IsLeast (badLines "\n# start\r\nLOAD_CONST 1\n \u00a0POW 3.14\t\r\nFLY 2") 4)
    ∧ ∃ a made, assemble "\n# start\r\nLOAD_CONST 1" = .ok a
      ∧ (Text.lines "\n# start\r\nLOAD_CONST 1".toList).mapM assembleLine = .ok made
      ∧ made = [none, none, some (0x0142, ⟨"LOAD_CONST", 66, 1, 0x0142⟩)]
      ∧ a.program.code = [0x0142] := by
  have hbad : assemble "\n# start\r\nLOAD_CONST 1\n \u00a0POW 3.14\t\r\nFLY 2"
      = .error (.atLine 4 "POW 3.14"
          (.inLine (.malformedOperand "POW" (.trailing ".14")))) := by rfl
  have hgood : assemble "\n# start\r\nLOAD_CONST 1"
      = .ok ⟨⟨[0x0142]⟩, [⟨"LOAD_CONST", 66, 1, 0x0142⟩]⟩ := by rfl
  obtain ⟨-, -, herror⟩ :=
    assemble_reports_first_bad_line "\n# start\r\nLOAD_CONST 1\n \u00a0POW 3.14\t\r\nFLY 2"
  obtain ⟨-, hok, -⟩ := assemble_reports_first_bad_line "\n# start\r\nLOAD_CONST 1"
  obtain ⟨number, line, flaw, hcause, hleast, -⟩ := herror _ hbad
  obtain ⟨hfour, -, -⟩ := SourceError.atLine.inj hcause
  obtain ⟨made, hmade, hcode, -⟩ := hok _ hgood
  refine ⟨⟨_, hbad, rfl, hfour ▸ hleast⟩, _, made, hgood, hmade, ?_, rfl⟩
  have heval : (Text.lines "\n# start\r\nLOAD_CONST 1".toList).mapM assembleLine
      = .ok [none, none, some (0x0142, ⟨"LOAD_CONST", 66, 1, 0x0142⟩)] := by rfl
  rw [heval] at hmade
  exact (Except.ok.inj hmade).symm

end Source

end AccumulatorMachine
