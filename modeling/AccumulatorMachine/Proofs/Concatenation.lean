import AccumulatorMachine.Proofs.Passes

/-!
# Sources one after another

Two sources with a line feed between them are one source, and it is assembled in two parts. The
line feed ends a line, whatever stands before it: also if the first source is empty, if it ends in
a line feed of its own, or in a carriage return that is now followed by one. So the second
source begins one line below the number of line feeds in the first, and its pass is the same as
on its own but for the line numbers (`pass_append`).

Whatever can be said about the assembly, on success and on failure, is read off from this.
-/

namespace AccumulatorMachine.Source

/-! ## The result of a pass -/

namespace Pass

theorem result_eq_ok_iff {p : Pass} {a : Assembly} :
    p.result = .ok a ↔ p.error = none ∧ a = p.assembly := by
  unfold result
  cases p.error with
  | none => simp [eq_comm]
  | some cause => simp

theorem result_eq_error_iff {p : Pass} {cause : SourceError} :
    p.result = .error cause ↔ p.error = some cause := by
  unfold result
  cases p.error with
  | none => simp
  | some first => simp

theorem andThen_of_finished {p : Pass} (h : p.error = none) (q : Pass) :
    (p.andThen q).error = q.error
      ∧ (p.andThen q).assembly = p.assembly ++ q.assembly := by
  unfold andThen
  rw [h]
  exact ⟨rfl, rfl⟩

theorem andThen_of_stopped {p : Pass} {cause : SourceError} (h : p.error = some cause) (q : Pass) :
    p.andThen q = p := by
  unfold andThen
  rw [h]

end Pass

/-- **An error of a pass** is that of the first line that cannot be read, placed there. -/
theorem encodeLines_error (lines : List (List Char)) : ∀ (number : Nat) (cause : SourceError),
    (encodeLines number lines).error = some cause →
      ∃ before line after flaw, lines = before ++ line :: after
        ∧ (∀ earlier ∈ before, ∃ found, parseLine earlier = .ok found)
        ∧ parseLine line = .error flaw
        ∧ cause = (SourceError.inLine flaw).located (number + before.length) line := by
  induction lines with
  | nil => intro number cause h; contradiction
  | cons line lines ih =>
      intro number cause h
      cases hline : parseLine line with
      | error flaw =>
          rw [encodeLines_cons_error hline] at h
          exact ⟨[], line, lines, flaw, rfl, by simp, hline, (Option.some.inj h).symm⟩
      | ok found =>
          rw [(encodeLines_cons_ok hline number lines).1] at h
          obtain ⟨before, bad, after, flaw, rfl, hbefore, hbad, hcause⟩ := ih (number + 1) cause h
          refine ⟨line :: before, bad, after, flaw, rfl, ?_, hbad, ?_⟩
          · exact List.forall_mem_cons.mpr ⟨⟨found, hline⟩, hbefore⟩
          · rw [hcause, List.length_cons, Nat.add_assoc, Nat.add_comm 1]

/-! ## Two sources -/

/-- **A pass over two sources** is the pass over the first and then the one over the second, moved
down by as many lines as the first has with the line feed behind it. -/
theorem pass_append (s t : String) :
    pass (s ++ "\n" ++ t) = (pass s).andThen ((pass t).moved (1 + s.toList.count '\n')) := by
  have htext : (s ++ "\n" ++ t).toList = s.toList ++ '\n' :: t.toList := by
    rw [String.toList_append, String.toList_append, List.append_assoc]
    rfl
  rw [pass_eq, pass_eq, pass_eq, htext, List.splitOn_append_cons_self, encodeLines_append,
    Lists.length_splitOn, ← encodeLines_add, Nat.add_comm (s.toList.count '\n') 1]

/--
**Assembly is compositional.**

If the first of two sources has an error, it is the error of both together, unchanged. If both
assemble, the whole does, to the words and the entries of the first and then of the second. And if
only the second has an error, it is the error of the whole, on a line that is further down by one
and the number of line feeds in the first. An error is always placed at a line, and what it holds
is what is wrong there.
-/
theorem assemble_concatenation (s t : String) :
    (∀ cause, assemble s = .error cause → assemble (s ++ "\n" ++ t) = .error cause)
    ∧ (∀ a b, assemble s = .ok a → assemble t = .ok b →
        assemble (s ++ "\n" ++ t) = .ok ⟨a.program ++ b.program, a.trace ++ b.trace⟩)
    ∧ (∀ a number text cause, assemble s = .ok a →
        assemble t = .error (.atLine number text cause) →
        assemble (s ++ "\n" ++ t)
          = .error (.atLine (number + (1 + s.toList.count '\n')) text cause))
    ∧ ∀ cause, assemble t = .error cause →
        ∃ number text flaw, cause = .atLine number text (.inLine flaw) := by
  unfold assemble
  rw [pass_append]
  simp only [Pass.result_eq_ok_iff, Pass.result_eq_error_iff]
  refine ⟨?_, ?_, ?_, ?_⟩
  · intro cause hs
    rw [Pass.andThen_of_stopped hs]
    exact hs
  · rintro a b ⟨hs, rfl⟩ ⟨ht, rfl⟩
    obtain ⟨herror, hassembly⟩ := Pass.andThen_of_finished hs
      ((pass t).moved (1 + s.toList.count '\n'))
    refine ⟨?_, hassembly.symm⟩
    rw [herror, Pass.moved, ht]
    rfl
  · rintro a number text cause ⟨hs, rfl⟩ ht
    rw [(Pass.andThen_of_finished hs _).1, Pass.moved, ht]
    rfl
  · intro cause ht
    obtain ⟨before, line, -, flaw, -, -, -, rfl⟩ := encodeLines_error _ 1 cause ht
    exact ⟨1 + before.length, _, flaw, rfl⟩

/-- A source that ends in a carriage return, in front of one that begins with an empty line and is
right or wrong, and behind one that is wrong itself. -/
theorem assemble_concatenation_return :
    assemble ("LOAD_CONST 5\r" ++ "\n" ++ "\nPOW 07")
        = .ok ⟨⟨[0x0542]⟩ ++ ⟨[0x072F]⟩,
          [⟨"LOAD_CONST", 66, 5, 0x0542⟩] ++ [⟨"POW", 47, 7, 0x072F⟩]⟩
    ∧ assemble ("LOAD_CONST 5\r" ++ "\n" ++ "\n POW -7 # low")
        = .error (.atLine (2 + (1 + 0)) "POW -7 # low"
          (.inLine (.malformedOperand "POW" (.notNumber "-7"))))
    ∧ assemble ("READ_MEM 2048" ++ "\n" ++ "\n POW -7 # low")
        = .error (.atLine 1 "READ_MEM 2048" (.inLine (.operandOutOfRange .readMem "2048" 2047)))
    ∧ assemble "\n POW -7 # low"
        = .error (.atLine 2 "POW -7 # low" (.inLine (.malformedOperand "POW" (.notNumber "-7"))))
    ∧ ∃ number text flaw, SourceError.atLine 2 "POW -7 # low"
          (.inLine (.malformedOperand "POW" (.notNumber "-7")))
        = .atLine number text (.inLine flaw) := by
  have hfirst : assemble "LOAD_CONST 5\r"
      = .ok ⟨⟨[0x0542]⟩, [⟨"LOAD_CONST", 66, 5, 0x0542⟩]⟩ := by rfl
  have hright : assemble "\nPOW 07" = .ok ⟨⟨[0x072F]⟩, [⟨"POW", 47, 7, 0x072F⟩]⟩ := by rfl
  have hwrong : assemble "\n POW -7 # low"
      = .error (.atLine 2 "POW -7 # low"
        (.inLine (.malformedOperand "POW" (.notNumber "-7")))) := by
    rfl
  have hrange : assemble "READ_MEM 2048"
      = .error (.atLine 1 "READ_MEM 2048" (.inLine (.operandOutOfRange .readMem "2048" 2047))) := by
    rfl
  obtain ⟨-, hboth, -, -⟩ := assemble_concatenation "LOAD_CONST 5\r" "\nPOW 07"
  obtain ⟨-, -, hsecond, -⟩ := assemble_concatenation "LOAD_CONST 5\r" "\n POW -7 # low"
  obtain ⟨hone, -, -, hplaced⟩ := assemble_concatenation "READ_MEM 2048" "\n POW -7 # low"
  exact ⟨hboth _ _ hfirst hright, hsecond _ _ _ _ hfirst hwrong, hone _ hrange, hwrong,
    hplaced _ hwrong⟩

end AccumulatorMachine.Source
