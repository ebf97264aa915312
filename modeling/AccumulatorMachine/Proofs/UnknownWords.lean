import AccumulatorMachine.Proofs.Failure
import AccumulatorMachine.Proofs.Listing

/-!
# Words without an instruction

A program may hold words with codes that no opcode has, and it is gone through in three ways that
notice them: decoding all of it, running it, and listing it. Decoding stops at the first such
word. So does a run that gets there, but a run can end before, at a power that is refused, and
then it has only seen words that are known. A listing does not stop and marks each of them.

What ties decoding to running is that the words before the first unknown one can fail in one way
only (`run_fault_of_known`).
-/

namespace AccumulatorMachine

theorem Instruction.decode_of_unknown {word : Word} (h : word.Unknown) :
    decode word = .error (.unknownCode word.code) := by
  unfold decode
  rw [decode?_eq_none_iff_unknown.mpr h]

theorem Instruction.exists_decode_iff {word : Word} :
    (∃ i, decode word = .ok i) ↔ ¬ word.Unknown := by
  rw [← exists_decode?_iff]
  unfold decode
  cases decode? word with
  | none => simp
  | some i => simp

/-! ## Decoding -/

namespace Program

/-- **Decoding fails at the first unknown word**, and only if there is one. -/
theorem instructions_cases (p : Program) :
    ((∃ is, p.instructions = .ok is) ∧ ∀ word ∈ p.code, ¬ word.Unknown)
    ∨ ∃ before word after, p.code = before ++ word :: after
        ∧ (∀ earlier ∈ before, ¬ earlier.Unknown) ∧ word.Unknown
        ∧ p.instructions = .error (.unknownCode word.code) := by
  obtain ⟨code⟩ := p
  unfold instructions
  induction code with
  | nil => exact Or.inl ⟨⟨[], rfl⟩, by simp⟩
  | cons first code ih =>
      dsimp only at ih ⊢
      rw [List.mapM_cons]
      by_cases hfirst : first.Unknown
      · rw [Instruction.decode_of_unknown hfirst]
        exact Or.inr ⟨[], first, code, rfl, by simp, hfirst, rfl⟩
      · obtain ⟨i, hi⟩ := Instruction.exists_decode_iff.mpr hfirst
        rw [hi]
        rcases ih with ⟨⟨is, his⟩, hknown⟩ | ⟨before, word, after, rfl, hknown, hword, herror⟩
        · rw [his]
          exact Or.inl ⟨⟨i :: is, rfl⟩, List.forall_mem_cons.mpr ⟨hfirst, hknown⟩⟩
        · rw [herror]
          exact Or.inr ⟨first :: before, word, after, rfl,
            List.forall_mem_cons.mpr ⟨hfirst, hknown⟩, hword, rfl⟩

theorem exists_instructions_error_iff {p : Program} :
    (∃ cause, p.instructions = .error cause) ↔ ∃ word ∈ p.code, word.Unknown := by
  rcases instructions_cases p with
    ⟨⟨is, his⟩, hknown⟩ | ⟨before, word, after, hcode, -, hword, herror⟩
  · refine iff_of_false ?_ ?_
    · rintro ⟨cause, hcause⟩
      rw [his] at hcause
      contradiction
    · rintro ⟨word, hmem, hword⟩
      exact hknown word hmem hword
  · exact iff_of_true ⟨_, herror⟩ ⟨word, by simp [hcode], hword⟩

end Program

/-! ## Running -/

namespace Machine

/-- **Known words fail at a power**, and at no other word. -/
theorem run_fault_of_known {m : Machine} {words : List Word} {fault : Fault}
    (hknown : ∀ word ∈ words, ¬ word.Unknown) (h : (m.run words).fault = some fault) :
    ∃ (k : Nat) (word : Word) (cause : PowerError), words[k]? = some word
      ∧ word.code = Opcode.pow.code ∧ fault = .pow (m.state.steps + k) cause := by
  obtain ⟨k, word, left, hword, hbefore, -, hrefused⟩ := exists_refused_word h
  have hsteps := (failsAt_of_refused hword hbefore hrefused).steps
  obtain ⟨i, hi⟩ := Instruction.exists_decode?_iff.mpr (hknown word (List.mem_of_getElem? hword))
  rw [step_of_decode hi] at hrefused
  obtain ⟨hop, cause, -, rfl⟩ := perform_eq_error_iff.mp hrefused
  refine ⟨k, word, cause, hword, ?_, by rw [hsteps]⟩
  rw [← hop]
  exact (Instruction.decode?_eq_some_iff.mp hi).1.symm

/-- A run with an unknown word in it fails there, or at a power before it. -/
theorem run_fault_of_first_unknown (m : Machine) {before : List Word} {word : Word}
    (after : List Word) (hknown : ∀ earlier ∈ before, ¬ earlier.Unknown) (hword : word.Unknown) :
    (∃ (k : Nat) (earlier : Word) (cause : PowerError), before[k]? = some earlier
        ∧ earlier.code = Opcode.pow.code
        ∧ (m.run (before ++ word :: after)).fault = some (.pow (m.state.steps + k) cause))
    ∨ (m.run (before ++ word :: after)).fault
        = some (.unknownOpcode (m.state.steps + before.length) word.code word) := by
  cases hfault : (m.run before).fault with
  | some fault =>
      obtain ⟨k, earlier, cause, hearlier, hcode, rfl⟩ := run_fault_of_known hknown hfault
      rw [run_append_of_error hfault]
      exact Or.inl ⟨k, earlier, cause, hearlier, hcode, hfault⟩
  | none =>
      have hbefore : m.run before = ⟨(m.run before).machine, none⟩ := congrArg (Run.mk _) hfault
      have hstep := step_of_unknown (m := (m.run before).machine)
        (Instruction.decode?_eq_none_iff_unknown.mpr hword)
      rw [steps_of_run hfault] at hstep
      rw [run_append_of_ok hbefore, run, runWith_cons_error hstep]
      exact Or.inr rfl

end Machine

/-! ## Decoding, running and listing -/

/-- The places of the unknown words of a program. -/
def Program.unknownPlaces (p : Program) : Set Nat :=
  {k | ∃ word, p.code[k]? = some word ∧ word.Unknown}

theorem Program.isLeast_unknownPlaces {p : Program} {before after : List Word} {word : Word}
    (hcode : p.code = before ++ word :: after) (hknown : ∀ earlier ∈ before, ¬ earlier.Unknown)
    (hword : word.Unknown) :
    IsLeast p.unknownPlaces before.length ∧ p.code[before.length]? = some word := by
  unfold unknownPlaces
  rw [hcode]
  exact ⟨Lists.isLeast_place hknown hword, by simp⟩

/-- A listing has as many lines as the program has words, and each shows the mark just when its
word is unknown. -/
structure Program.MarksUnknown (p : Program) : Prop where
  length : (Text.lines p.listing.toList).length = p.code.length
  marked : ∀ (k : Nat) (word : Word) (line : List Char), p.code[k]? = some word →
    (Text.lines p.listing.toList)[k]? = some line →
    (Listing.invalidMark.toList <:+: line ↔ word.Unknown)

theorem Program.marksUnknown (p : Program) : p.MarksUnknown where
  length := by rw [lines_listing, List.length_map, List.length_zipIdx]
  marked := by
    intro k word line hword hline
    rw [getElem?_lines_listing, hword, Option.map_some] at hline
    obtain rfl := Option.some.inj hline
    exact Listing.mark_infix_line_iff

theorem Program.exists_marked_iff (p : Program) :
    (∃ line ∈ Text.lines p.listing.toList, Listing.invalidMark.toList <:+: line)
      ↔ ∃ word ∈ p.code, word.Unknown := by
  constructor
  · rintro ⟨line, hline, hmark⟩
    obtain ⟨k, hk⟩ := List.getElem?_of_mem hline
    rw [getElem?_lines_listing] at hk
    obtain ⟨word, hword, rfl⟩ := Option.map_eq_some_iff.mp hk
    exact ⟨word, List.mem_of_getElem? hword, Listing.mark_infix_line_iff.mp hmark⟩
  · rintro ⟨word, hmem, hword⟩
    obtain ⟨k, hk⟩ := List.getElem?_of_mem hmem
    have hline := p.getElem?_lines_listing k
    rw [hk, Option.map_some] at hline
    exact ⟨_, List.mem_of_getElem? hline, Listing.mark_infix_line_iff.mpr hword⟩

/--
**Decoding, running and listing agree on unknown words.**

A program that decodes is never stopped by an unknown code. If a program does not decode, the
error names the code of its first unknown word; every run of it fails, either at that word, with
its index, code and word, or at a power in front of it. The listing marks the lines of the unknown
words and no others, so there is a marked line just when decoding fails.
-/
theorem decoding_running_listing_agree (p : Program) (m : Machine) :
    (∀ is, p.instructions = .ok is → ∀ index code word,
      (m.runProgram p).fault ≠ some (.unknownOpcode index code word))
    ∧ (∀ cause, p.instructions = .error cause → ∃ (k : Nat) (word : Word),
        IsLeast p.unknownPlaces k ∧ p.code[k]? = some word ∧ cause = .unknownCode word.code
        ∧ ((∃ (j : Nat) (earlier : Word) (flaw : PowerError), j < k ∧ p.code[j]? = some earlier
              ∧ earlier.code = Opcode.pow.code
              ∧ (m.runProgram p).fault = some (.pow (m.state.steps + j) flaw))
          ∨ (m.runProgram p).fault = some (.unknownOpcode (m.state.steps + k) word.code word)))
    ∧ p.MarksUnknown
    ∧ ((∃ line ∈ Text.lines p.listing.toList, Listing.invalidMark.toList <:+: line)
        ↔ ∃ cause, p.instructions = .error cause) := by
  refine ⟨?_, ?_, p.marksUnknown, ?_⟩
  · intro is his index code word hfault
    rcases p.instructions_cases with ⟨-, hknown⟩ | ⟨_, _, _, -, -, -, herror⟩
    · obtain ⟨k, -, cause, -, -, h⟩ := Machine.run_fault_of_known hknown hfault
      contradiction
    · rw [herror] at his
      contradiction
  · intro cause hcause
    rcases p.instructions_cases with
      ⟨⟨is, his⟩, -⟩ | ⟨before, word, after, hcode, hknown, hword, herror⟩
    · rw [his] at hcause
      contradiction
    · rw [herror] at hcause
      obtain ⟨hleast, hplace⟩ := Program.isLeast_unknownPlaces hcode hknown hword
      refine ⟨before.length, word, hleast, hplace, (Except.error.inj hcause).symm, ?_⟩
      unfold Machine.runProgram
      have hrun := m.run_fault_of_first_unknown after hknown hword
      rw [← hcode] at hrun
      refine hrun.imp_left ?_
      rintro ⟨j, earlier, flaw, hearlier, hpow, hfault⟩
      have hj : j < before.length := (List.getElem?_eq_some_iff.mp hearlier).1
      refine ⟨j, earlier, flaw, hj, ?_, hpow, hfault⟩
      rw [hcode, List.getElem?_append_left hj]
      exact hearlier
  · rw [p.exists_marked_iff, Program.exists_instructions_error_iff]

/-- A constant, an unknown word, a power and another unknown word, on a machine that has made
seven steps; and the same with a refused power in front. -/
theorem decoding_running_listing_agree_two_unknown :
    (∃ k word, IsLeast (Program.unknownPlaces ⟨[0x0542, 0x0100, 0x012F, 0x0001]⟩) k
        ∧ (Program.mk [0x0542, 0x0100, 0x012F, 0x0001]).code[k]? = some word
        ∧ (Program.mk [0x0542, 0x0100, 0x012F, 0x0001]).instructions = .error (.unknownCode 0)
        ∧ word.code = 0)
    ∧ (∃ line ∈ Text.lines (Program.mk [0x0542, 0x0100, 0x012F, 0x0001]).listing.toList,
        Listing.invalidMark.toList <:+: line)
    ∧ (Machine.runProgram ⟨⟨2, some 16⟩, ⟨9, ⟨#[9, 70000]⟩, 7⟩⟩
          ⟨[0x0542, 0x0100, 0x012F, 0x0001]⟩).fault
        = some (.unknownOpcode 8 0 0x0100)
    ∧ (Machine.runProgram ⟨⟨2, some 16⟩, ⟨9, ⟨#[9, 70000]⟩, 7⟩⟩ ⟨[0x012F, 0x0100]⟩).fault
        = some (.pow 7 (.limitExceeded 210001 16))
    ∧ ∃ is, (Program.mk [0x0542, 0x012F]).instructions = .ok is
        ∧ ∀ index code word,
          (Machine.runProgram ⟨⟨2, some 16⟩, ⟨9, ⟨#[9, 70000]⟩, 7⟩⟩ ⟨[0x0542, 0x012F]⟩).fault
            ≠ some (.unknownOpcode index code word) := by
  have hbad : (Program.mk [0x0542, 0x0100, 0x012F, 0x0001]).instructions
      = .error (.unknownCode 0) := by rfl
  have hgood : (Program.mk [0x0542, 0x012F]).instructions
      = .ok [⟨.loadConst, 5⟩, ⟨.pow, 1⟩] := by rfl
  obtain ⟨-, hfails, -, hmark⟩ := decoding_running_listing_agree ⟨[0x0542, 0x0100, 0x012F, 0x0001]⟩
    ⟨⟨2, some 16⟩, ⟨9, ⟨#[9, 70000]⟩, 7⟩⟩
  obtain ⟨hruns, -⟩ := decoding_running_listing_agree ⟨[0x0542, 0x012F]⟩
    ⟨⟨2, some 16⟩, ⟨9, ⟨#[9, 70000]⟩, 7⟩⟩
  obtain ⟨k, word, hleast, hplace, hcode, -⟩ := hfails _ hbad
  exact ⟨⟨k, word, hleast, hplace, hbad, (FormatError.unknownCode.inj hcode).symm⟩,
    hmark.mpr ⟨_, hbad⟩, by rfl, by rfl, _, hgood, hruns _ hgood⟩

end AccumulatorMachine
