import AccumulatorMachine.Proofs.Run
import AccumulatorMachine.Proofs.Words

/-!
# Where values come from

A machine makes new numbers in two ways: a word brings one along, or a power computes one.
Everything else moves numbers around, from a cell to the accumulator and from the accumulator to
a cell (`State.holds_of_execute`). So a run without powers ends with nothing but values that were
there when it began and constants that its words brought. It also ends well, since a power is the
only instruction that can be refused.

A cell is any index below the size, and addresses are reduced to those, so it does not matter
which cells a run reads and writes.
-/

namespace AccumulatorMachine

/-! ## One instruction -/

namespace State

/-- A value that a state holds, in its accumulator or in one of its cells. -/
def Holds (s : State) (value : Nat) : Prop :=
  s.accumulator = value ∨ ∃ index < s.memory.size, s.memory.cell index = value

instance (s : State) (value : Nat) : Decidable (s.Holds value) :=
  inferInstanceAs (Decidable (_ ∨ ∃ index < s.memory.size, s.memory.cell index = value))

theorem holds_load {s : State} (hsize : 0 < s.memory.size) (address : Nat) :
    s.Holds (s.memory.load address) :=
  Or.inr ⟨s.memory.wrap address, s.memory.wrap_lt address hsize, (s.memory.load_eq_cell _).symm⟩

/-- What a state holds with another accumulator: that, or a value that was held before. -/
theorem holds_advance {s : State} {accumulator value : Nat}
    (h : (s.advance accumulator s.memory).Holds value) : accumulator = value ∨ s.Holds value :=
  h.imp_right Or.inr

/-- **A value is an old one, the constant of the instruction, or a power of old ones.** -/
theorem holds_of_execute {limit : Option Nat} {i : Instruction} {s t : State} {value : Nat}
    (hsize : 0 < s.memory.size) (h : execute limit i s = .ok t) (hvalue : t.Holds value) :
    s.Holds value
    ∨ (i.opcode = .loadConst ∧ i.significant = value)
    ∨ (i.opcode = .pow ∧ ∃ base exponent, s.Holds base ∧ s.Holds exponent
        ∧ base ^ exponent = value) := by
  rcases execute_cases h with ⟨hop, rfl⟩ | ⟨-, rfl⟩ | ⟨-, rfl⟩ | ⟨hop, result, hpower, rfl⟩
  · rcases holds_advance hvalue with hconstant | hold
    · exact Or.inr (Or.inl ⟨hop, hconstant⟩)
    · exact Or.inl hold
  · rcases holds_advance hvalue with rfl | hold
    · exact Or.inl (holds_load hsize _)
    · exact Or.inl hold
  · rcases hvalue with haccumulator | ⟨index, hindex, hcell⟩
    · exact Or.inl (Or.inl haccumulator)
    · -- the cell that was written holds the accumulator, and all others what they held
      dsimp only [advance] at hindex hcell
      rw [Memory.size_store] at hindex
      rw [Memory.cell_store _ _ _ _ hsize] at hcell
      split at hcell
      · exact Or.inl (Or.inl hcell)
      · exact Or.inl (Or.inr ⟨index, hindex, hcell⟩)
  · rcases holds_advance hvalue with hresult | hold
    · refine Or.inr (Or.inr ⟨hop, s.accumulator, _, Or.inl rfl, holds_load hsize i.significant, ?_⟩)
      rw [← hresult, (power_eq_ok_iff.mp hpower).1]
    · exact Or.inl hold

end State

/-! ## Words without powers -/

/-- A word of one of the three opcodes that move numbers, whatever its operand. -/
def Word.Moves (word : Word) : Prop :=
  word.code = Opcode.loadConst.code ∨ word.code = Opcode.readMem.code
    ∨ word.code = Opcode.writeMem.code

/-- A word that brings a value along, in the low 22 bits of its operand. -/
def Word.Loads (word : Word) (value : Nat) : Prop :=
  word.code = Opcode.loadConst.code ∧ word.operand % 2 ^ 22 = value

theorem Word.Moves.exists_decode {word : Word} (h : word.Moves) :
    ∃ i, Instruction.decode? word = some i ∧ i.opcode ≠ .pow := by
  have hopcode : ∃ opcode : Opcode, opcode.code = word.code ∧ opcode ≠ .pow := by
    rcases h with hcode | hcode | hcode
    · exact ⟨.loadConst, hcode.symm, nofun⟩
    · exact ⟨.readMem, hcode.symm, nofun⟩
    · exact ⟨.writeMem, hcode.symm, nofun⟩
  obtain ⟨opcode, hcode, hne⟩ := hopcode
  obtain ⟨i, hi, rfl⟩ := Instruction.exists_decode_of_code hcode
  exact ⟨i, hi, hne⟩

namespace Machine

/-- No such word is refused. -/
theorem exists_step_of_moves (m : Machine) {word : Word} (h : word.Moves) :
    ∃ m', m.step word = .ok m' := by
  obtain ⟨i, hi, hne⟩ := h.exists_decode
  rw [step_of_decode hi]
  cases hperform : m.perform i with
  | ok m' => exact ⟨m', rfl⟩
  | error fault => exact absurd (perform_eq_error_iff.mp hperform).1 hne

theorem holds_of_step {m m' : Machine} (hm : m.WellFormed) {word : Word} (h : word.Moves)
    (hstep : m.step word = .ok m') {value : Nat} (hvalue : m'.state.Holds value) :
    m.state.Holds value ∨ word.Loads value := by
  obtain ⟨i, hi, hne⟩ := h.exists_decode
  rw [step_of_decode hi] at hstep
  obtain ⟨t, ht, rfl⟩ := perform_eq_ok_iff.mp hstep
  rcases State.holds_of_execute hm.nonempty ht hvalue with hold | ⟨hop, hconstant⟩ | ⟨hop, -⟩
  · exact Or.inl hold
  · refine Or.inr ⟨(Instruction.opcode_eq_iff_of_decode hi .loadConst).mp hop, ?_⟩
    rw [Instruction.significant_of_decode hi, hop] at hconstant
    exact hconstant
  · exact absurd hop hne

/-! ## Runs without powers -/

theorem run_of_moves : ∀ (words : List Word) (m : Machine), (∀ word ∈ words, word.Moves) →
    (m.run words).fault = none := by
  intro words
  induction words with
  | nil => intro m _; rfl
  | cons word words ih =>
      intro m h
      obtain ⟨hword, hwords⟩ := List.forall_mem_cons.mp h
      obtain ⟨m', hstep⟩ := exists_step_of_moves m hword
      rw [run, runWith_cons_ok hstep]
      exact ih m' hwords

theorem holds_of_run {value : Nat} : ∀ (words : List Word) (m : Machine), m.WellFormed →
    (∀ word ∈ words, word.Moves) → (m.run words).machine.state.Holds value →
    m.state.Holds value ∨ ∃ word ∈ words, word.Loads value := by
  intro words
  induction words with
  | nil => intro m _ _ hvalue; exact Or.inl hvalue
  | cons word words ih =>
      intro m hm h hvalue
      obtain ⟨hword, hwords⟩ := List.forall_mem_cons.mp h
      obtain ⟨m', hstep⟩ := exists_step_of_moves m hword
      rw [run, runWith_cons_ok hstep] at hvalue
      rcases ih m' (wellFormed_step hm hstep) hwords hvalue with hnext | ⟨later, hlater, hloads⟩
      · rcases holds_of_step hm hword hstep hnext with hold | hloads
        · exact Or.inl hold
        · exact Or.inr ⟨word, List.mem_cons_self, hloads⟩
      · exact Or.inr ⟨later, List.mem_cons_of_mem _ hlater, hloads⟩

/--
**Without powers nothing fails, and no value is invented.**

From any reachable machine, words that load constants, read and write, with any operands, run to
their end and count as one step each. There are as many cells as before, and whatever the
accumulator or a cell holds in the end was in the accumulator or a cell at the beginning, or is the
constant of one of the words.
-/
theorem moves_invent_nothing {m : Machine} (hm : m.Reachable) {words : List Word}
    (h : ∀ word ∈ words, word.Moves) :
    (m.run words).result
      = .ok ⟨m.state.steps + words.length, (m.run words).machine.state.accumulator⟩
    ∧ (m.run words).machine.state.steps = m.state.steps + words.length
    ∧ (m.run words).machine.state.memory.size = m.config.memorySize
    ∧ ∀ value, (m.run words).machine.state.Holds value →
        m.state.Holds value ∨ ∃ word ∈ words, word.Loads value := by
  have hran := run_of_moves words m h
  have hsteps := steps_of_run hran
  have hsize := (wellFormed_run hm.wellFormed words).size
  rw [config_of_run] at hsize
  refine ⟨result_eq_ok_iff.mpr ⟨hran, ?_⟩, hsteps, hsize,
    fun value => holds_of_run words m hm.wellFormed h⟩
  unfold summary
  rw [hsteps]

/-- Two cells that hold `2 ^ 29` and 29: a word with all operand bits set loads the greatest
constant, the next one stores it over the 29, and the last one reads it back. -/
theorem moves_invent_nothing_two_cells :
    ((fresh ⟨2, some 30⟩).feed (.words [7490, 443, 578, 303, 187])).machine.Reachable
    ∧ (∀ word ∈ ([4294967106, 443, 677] : List Word), word.Moves)
    ∧ (((fresh ⟨2, some 30⟩).feed (.words [7490, 443, 578, 303, 187])).machine.run
        [4294967106, 443, 677]).result = .ok ⟨8, 4194303⟩
    ∧ ¬ (⟨2 ^ 29, ⟨#[2 ^ 29, 29]⟩, 5⟩ : State).Holds 4194303
    ∧ ∃ word ∈ ([4294967106, 443, 677] : List Word), word.Loads 4194303 := by
  have hm : ((fresh ⟨2, some 30⟩).feed (.words [7490, 443, 578, 303, 187])).machine.Reachable :=
    .fed (reachable_fresh ⟨by decide, by decide⟩) _
  have hstate : ((fresh ⟨2, some 30⟩).feed (.words [7490, 443, 578, 303, 187])).machine.state
      = ⟨2 ^ 29, ⟨#[2 ^ 29, 29]⟩, 5⟩ := by rfl
  have hwords : ∀ word ∈ ([4294967106, 443, 677] : List Word), word.Moves := by
    rw [List.forall_mem_cons, List.forall_mem_cons, List.forall_mem_singleton]
    exact ⟨Or.inl rfl, Or.inr (Or.inr rfl), Or.inr (Or.inl rfl)⟩
  have hleft : (((fresh ⟨2, some 30⟩).feed (.words [7490, 443, 578, 303, 187])).machine.run
      [4294967106, 443, 677]).machine.state.accumulator = 4194303 := by rfl
  have hnew : ¬ (⟨2 ^ 29, ⟨#[2 ^ 29, 29]⟩, 5⟩ : State).Holds 4194303 := by decide
  obtain ⟨hresult, -, -, hvalues⟩ := moves_invent_nothing hm hwords
  rw [hleft, hstate] at hresult
  have hvalue := hvalues 4194303 (Or.inl hleft)
  rw [hstate] at hvalue
  exact ⟨hm, hwords, hresult, hnew, hvalue.resolve_left hnew⟩

end Machine

end AccumulatorMachine
