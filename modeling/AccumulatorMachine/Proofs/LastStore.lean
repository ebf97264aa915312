import AccumulatorMachine.Proofs.Failure
import AccumulatorMachine.Proofs.Words

/-!
# Who wrote a cell last

Memory changes by stores alone, and a store changes one cell, so what a cell holds after a run is
decided by the last store to it, or by nothing that happened in the run. The value is the
accumulator of that moment, which earlier words made, whatever they are; the store leaves it as it
is.

The result is about the words that were executed. They are the whole run or, when it fails, the
words before the refused one, so the induction is over runs that succeed, and it adds words at the
end: a word more is one step more (`cell_of_step`), and either that word is now the last store to
the cell or the last one so far still is.
-/

namespace AccumulatorMachine

/-! ## One word -/

/-- A word that stores into a given cell of a memory of a given size. -/
def Word.StoresAt (size cell : Nat) (word : Word) : Prop :=
  word.code = Opcode.writeMem.code ∧ word.operand % 2 ^ 23 ≡ cell [MOD size]

instance (size cell : Nat) (word : Word) : Decidable (word.StoresAt size cell) :=
  inferInstanceAs (Decidable (_ ∧ _))

namespace Instruction

/-- Only the instruction to write stores, and its operand says where. -/
theorem storesAt_iff_of_decode {word : Word} {i : Instruction} (h : decode? word = some i)
    {m : Memory} {cell : Nat} (hcell : cell < m.size) :
    word.StoresAt m.size cell ↔ i.opcode = .writeMem ∧ cell = m.wrap i.significant := by
  unfold Word.StoresAt
  rw [← opcode_eq_iff_of_decode h]
  refine and_congr_right fun hop => ?_
  have hoperand : i.significant = word.operand % 2 ^ 23 := by
    rw [significant_of_decode h, hop]
    rfl
  rw [hoperand, Nat.ModEq, Nat.mod_eq_of_lt hcell, eq_comm]
  rfl

end Instruction

namespace Machine

/-- **A step changes a cell just when it stores there**, and then to the accumulator. -/
theorem cell_of_step {m m' : Machine} {word : Word} (hm : m.WellFormed)
    (h : m.step word = .ok m') {cell : Nat} (hcell : cell < m.config.memorySize) :
    (word.StoresAt m.config.memorySize cell
      ∧ m'.state.memory.cell cell = m.state.accumulator)
    ∨ (¬ word.StoresAt m.config.memorySize cell
      ∧ m'.state.memory.cell cell = m.state.memory.cell cell) := by
  obtain ⟨i, hi, hperform⟩ := step_eq_ok h
  obtain ⟨t, ht, rfl⟩ := perform_eq_ok_iff.mp hperform
  rw [← hm.size] at hcell ⊢
  have hstores := Instruction.storesAt_iff_of_decode hi hcell
  rcases State.execute_cases ht with ⟨hop, rfl⟩ | ⟨hop, rfl⟩ | ⟨hop, rfl⟩ | ⟨hop, _, _, rfl⟩
  · exact Or.inr ⟨by simp [hstores, hop], rfl⟩
  · exact Or.inr ⟨by simp [hstores, hop], rfl⟩
  · have hcellStore := m.state.memory.cell_store i.significant m.state.accumulator cell hm.nonempty
    by_cases hhere : cell = m.state.memory.wrap i.significant
    · rw [if_pos hhere] at hcellStore
      exact Or.inl ⟨hstores.mpr ⟨hop, hhere⟩, hcellStore⟩
    · rw [if_neg hhere] at hcellStore
      exact Or.inr ⟨fun hword => hhere (hstores.mp hword).2, hcellStore⟩
  · exact Or.inr ⟨by simp [hstores, hop], rfl⟩

/-- A word that stores leaves the accumulator as it is. -/
theorem accumulator_of_write {m m' : Machine} {word : Word} (h : m.step word = .ok m')
    (hcode : word.code = Opcode.writeMem.code) :
    m'.state.accumulator = m.state.accumulator := by
  obtain ⟨i, hi, hperform⟩ := step_eq_ok h
  obtain ⟨t, ht, rfl⟩ := perform_eq_ok_iff.mp hperform
  have hop := (Instruction.opcode_eq_iff_of_decode hi .writeMem).mpr hcode
  rw [State.execute_writeMem _ _ hop] at ht
  obtain rfl := Except.ok.inj ht
  rfl

/-! ## A run -/

/-- A place in a list of words whose word stores into a cell, and no word behind it does. -/
structure LastStore (size cell : Nat) (words : List Word) (place : Nat) : Prop where
  stores : ∃ word, words[place]? = some word ∧ word.StoresAt size cell
  last : ∀ (later : Nat) (word : Word), place < later → words[later]? = some word →
    ¬ word.StoresAt size cell

theorem LastStore.lt {size cell place : Nat} {words : List Word}
    (h : LastStore size cell words place) : place < words.length := by
  obtain ⟨word, hword, -⟩ := h.stores
  exact (List.getElem?_eq_some_iff.mp hword).1

theorem lastStore_concat {size cell : Nat} {word : Word} (words : List Word)
    (hword : word.StoresAt size cell) : LastStore size cell (words ++ [word]) words.length where
  stores := ⟨word, List.getElem?_concat_length, hword⟩
  last := by
    intro later other hlater hother
    have hinside := (List.getElem?_eq_some_iff.mp hother).1
    rw [List.length_append, List.length_singleton] at hinside
    omega

theorem LastStore.concat {size cell place : Nat} {words : List Word} {word : Word}
    (h : LastStore size cell words place) (hword : ¬ word.StoresAt size cell) :
    LastStore size cell (words ++ [word]) place where
  stores := by
    obtain ⟨stored, hstored, hstores⟩ := h.stores
    exact ⟨stored, by rw [List.getElem?_append_left h.lt, hstored], hstores⟩
  last := by
    intro later other hlater hother
    rcases Nat.lt_or_ge later words.length with hlt | hge
    · rw [List.getElem?_append_left hlt] at hother
      exact h.last later other hlater hother
    · rw [List.getElem?_append_right hge] at hother
      obtain rfl := List.mem_singleton.mp (List.mem_of_getElem? hother)
      exact hword

/-- One word more is one step more. -/
theorem run_concat_ok {m : Machine} {words : List Word} {word : Word}
    (h : (m.run (words ++ [word])).fault = none) :
    (m.run words).fault = none
      ∧ (m.run words).machine.step word = .ok (m.run (words ++ [word])).machine := by
  have hwords := run_ok_of_append h
  have hleft : m.run words = ⟨(m.run words).machine, none⟩ := congrArg (Run.mk _) hwords
  rw [run_append_of_ok hleft] at h ⊢
  refine ⟨hwords, ?_⟩
  cases hstep : (m.run words).machine.step word with
  | ok next => rw [run, runWith_cons_ok hstep]; rfl
  | error fault => rw [run, runWith_cons_error hstep] at h; contradiction

/-- What a cell holds after words that ran: the accumulator at the last store to it, or what it
held before. -/
theorem cell_of_run {m : Machine} (hm : m.WellFormed) {cell : Nat}
    (hcell : cell < m.config.memorySize) (words : List Word)
    (h : (m.run words).fault = none) :
    (∃ place, LastStore m.config.memorySize cell words place
      ∧ (m.run words).machine.state.memory.cell cell
          = (m.run (words.take place)).machine.state.accumulator)
    ∨ (∀ word ∈ words, ¬ word.StoresAt m.config.memorySize cell)
      ∧ (m.run words).machine.state.memory.cell cell = m.state.memory.cell cell := by
  induction words using List.reverseRecOn with
  | nil => exact Or.inr ⟨by simp, rfl⟩
  | append_singleton words word ih =>
      obtain ⟨hwords, hstep⟩ := run_concat_ok h
      have hconfig := config_of_run m words
      have hafter := cell_of_step (wellFormed_run hm words) hstep (hconfig ▸ hcell)
      rw [hconfig] at hafter
      rcases hafter with ⟨hword, hafter⟩ | ⟨hword, hafter⟩
      · refine Or.inl ⟨words.length, lastStore_concat words hword, ?_⟩
        rw [List.take_left]
        exact hafter
      · rcases ih hwords with ⟨place, hlast, hheld⟩ | ⟨hnone, hheld⟩
        · refine Or.inl ⟨place, hlast.concat hword, ?_⟩
          rw [List.take_append_of_le_length (Nat.le_of_lt hlast.lt)]
          exact hafter.trans hheld
        · refine Or.inr ⟨?_, hafter.trans hheld⟩
          exact List.forall_mem_append.mpr ⟨hnone, List.forall_mem_singleton.mpr hword⟩

/-- How many words of a run were executed: all of them, or those before the one that it was
stopped at. -/
structure Executed (m : Machine) (words : List Word) (count : Nat) : Prop where
  le : count ≤ words.length
  /-- The run goes as far as those words alone. -/
  ran : m.run (words.take count) = ⟨(m.run words).machine, none⟩
  /-- Each of them counts as one step. -/
  steps : (m.run words).machine.state.steps = m.state.steps + count
  finished : (m.run words).fault = none → count = words.length
  /-- The word behind them is the one that is refused. -/
  stopped : ∀ fault, (m.run words).fault = some fault →
    ∃ word, words[count]? = some word ∧ (m.run words).machine.step word = .error fault

theorem exists_executed (m : Machine) (words : List Word) : ∃ count, m.Executed words count := by
  cases h : (m.run words).fault with
  | none =>
      exact ⟨words.length,
        { le := Nat.le_refl _
          ran := by rw [List.take_length, ← h]
          steps := steps_of_run h
          finished := fun _ => rfl
          stopped := by
            intro fault hfault
            rw [h] at hfault
            contradiction }⟩
  | some fault =>
      obtain ⟨k, word, left, hword, hbefore, hwhole, hrefused⟩ := exists_refused_word h
      exact ⟨k,
        { le := Nat.le_of_lt (List.getElem?_eq_some_iff.mp hword).1
          ran := by rw [hwhole]; exact hbefore
          steps := by rw [hwhole]; exact (failsAt_of_refused hword hbefore hrefused).steps
          finished := by
            intro hnone
            rw [h] at hnone
            contradiction
          stopped := by
            intro other hother
            rw [hwhole] at hother ⊢
            obtain rfl := Option.some.inj hother
            exact ⟨word, hword, hrefused⟩ }⟩

/--
**Memory changes by stores alone, and the last store wins.**

Of every run some number of words is executed, all of them or those before the word that is
refused. After that each cell holds the accumulator of the moment before the last executed word
that stores there, or what it held before the run if no executed word does. And no executed word
that stores changes the accumulator.
-/
theorem cell_holds_last_store {m : Machine} (h : m.Reachable) (words : List Word) :
    ∃ count, m.Executed words count
      ∧ (∀ cell < m.config.memorySize,
          (∃ place, LastStore m.config.memorySize cell (words.take count) place
            ∧ (m.run words).machine.state.memory.cell cell
                = (m.run (words.take place)).machine.state.accumulator)
          ∨ (∀ word ∈ words.take count, ¬ word.StoresAt m.config.memorySize cell)
            ∧ (m.run words).machine.state.memory.cell cell = m.state.memory.cell cell)
      ∧ ∀ (place : Nat) (word : Word), place < count → words[place]? = some word →
          word.code = Opcode.writeMem.code →
          (m.run (words.take (place + 1))).machine.state.accumulator
            = (m.run (words.take place)).machine.state.accumulator := by
  obtain ⟨count, hcount⟩ := exists_executed m words
  have hran : (m.run (words.take count)).fault = none := by rw [hcount.ran]
  refine ⟨count, hcount, ?_, ?_⟩
  · intro cell hcell
    rcases cell_of_run h.wellFormed hcell (words.take count) hran with
      ⟨place, hlast, hheld⟩ | ⟨hnone, hheld⟩
    · rw [hcount.ran, List.take_take, Nat.min_eq_left] at hheld
      · exact Or.inl ⟨place, hlast, hheld⟩
      · have hplace := hlast.lt
        rw [List.length_take] at hplace
        omega
    · rw [hcount.ran] at hheld
      exact Or.inr ⟨hnone, hheld⟩
  · intro place word hplace hword hcode
    have htake : words.take (place + 1) = words.take place ++ [word] := by
      rw [List.take_add_one, hword]
      rfl
    have hprefix : (m.run (words.take (place + 1))).fault = none := by
      obtain ⟨more, hmore⟩ := Nat.exists_eq_add_of_le (show place + 1 ≤ count from hplace)
      rw [hmore, List.take_add] at hran
      exact run_ok_of_append hran
    rw [htake] at hprefix ⊢
    exact accumulator_of_write (run_concat_ok hprefix).2 hcode

/-- Two stores to the second of three cells, one of them from further round and with an operand
bit that does not count; then a refused power, and a store that is not reached. -/
theorem cell_holds_last_store_twice :
    (fresh ⟨3, some 16⟩).Reachable
    ∧ ((fresh ⟨3, some 16⟩).run
        [0x0742, 0x01BB, 0x01117042, 0x800004BB, 0x012F, 0x00BB]).fault
      = some (.pow 4 (.limitExceeded 1120001 16))
    ∧ ∃ place, LastStore 3 1 [0x0742, 0x01BB, 0x01117042, 0x800004BB] place
      ∧ ((fresh ⟨3, some 16⟩).run
          [0x0742, 0x01BB, 0x01117042, 0x800004BB, 0x012F, 0x00BB]).machine.state.memory.cell 1
        = ((fresh ⟨3, some 16⟩).run
            ([0x0742, 0x01BB, 0x01117042, 0x800004BB, 0x012F, 0x00BB].take
              place)).machine.state.accumulator := by
  have hreachable : (fresh ⟨3, some 16⟩).Reachable := reachable_fresh ⟨by decide, by decide⟩
  refine ⟨hreachable, by rfl, ?_⟩
  obtain ⟨count, hcount, hcells, -⟩ := cell_holds_last_store hreachable
    [0x0742, 0x01BB, 0x01117042, 0x800004BB, 0x012F, 0x00BB]
  have hfour : count = 4 := by
    have hsteps := hcount.steps.symm
    exact Nat.add_left_cancel (hsteps.trans (by rfl : _ = 0 + 4))
  subst hfour
  rcases hcells 1 (by decide) with hheld | ⟨hnone, -⟩
  · exact hheld
  · exact absurd (by decide) (hnone 0x01BB (by decide))

end Machine

end AccumulatorMachine
