import AccumulatorMachine.Proofs.Codec
import AccumulatorMachine.Proofs.Run

/-!
# Words that no run tells apart

A word says more than a machine hears. Operand bits above the opcode's width are dropped, and an
address counts only up to whole turns around the memory. Two words that differ in nothing else
are *aliases* for a memory of that size, and a machine takes the same step on both.

The turns are the part that needs an argument. A memory may have any number of cells, so the
widths, which are powers of two, have nothing to do with it, and `READ_MEM` adds an index of its
own before it reduces. What carries the proof is that memory is a function of residues
(`Memory.load_congr`, `Memory.store_congr`) and that adding an index keeps residues the same.
Runs on aliases word by word are then the same run, faults included.
-/

namespace AccumulatorMachine

/-! ## Memory by residues -/

namespace Memory

theorem wrap_congr {m : Memory} {a b : Nat} (h : a ≡ b [MOD m.size]) : m.wrap a = m.wrap b := h

theorem load_congr {m : Memory} {a b : Nat} (h : a ≡ b [MOD m.size]) : m.load a = m.load b := by
  unfold load
  rw [wrap_congr h]

theorem store_congr {m : Memory} {a b : Nat} (h : a ≡ b [MOD m.size]) (value : Nat) :
    m.store a value = m.store b value := by
  unfold store
  rw [wrap_congr h]

end Memory

/-! ## Aliases -/

/-- Operands that mean the same: a constant is a number, all others are addresses. -/
def Opcode.SameOperand (size : Nat) : Opcode → Nat → Nat → Prop
  | .loadConst, x, y => x = y
  | .readMem, x, y => x ≡ y [MOD size]
  | .writeMem, x, y => x ≡ y [MOD size]
  | .pow, x, y => x ≡ y [MOD size]

theorem Opcode.SameOperand.refl (size : Nat) (opcode : Opcode) (x : Nat) :
    opcode.SameOperand size x x := by
  cases opcode with
  | loadConst => exact Eq.refl x
  | readMem => exact Nat.ModEq.refl x
  | writeMem => exact Nat.ModEq.refl x
  | pow => exact Nat.ModEq.refl x

/-- Words that mean the same to a memory of a given size: equal ones, and those with the same known
opcode and operands that mean the same as far as they count. -/
def Word.Alias (size : Nat) (v w : Word) : Prop :=
  v = w ∨ ∃ opcode : Opcode, opcode.code = v.code ∧ opcode.code = w.code
    ∧ opcode.SameOperand size (v.operand % 2 ^ opcode.bits) (w.operand % 2 ^ opcode.bits)

/-- The word of the instruction in a word; a word without one stays as it is. -/
def Word.normalized (word : Word) : Word :=
  match Instruction.decode? word with
  | some i => i.encode
  | none => word

namespace Word

/-- Aliases are equal or hold instructions that mean the same. -/
theorem Alias.cases {size : Nat} {v w : Word} (h : Alias size v w) :
    v = w ∨ ∃ i j, Instruction.decode? v = some i ∧ Instruction.decode? w = some j
      ∧ i.opcode = j.opcode ∧ i.opcode.SameOperand size i.significant j.significant := by
  rcases h with h | ⟨opcode, hv, hw, hsame⟩
  · exact Or.inl h
  · obtain ⟨i, hi, hop⟩ := Instruction.exists_decode_of_code hv
    obtain ⟨j, hj, hop'⟩ := Instruction.exists_decode_of_code hw
    rw [← hop] at hop'
    rw [← hop] at hsame
    refine Or.inr ⟨i, j, hi, hj, hop'.symm, ?_⟩
    rw [Instruction.significant_of_decode hi, Instruction.significant_of_decode hj, hop']
    exact hsame

/-- Dropping the bits that do not count makes an alias, whatever the size. -/
theorem alias_normalized (size : Nat) (word : Word) : Alias size word.normalized word := by
  unfold normalized
  cases hi : Instruction.decode? word with
  | none => exact Or.inl rfl
  | some i =>
      -- the instruction is in range, so it comes back from its own word
      have hback : Instruction.decode? i.encode = some i := by
        rw [Instruction.decode?_encode, (Instruction.masked_eq_self_iff i).mpr
          (Instruction.inRange_of_decode hi)]
      obtain ⟨hcode, -⟩ := Instruction.decode?_eq_some_iff.mp hi
      refine Or.inr ⟨i.opcode, (Instruction.code_encode i).symm, hcode, ?_⟩
      rw [← Instruction.significant_of_decode hi, ← Instruction.significant_of_decode hback]
      exact Opcode.SameOperand.refl size i.opcode i.significant

end Word

/-! ## Two machines in one -/

/-- Instructions that mean the same have the same effect, or fail in the same way. -/
theorem State.execute_congr {limit : Option Nat} {i j : Instruction} {s : State}
    (hop : i.opcode = j.opcode)
    (h : i.opcode.SameOperand s.memory.size i.significant j.significant) :
    execute limit i s = execute limit j s := by
  cases hi : i.opcode with
  | loadConst =>
      rw [hi] at h
      have heq : i.significant = j.significant := h
      rw [execute_loadConst limit s hi, execute_loadConst limit s (hop.symm.trans hi), heq]
  | readMem =>
      rw [hi] at h
      -- both offsets are added to the index that the accumulator is reduced to
      have hsum : s.memory.wrap s.accumulator + i.significant
          ≡ s.memory.wrap s.accumulator + j.significant [MOD s.memory.size] :=
        Nat.ModEq.add_left _ h
      rw [execute_readMem limit s hi, execute_readMem limit s (hop.symm.trans hi),
        Memory.load_congr hsum]
  | writeMem =>
      rw [hi] at h
      rw [execute_writeMem limit s hi, execute_writeMem limit s (hop.symm.trans hi),
        Memory.store_congr h]
  | pow =>
      rw [hi] at h
      rw [execute_pow limit s hi, execute_pow limit s (hop.symm.trans hi), Memory.load_congr h]

namespace Machine

theorem step_of_alias {m : Machine} (hm : m.WellFormed) {v w : Word}
    (h : Word.Alias m.config.memorySize v w) : m.step v = m.step w := by
  rcases h.cases with rfl | ⟨i, j, hi, hj, hop, hsame⟩
  · rfl
  · rw [← hm.size] at hsame
    rw [step_of_decode hi, step_of_decode hj]
    unfold perform
    rw [State.execute_congr hop hsame]

/-- **Runs on aliases are the same run.** -/
theorem run_of_forall₂_alias {size : Nat} {vs ws : List Word}
    (h : List.Forall₂ (Word.Alias size) vs ws) (m : Machine) (hm : m.WellFormed)
    (hsize : m.config.memorySize = size) : m.run vs = m.run ws := by
  -- the machine is free in the induction, since the rest of the words runs on the next one
  induction h generalizing m with
  | nil => rfl
  | @cons v w vs ws hword _ ih =>
      rw [← hsize] at hword
      have hstep := step_of_alias hm hword
      rw [run, run]
      cases hs : m.step w with
      | error fault =>
          rw [hs] at hstep
          rw [runWith_cons_error hs, runWith_cons_error hstep]
      | ok m' =>
          rw [hs] at hstep
          rw [runWith_cons_ok hs, runWith_cons_ok hstep]
          have hsize' : m'.config.memorySize = size := by rw [config_of_step hs, hsize]
          exact ih m' (wellFormed_step hm hs) hsize'

/--
**Operand bits that do not count, and whole turns around the memory, never matter.**

From any reachable machine, two lists of words that are aliases word by word for its memory run
alike: the same machine is left, with the same result or the same fault. So a program runs as if
every word in it had been decoded and encoded again.
-/
theorem run_of_aliases {m : Machine} (hm : m.Reachable) :
    (∀ vs ws, List.Forall₂ (Word.Alias m.config.memorySize) vs ws →
      m.run vs = m.run ws ∧ (m.run vs).result = (m.run ws).result)
    ∧ ∀ p : Program, m.runProgram ⟨p.code.map Word.normalized⟩ = m.runProgram p := by
  have hwf := hm.wellFormed
  refine ⟨fun vs ws h => ?_, fun p => ?_⟩
  · have hrun := run_of_forall₂_alias h m hwf rfl
    exact ⟨hrun, congrArg Run.result hrun⟩
  · have halias :
        List.Forall₂ (Word.Alias m.config.memorySize) (p.code.map Word.normalized) p.code := by
      rw [List.forall₂_map_left_iff]
      exact List.forall₂_same.mpr fun word _ => Word.alias_normalized _ word
    exact run_of_forall₂_alias halias m hwf rfl

/-- Three cells: a constant with a bit too many, addresses three turns and one turn on, an offset
with all bits set that do not count, and an unknown code at the end. -/
theorem run_of_aliases_three_cells :
    (fresh ⟨3, some 16⟩).Reachable
    ∧ List.Forall₂ (Word.Alias 3) [1346, 443, 834, 303, 421, 256]
      [1073743170, 2747, 834, 1071, 4294443429, 256]
    ∧ (fresh ⟨3, some 16⟩).run [1346, 443, 834, 303, 421, 256]
      = (fresh ⟨3, some 16⟩).run [1073743170, 2747, 834, 1071, 4294443429, 256]
    ∧ ((fresh ⟨3, some 16⟩).run [1346, 443, 834, 303, 421, 256]).fault
      = some (.unknownOpcode 5 0 256)
    ∧ [1073743170, 2747, 834, 1071, 4294443429, 256].map Word.normalized
      = [1346, 2747, 834, 1071, 421, 256]
    ∧ (fresh ⟨3, some 16⟩).runProgram ⟨[1346, 2747, 834, 1071, 421, 256]⟩
      = (fresh ⟨3, some 16⟩).runProgram ⟨[1073743170, 2747, 834, 1071, 4294443429, 256]⟩ := by
  have hm : (fresh ⟨3, some 16⟩).Reachable := reachable_fresh ⟨by decide, by decide⟩
  have halias : List.Forall₂ (Word.Alias 3) [1346, 443, 834, 303, 421, 256]
      [1073743170, 2747, 834, 1071, 4294443429, 256] :=
    .cons (Or.inr ⟨.loadConst, rfl, rfl, rfl⟩)
      (.cons (Or.inr ⟨.writeMem, rfl, rfl, rfl⟩)
        (.cons (Or.inl rfl)
          (.cons (Or.inr ⟨.pow, rfl, rfl, rfl⟩)
            (.cons (Or.inr ⟨.readMem, rfl, rfl, rfl⟩)
              (.cons (Or.inl rfl) .nil)))))
  have hnormal : [1073743170, 2747, 834, 1071, 4294443429, 256].map Word.normalized
      = [1346, 2747, 834, 1071, 421, 256] := by rfl
  obtain ⟨hruns, hprograms⟩ := run_of_aliases hm
  obtain ⟨hrun, -⟩ := hruns _ _ halias
  have hprogram := hprograms ⟨[1073743170, 2747, 834, 1071, 4294443429, 256]⟩
  rw [hnormal] at hprogram
  exact ⟨hm, halias, hrun, by rfl, hnormal, hprogram⟩

end Machine

end AccumulatorMachine
