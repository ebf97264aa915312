import AccumulatorMachine.Machine.Ideal
import AccumulatorMachine.Proofs.Run
import AccumulatorMachine.Proofs.Words

/-!
# The machine refines the ideal machine

The ideal machine knows no masks, no two-stage reduction, no step counter and no guard. A
machine is seen as an ideal one by forgetting its counter and its configuration
(`Machine.ideal`), and one word then has the same effect on both. The only thing that can
come between them is a power that the guard refuses, and the guard refuses exactly the
powers that are `Ideal.Refused`: with a limit of at least one bit, a result of one bit or
none is never refused, which is what lets the trivial bases and the exponent zero through.

Both directions are proved together, word by word: a successful step is the ideal one, and
where the ideal machine has a step with an affordable power, the machine succeeds.
-/

namespace AccumulatorMachine

/-! ## One word of the ideal machine -/

namespace Ideal

/-- The effect of an opcode with the part of its operand that counts. -/
def effect (size : Nat) (s : Ideal) (opcode : Opcode) (x : Nat) : Ideal :=
  match opcode with
  | .loadConst => { s with accumulator := x }
  | .readMem => { s with accumulator := s.cells ((s.accumulator + x) % size) }
  | .writeMem => { s with cells := fun i => if i = x % size then s.accumulator else s.cells i }
  | .pow => { s with accumulator := s.accumulator ^ s.cells (x % size) }

theorem step_of_decode {word : Word} {i : Instruction} (h : Instruction.decode? word = some i)
    (size : Nat) (s : Ideal) :
    s.step size word = some (s.effect size i.opcode i.significant) := by
  have hcode := Instruction.toNat_code_of_decode h
  rw [Instruction.significant_of_decode h]
  unfold step effect
  cases hop : i.opcode with
  | loadConst => rw [hop] at hcode; simp only [hcode]; rfl
  | readMem => rw [hop] at hcode; simp only [hcode]; rfl
  | writeMem => rw [hop] at hcode; simp only [hcode]; rfl
  | pow => rw [hop] at hcode; simp only [hcode]; rfl

theorem step_of_unknown {word : Word} (h : Instruction.decode? word = none) (size : Nat)
    (s : Ideal) : s.step size word = none := by
  have hne : ∀ op : Opcode, word.toNat % 256 ≠ op.code.toNat := by
    intro op hop
    have hcode : op.code = word.code := by
      rw [← UInt8.toNat_inj, Word.toNat_code]; exact hop.symm
    have hfound := Opcode.ofCode?_eq_some_iff.mpr hcode
    rw [(Instruction.decode?_eq_none_iff word).mp h] at hfound
    contradiction
  -- the four codes of the ideal machine are the rows of the opcode table
  have h66 : word.toNat % 256 ≠ 66 := hne .loadConst
  have h165 : word.toNat % 256 ≠ 165 := hne .readMem
  have h187 : word.toNat % 256 ≠ 187 := hne .writeMem
  have h47 : word.toNat % 256 ≠ 47 := hne .pow
  unfold step
  dsimp only
  rw [if_neg h66, if_neg h165, if_neg h187, if_neg h47]

/-- Whether a word is affordable depends on the instruction in it. -/
theorem affordable_cons_of_decode {word : Word} {i : Instruction}
    (h : Instruction.decode? word = some i) {size : Nat} {limit : Option Nat} {s : Ideal}
    {words : List Word} :
    s.Affordable size limit (word :: words) ↔
      (i.opcode = .pow → ¬ Refused limit s.accumulator (s.cells (i.significant % size)))
        ∧ (s.effect size i.opcode i.significant).Affordable size limit words := by
  have hpow : word.toNat % 256 = 47 ↔ i.opcode = .pow := by
    rw [Instruction.toNat_code_of_decode h]
    cases i.opcode <;> decide
  rw [Affordable, step_of_decode h, hpow]
  refine and_congr ?_ ?_
  · refine imp_congr_right (fun hop => ?_)
    rw [Instruction.significant_of_decode h, hop]
    rfl
  · exact ⟨fun hall => hall _ rfl, fun hone next hnext => Option.some.inj hnext ▸ hone⟩

end Ideal

/-! ## The guard against `Ideal.Refused` -/

/-- With a limit of at least one bit, the guard refuses what the ideal machine calls refused. -/
theorem power_ok_iff_not_refused {base exponent result : Nat} {limit : Option Nat}
    (hlimit : limit ≠ some 0) :
    power base exponent limit = .ok result ↔
      result = base ^ exponent ∧ ¬ Ideal.Refused limit base exponent := by
  rw [power_eq_ok_iff]
  refine and_congr_right (fun _ => ?_)
  unfold Ideal.Refused
  constructor
  · rintro h (⟨hb, hlong⟩ | ⟨most, hmost, hbits⟩)
    · have := (h hb (by rintro rfl; omega)).1
      omega
    · -- a result that reaches `2 ^ most` with `most ≥ 1` is at least two
      have hpos : 0 < most := Nat.pos_of_ne_zero (fun h0 => hlimit (h0 ▸ hmost))
      have htwo : 2 ≤ base ^ exponent :=
        Nat.le_trans (Nat.le_self_pow (Nat.ne_of_gt hpos) 2) hbits
      have he : exponent ≠ 0 := by
        rintro rfl
        rw [Nat.pow_zero] at htwo
        omega
      have hb : 2 ≤ base := by
        rcases Nat.lt_or_ge 1 base with hb | hb
        · exact hb
        · have := Nat.pow_le_pow_left hb exponent
          rw [Nat.one_pow] at this
          omega
      have hle := (h hb he).2 most hmost
      have hlt := (lt_bitLength_iff _ _).mpr hbits
      omega
  · intro h hb _
    refine ⟨?_, fun most hmost => ?_⟩
    · exact Nat.lt_of_not_le (fun hlong => h (Or.inl ⟨hb, hlong⟩))
    · refine Nat.le_of_not_lt (fun hlt => h (Or.inr ⟨most, hmost, ?_⟩))
      exact (lt_bitLength_iff _ _).mp hlt

namespace Machine

/-! ## One word of the machine -/

/-- A machine without its step counter and its configuration. -/
def ideal (m : Machine) : Ideal := ⟨m.state.accumulator, m.state.memory.cell⟩

/-- **A successful instruction has the ideal effect.** -/
theorem ideal_of_perform {m m' : Machine} {i : Instruction} (hm : m.WellFormed)
    (h : m.perform i = .ok m') :
    m'.ideal = m.ideal.effect m.config.memorySize i.opcode i.significant := by
  obtain ⟨t, ht, rfl⟩ := perform_eq_ok_iff.mp h
  have hwrap : ∀ a, m.state.memory.wrap a = a % m.config.memorySize := by
    intro a
    unfold Memory.wrap
    rw [hm.size]
  unfold ideal Ideal.effect
  rcases State.execute_cases ht with ⟨hop, rfl⟩ | ⟨hop, rfl⟩ | ⟨hop, rfl⟩ | ⟨hop, result, hpow, rfl⟩
  · rw [hop]; rfl
  · rw [hop]
    dsimp only [State.advance]
    -- reducing the accumulator first does not change where the sum falls
    rw [Memory.load_eq_cell, hwrap, hwrap, Nat.mod_add_mod]
  · rw [hop]
    dsimp only [State.advance]
    congr 1
    funext j
    rw [Memory.cell_store _ _ _ _ hm.nonempty, hwrap]
  · rw [hop]
    dsimp only [State.advance]
    rw [(power_eq_ok_iff.mp hpow).1, Memory.load_eq_cell, hwrap]

/-- **An instruction succeeds unless it is a refused power.** -/
theorem exists_perform_iff {m : Machine} {i : Instruction} (hm : m.WellFormed) :
    (∃ m', m.perform i = .ok m') ↔
      (i.opcode = .pow → ¬ Ideal.Refused m.config.powLimit m.ideal.accumulator
        (m.ideal.cells (i.significant % m.config.memorySize))) := by
  have hcell : m.ideal.cells (i.significant % m.config.memorySize)
      = m.state.memory.load i.significant := by
    rw [Memory.load_eq_cell, Memory.wrap, hm.size]
    rfl
  rw [hcell]
  constructor
  · rintro ⟨m', h⟩ hop
    obtain ⟨t, ht, -⟩ := perform_eq_ok_iff.mp h
    rcases State.execute_cases ht with ⟨h1, -⟩ | ⟨h1, -⟩ | ⟨h1, -⟩ | ⟨-, result, hpow, -⟩
    · rw [h1] at hop; contradiction
    · rw [h1] at hop; contradiction
    · rw [h1] at hop; contradiction
    · exact ((power_ok_iff_not_refused hm.valid.powLimit_ne).mp hpow).2
  · intro h
    cases hi : m.perform i with
    | ok m' => exact ⟨m', rfl⟩
    | error fault =>
        obtain ⟨hop, cause, hpow, -⟩ := perform_eq_error_iff.mp hi
        have hok := (power_ok_iff_not_refused hm.valid.powLimit_ne).mpr ⟨rfl, h hop⟩
        exact absurd (hok.symm.trans hpow) (by simp)

/-! ## Runs -/

/-- A run succeeds just when the ideal run gets to the end and every power is affordable. -/
theorem run_ok_iff_ideal : ∀ (words : List Word) (m : Machine), m.WellFormed →
    ((m.run words).fault = none ↔
      (∃ t, m.ideal.run m.config.memorySize words = some t)
        ∧ m.ideal.Affordable m.config.memorySize m.config.powLimit words) := by
  -- the machine is free in the induction, since the rest of the words runs on the next one
  intro words
  induction words with
  | nil => intro m _; exact ⟨fun _ => ⟨⟨_, rfl⟩, trivial⟩, fun _ => rfl⟩
  | cons word words ih =>
      intro m hm
      cases hi : Instruction.decode? word with
      | none =>
          rw [run, runWith_cons_error (step_of_unknown hi), Ideal.run, Ideal.step_of_unknown hi]
          simp
      | some i =>
          rw [Ideal.affordable_cons_of_decode hi, Ideal.run, Ideal.step_of_decode hi,
            Option.bind_some, ← exists_perform_iff hm]
          cases hp : m.perform i with
          | error fault =>
              rw [run, runWith_cons_error ((step_of_decode hi).trans hp)]
              simp
          | ok m' =>
              -- the next machine is well-formed, and as an ideal one it is the effect of the word
              have hs := (step_of_decode hi).trans hp
              have hnext := ih m' (wellFormed_perform hm hp)
              rw [ideal_of_perform hm hp, config_of_step hs] at hnext
              rw [run, runWith_cons_ok hs]
              exact hnext.trans (and_congr_right (fun _ => by simp))

/-- A run that succeeds ends where the ideal run ends. -/
theorem ideal_run_of_ok : ∀ (words : List Word) (m : Machine), m.WellFormed →
    (m.run words).fault = none →
      m.ideal.run m.config.memorySize words = some (m.run words).machine.ideal := by
  intro words
  induction words with
  | nil => intro m _ _; rfl
  | cons word words ih =>
      intro m hm h
      cases hs : m.step word with
      | error fault => rw [run, runWith_cons_error hs] at h; contradiction
      | ok m' =>
          obtain ⟨i, hi, hp⟩ := step_eq_ok hs
          have hnext := ih m' (wellFormed_perform hm hp)
          rw [ideal_of_perform hm hp, config_of_step hs] at hnext
          rw [run, runWith_cons_ok hs] at h ⊢
          rw [Ideal.run, Ideal.step_of_decode hi, Option.bind_some]
          exact hnext h

/--
**The machine refines the ideal machine, soundly and completely.**

From any reachable machine, a run of any words gives a result just when the ideal run from
the same accumulator and cells meets no unknown code and no refused power; and then both end
with the same accumulator and cells, the result holds that accumulator, and one step has been
counted for each word.
-/
theorem run_refines_ideal {m : Machine} (hm : m.Reachable) (words : List Word) :
    ((∃ summary, (m.run words).result = .ok summary) ↔
      (∃ t, m.ideal.run m.config.memorySize words = some t)
        ∧ m.ideal.Affordable m.config.memorySize m.config.powLimit words)
    ∧ ∀ summary, (m.run words).result = .ok summary →
        m.ideal.run m.config.memorySize words = some (m.run words).machine.ideal
        ∧ (m.run words).machine.state.memory.size = m.config.memorySize
        ∧ (m.run words).machine.state.steps = m.state.steps + words.length
        ∧ summary = ⟨m.state.steps + words.length, (m.run words).machine.state.accumulator⟩ := by
  have hwf := hm.wellFormed
  constructor
  · rw [← run_ok_iff_ideal words m hwf]
    exact ⟨fun ⟨_, h⟩ => (result_eq_ok_iff.mp h).1, fun h => ⟨_, result_eq_ok_iff.mpr ⟨h, rfl⟩⟩⟩
  · intro summary h
    obtain ⟨hok, rfl⟩ := result_eq_ok_iff.mp h
    have hsteps := steps_of_run hok
    have hsize := (wellFormed_run hwf words).size
    rw [config_of_run] at hsize
    exact ⟨ideal_run_of_ok words m hwf hok, hsize, hsteps, by rw [summary, hsteps]⟩

/-- Three cells and a limit of sixteen bits: five is stored at address ten, and three is raised to
it. -/
theorem run_refines_ideal_three_cells :
    (fresh ⟨3, some 16⟩).Reachable
    ∧ ((fresh ⟨3, some 16⟩).run [1346, 2747, 834, 2607]).result = .ok ⟨4, 243⟩
    ∧ (fresh ⟨3, some 16⟩).ideal.Affordable 3 (some 16) [1346, 2747, 834, 2607]
    ∧ ∃ t, (fresh ⟨3, some 16⟩).ideal.run 3 [1346, 2747, 834, 2607] = some t
      ∧ t.accumulator = 243 ∧ t.cells 1 = 5 := by
  have hm : (fresh ⟨3, some 16⟩).Reachable := reachable_fresh ⟨by decide, by decide⟩
  have hrun : ((fresh ⟨3, some 16⟩).run [1346, 2747, 834, 2607]).result = .ok ⟨4, 243⟩ := by rfl
  obtain ⟨hiff, hok⟩ := run_refines_ideal hm [1346, 2747, 834, 2607]
  obtain ⟨hideal, -⟩ := hok _ hrun
  exact ⟨hm, hrun, (hiff.mp ⟨_, hrun⟩).2, _, hideal, by rfl, by rfl⟩

end Machine

end AccumulatorMachine
