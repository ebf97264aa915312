import AccumulatorMachine.Proofs.Failure

/-!
# Raising the limit on powers

Two machines in one state, the second with a limit that allows at least as much as the first
one's. As long as the first gets on, so does the second, and to the same state. When the first
stops for any other reason than its limit, the second stops there too. So the two runs are the
same run, unless the first is stopped by its limit, and then the second one goes at least as
far (`Tighter.run`).

This rests on the order of the checks in `power`. The exponent is looked at between two
comparisons with the limit, so a tighter limit may hide an exponent that is too large, but
never the other way round.
-/

namespace AccumulatorMachine

/-- A limit that allows whatever another allows is at least as great; no limit is the greatest. -/
def LimitLe : Option Nat → Option Nat → Prop
  | _, none => True
  | none, some _ => False
  | some low, some high => low ≤ high

/-- The fault of a power whose result is too long. -/
def Fault.OverLimit (fault : Fault) : Prop :=
  ∃ index bits limit, fault = .pow index (.limitExceeded bits limit)

section

variable {low high : Option Nat}

theorem checkLength_mono (h : LimitLe low high) {bits : Nat} (hlow : checkLength low bits = .ok ()) :
    checkLength high bits = .ok () := by
  rw [checkLength_eq_ok_iff] at hlow ⊢
  rintro most rfl
  cases low with
  | none => exact h.elim
  | some least => exact Nat.le_trans (hlow least rfl) h

theorem power_ok_mono (h : LimitLe low high) {base exponent result : Nat}
    (hlow : power base exponent low = .ok result) : power base exponent high = .ok result := by
  rw [power_eq_ok_iff] at hlow ⊢
  obtain ⟨rfl, hchecked⟩ := hlow
  refine ⟨rfl, fun hb he => ?_⟩
  obtain ⟨hshort, hlength⟩ := hchecked hb he
  rw [← checkLength_eq_ok_iff] at hlength ⊢
  exact ⟨hshort, checkLength_mono h hlength⟩

/-- An exponent that is refused under a limit is refused under a greater one: the early check,
which comes before, passes there as well. -/
theorem power_exponentTooLarge_mono (h : LimitLe low high) {base exponent : Nat} {digits : String}
    (hlow : power base exponent low = .error (.exponentTooLarge digits)) :
    power base exponent high = .error (.exponentTooLarge digits) := by
  rw [power_eq_exponentTooLarge_iff] at hlow ⊢
  obtain ⟨hrefused, hb, he, hleast⟩ := hlow
  exact ⟨hrefused, hb, he, checkLength_mono h hleast⟩

namespace State

variable {i : Instruction} {s t : State} {fault : Fault}

theorem execute_ok_mono (h : LimitLe low high) (hlow : execute low i s = .ok t) :
    execute high i s = .ok t := by
  rcases execute_cases hlow with ⟨hop, rfl⟩ | ⟨hop, rfl⟩ | ⟨hop, rfl⟩ | ⟨hop, result, hpow, rfl⟩
  · exact execute_loadConst high s hop
  · exact execute_readMem high s hop
  · exact execute_writeMem high s hop
  · rw [execute_pow high s hop, power_ok_mono h hpow]

theorem execute_error_mono (h : LimitLe low high) (hlow : execute low i s = .error fault)
    (hother : ¬ fault.OverLimit) : execute high i s = .error fault := by
  obtain ⟨hop, cause, hpow, rfl⟩ := execute_eq_error_iff.mp hlow
  cases cause with
  | limitExceeded bits limit => exact absurd ⟨_, bits, limit, rfl⟩ hother
  | exponentTooLarge digits =>
      exact execute_eq_error_iff.mpr ⟨hop, _, power_exponentTooLarge_mono h hpow, rfl⟩

end State

end

namespace Machine

/-- The same state under a limit that allows no more. -/
structure Tighter (m₁ m₂ : Machine) : Prop where
  /-- Accumulator, cells and steps are the same. -/
  state : m₁.state = m₂.state
  /-- The limit of the first is at most that of the second. -/
  limit : LimitLe m₁.config.powLimit m₂.config.powLimit

variable {m₁ m₂ : Machine}

theorem Tighter.step_ok (h : m₁.Tighter m₂) {word : Word} {m₁' : Machine}
    (hs : m₁.step word = .ok m₁') : ∃ m₂', m₂.step word = .ok m₂' ∧ m₁'.Tighter m₂' := by
  obtain ⟨i, hi, hp⟩ := step_eq_ok hs
  obtain ⟨t, ht, rfl⟩ := perform_eq_ok_iff.mp hp
  have ht₂ := State.execute_ok_mono h.limit ht
  rw [h.state] at ht₂
  refine ⟨{ m₂ with state := t }, ?_, rfl, h.limit⟩
  rw [step_of_decode hi]
  exact perform_eq_ok_iff.mpr ⟨t, ht₂, rfl⟩

theorem Tighter.step_error (h : m₁.Tighter m₂) {word : Word} {fault : Fault}
    (hs : m₁.step word = .error fault) (hother : ¬ fault.OverLimit) :
    m₂.step word = .error fault := by
  cases hi : Instruction.decode? word with
  | none =>
      rw [step_of_unknown hi, h.state] at hs
      rw [step_of_unknown hi, hs]
  | some i =>
      rw [step_of_decode hi, perform_eq_error_iff_execute] at hs ⊢
      rw [← h.state]
      exact State.execute_error_mono h.limit hs hother

/-- **Two runs in step.** They are the same, or the limit of the first has stopped it, and the
second has gone at least as far. -/
theorem Tighter.run (words : List Word) : ∀ m₁ m₂ : Machine, m₁.Tighter m₂ →
    ((m₁.run words).fault = (m₂.run words).fault
      ∧ (m₁.run words).machine.Tighter (m₂.run words).machine)
    ∨ ∃ fault, (m₁.run words).fault = some fault ∧ fault.OverLimit
        ∧ (m₁.run words).machine.state.steps ≤ (m₂.run words).machine.state.steps := by
  induction words with
  | nil => intro m₁ m₂ h; exact Or.inl ⟨rfl, h⟩
  | cons word words ih =>
      intro m₁ m₂ h
      cases hs : m₁.step word with
      | ok m₁' =>
          obtain ⟨m₂', hs₂, h'⟩ := h.step_ok hs
          rw [Machine.run, Machine.run, runWith_cons_ok hs, runWith_cons_ok hs₂]
          exact ih m₁' m₂' h'
      | error fault =>
          by_cases hover : fault.OverLimit
          · have hle := steps_le_of_run m₂ (word :: words)
            rw [← h.state] at hle
            rw [Machine.run, runWith_cons_error hs]
            exact Or.inr ⟨fault, rfl, hover, hle⟩
          · rw [Machine.run, Machine.run, runWith_cons_error hs,
              runWith_cons_error (h.step_error hs hover)]
            exact Or.inl ⟨rfl, h⟩

/--
**Raising the limit never breaks a run and never changes its answer.**

Take two machines in the same state, the second with a limit that is no less. What the first
completes, the second completes with the same result and state. A fault of the first that is not
about its limit is the fault of the second, in the same state. And if the second fails, the first
fails no later.
-/
theorem run_of_raised_limit (hstate : m₁.state = m₂.state)
    (hlimit : LimitLe m₁.config.powLimit m₂.config.powLimit) (words : List Word) :
    (∀ summary, (m₁.run words).result = .ok summary →
      (m₂.run words).result = .ok summary
        ∧ (m₂.run words).machine.state = (m₁.run words).machine.state)
    ∧ (∀ fault, (m₁.run words).result = .error fault → ¬ fault.OverLimit →
      (m₂.run words).result = .error fault
        ∧ (m₂.run words).machine.state = (m₁.run words).machine.state)
    ∧ ∀ fault, (m₂.run words).result = .error fault →
      ∃ j first i, fault.index? = some j ∧ (m₁.run words).result = .error first
        ∧ first.index? = some i ∧ i ≤ j := by
  simp only [result_eq_error_iff, result_eq_ok_iff]
  rcases Tighter.run words m₁ m₂ ⟨hstate, hlimit⟩ with
    ⟨hfault, hsame⟩ | ⟨first, hfirst, hover, hsteps⟩
  · -- one and the same run
    rw [← hfault, ← hsame.state]
    refine ⟨?_, ?_, ?_⟩
    · rintro summary ⟨hok, rfl⟩
      refine ⟨⟨hok, ?_⟩, rfl⟩
      unfold summary
      rw [hsame.state]
    · intro fault h _
      exact ⟨h, rfl⟩
    · intro fault h
      have hindex := index_of_run_fault h
      exact ⟨_, fault, _, hindex, h, hindex, Nat.le_refl _⟩
  · -- the first was stopped by its limit, after no more steps than the second took
    rw [hfirst]
    refine ⟨?_, ?_, ?_⟩
    · rintro summary ⟨hok, -⟩
      contradiction
    · rintro fault h hother
      obtain rfl := Option.some.inj h
      contradiction
    · intro fault h
      exact ⟨_, first, _, index_of_run_fault h, rfl, index_of_run_fault hfirst, hsteps⟩

/-- Two to the thirty-second, made by one power and then the exponent of another: a limit of 2 ^ 33
bits and none at all differ in nothing, and one of sixteen bits stops the first of the two. -/
theorem run_of_raised_limit_long_exponent :
    ((fresh ⟨2, some (2 ^ 33)⟩).run [8258, 187, 578, 47]).result = .ok ⟨4, 2 ^ 32⟩
    ∧ ((fresh ⟨2, none⟩).run [8258, 187, 578, 47]).result = .ok ⟨4, 2 ^ 32⟩
    ∧ ((fresh ⟨2, some (2 ^ 33)⟩).run [8258, 187, 578, 47, 187, 578, 47]).result
      = .error (.pow 6 (.exponentTooLarge "4294967296"))
    ∧ ((fresh ⟨2, none⟩).run [8258, 187, 578, 47, 187, 578, 47]).result
      = .error (.pow 6 (.exponentTooLarge "4294967296"))
    ∧ ∃ first i, ((fresh ⟨2, some 16⟩).run [8258, 187, 578, 47, 187, 578, 47]).result = .error first
      ∧ first.index? = some i ∧ i ≤ 6 := by
  have hok : ((fresh ⟨2, some (2 ^ 33)⟩).run [8258, 187, 578, 47]).result
      = .ok ⟨4, 2 ^ 32⟩ := by rfl
  have herror : ((fresh ⟨2, some (2 ^ 33)⟩).run [8258, 187, 578, 47, 187, 578, 47]).result
      = .error (.pow 6 (.exponentTooLarge "4294967296")) := by rfl
  have hother : ¬ (Fault.pow 6 (.exponentTooLarge "4294967296")).OverLimit := by
    rintro ⟨index, bits, limit, h⟩
    obtain ⟨-, h⟩ := Fault.pow.inj h
    contradiction
  have hsame : (fresh ⟨2, some (2 ^ 33)⟩).state = (fresh ⟨2, none⟩).state := by rfl
  obtain ⟨hkept, -, -⟩ := run_of_raised_limit hsame trivial [8258, 187, 578, 47]
  obtain ⟨-, hfault, -⟩ := run_of_raised_limit hsame trivial [8258, 187, 578, 47, 187, 578, 47]
  have hsame₁₆ : (fresh ⟨2, some 16⟩).state = (fresh ⟨2, some (2 ^ 33)⟩).state := by rfl
  have hlimit : 16 ≤ 2 ^ 33 := by omega
  obtain ⟨-, -, hearlier⟩ :=
    run_of_raised_limit hsame₁₆ hlimit [8258, 187, 578, 47, 187, 578, 47]
  obtain ⟨j, first, i, hj, hfirst, hi, hle⟩ := hearlier _ herror
  obtain rfl := Option.some.inj hj
  exact ⟨hok, (hkept _ hok).1, herror, (hfault _ herror hother).1, first, i, hfirst, hi, hle⟩

end Machine

end AccumulatorMachine
