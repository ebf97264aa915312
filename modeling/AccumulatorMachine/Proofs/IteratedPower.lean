import AccumulatorMachine.Proofs.Run
import AccumulatorMachine.Proofs.Words

/-!
# A block of powers is one iterated power

`POW` leaves the memory alone, so words that all raise to the same cell raise to the same exponent
every time, and `k` of them make `b ^ (e ^ k)` out of `b`. What has to be shown is that the guard
does not come in between. It measures every result on the way, but none of them is longer than the
last one, up to one bit, which every limit allows (`Allows.of_iterate`). The guard's lower bound
and its way out for trivial powers play no part any more: for a short exponent, a power is computed
just when its length is allowed (`power_eq_ok_iff_allows`).
-/

namespace AccumulatorMachine

/-! ## What a limit allows -/

/-- No limit, or one that a number is within. -/
def Allows (limit : Option Nat) (n : Nat) : Prop :=
  ∀ most, limit = some most → bitLength n ≤ most

section

variable {limit : Option Nat}

/-- A limit of at least one bit allows zero and one, and whatever is below what it allows. -/
theorem Allows.of_le (hlimit : limit ≠ some 0) {n larger : Nat} (hle : n ≤ max 1 larger)
    (h : Allows limit larger) : Allows limit n := by
  rintro most rfl
  have hpos : most ≠ 0 := fun hzero => hlimit (congrArg some hzero)
  have hone : 2 ^ 0 < 2 ^ most := Nat.pow_lt_pow_right (by decide) (Nat.pos_of_ne_zero hpos)
  have hlarger := (bitLength_le_iff larger most).mp (h most rfl)
  rw [Nat.one_shiftLeft] at hlarger
  refine bitLength_le_of_lt ?_
  rw [Nat.pow_zero] at hone
  omega

/-- **The guard without its shortcuts.** -/
theorem power_eq_ok_iff_allows (hlimit : limit ≠ some 0) {base exponent result : Nat}
    (hshort : exponent < 2 ^ 32) :
    power base exponent limit = .ok result ↔
      result = base ^ exponent ∧ Allows limit (base ^ exponent) := by
  constructor
  · intro h
    obtain ⟨hresult, -⟩ := power_eq_ok_iff.mp h
    refine ⟨hresult, ?_⟩
    rintro most rfl
    have hlength := bitLength_of_power h
    have hpos : most ≠ 0 := fun hzero => hlimit (congrArg some hzero)
    rw [← hresult]
    omega
  · rintro ⟨hresult, hallows⟩
    exact power_eq_ok_iff.mpr ⟨hresult, fun _ _ => ⟨hshort, hallows⟩⟩

theorem pow_pow_pow (base exponent count : Nat) :
    (base ^ exponent) ^ exponent ^ count = base ^ exponent ^ (count + 1) := by
  rw [← Nat.pow_mul, Nat.pow_succ']

/-- The first of several powers is allowed if the last one is. -/
theorem Allows.of_iterate (hlimit : limit ≠ some 0) {base exponent count : Nat}
    (h : Allows limit (base ^ exponent ^ (count + 1))) : Allows limit (base ^ exponent) := by
  refine h.of_le hlimit ?_
  rw [← pow_pow_pow]
  rcases Nat.eq_zero_or_pos exponent with rfl | hpos
  · rw [Nat.pow_zero]
    exact Nat.le_max_left _ _
  · have hcount : exponent ^ count ≠ 0 := Nat.ne_of_gt (Nat.pow_pos hpos)
    exact Nat.le_trans (Nat.le_self_pow hcount _) (Nat.le_max_right _ _)

end

/-! ## One word -/

/-- A word that raises the accumulator to what a given cell of a memory of a given size holds. -/
def Word.RaisesTo (size cell : Nat) (word : Word) : Prop :=
  word.code = Opcode.pow.code ∧ word.operand % 2 ^ 23 ≡ cell [MOD size]

namespace Machine

/-- The machine after some powers. -/
def raised (m : Machine) (result count : Nat) : Machine :=
  { m with state := ⟨result, m.state.memory, m.state.steps + count⟩ }

/-- A machine in front of words that all raise to one of its cells. -/
structure Raising (m : Machine) (cell exponent : Nat) (words : List Word) : Prop where
  wellFormed : m.WellFormed
  inside : cell < m.config.memorySize
  /-- What the cell holds, and goes on holding as no word writes. -/
  held : m.state.memory.cell cell = exponent
  /-- The guard has no objection to the exponent. -/
  short : exponent < 2 ^ 32
  words : ∀ word ∈ words, word.RaisesTo m.config.memorySize cell

namespace Raising

variable {m m' : Machine} {cell exponent : Nat} {word : Word} {words : List Word}

/-- The first word takes a power of the accumulator, if that is allowed, and does nothing else. -/
theorem step_eq_ok_iff (h : m.Raising cell exponent (word :: words)) :
    m.step word = .ok m' ↔
      Allows m.config.powLimit (m.state.accumulator ^ exponent)
        ∧ m' = m.raised (m.state.accumulator ^ exponent) 1 := by
  obtain ⟨hcode, haddress⟩ := h.words word List.mem_cons_self
  obtain ⟨i, hi, hop⟩ := Instruction.exists_decode_of_code hcode.symm
  have hwrap : m.state.memory.wrap i.significant = cell := by
    rw [Instruction.significant_of_decode hi, hop]
    unfold Memory.wrap
    rw [h.wellFormed.size]
    exact Eq.trans haddress (Nat.mod_eq_of_lt h.inside)
  have hload : m.state.memory.load i.significant = exponent := by
    rw [Memory.load_eq_cell, hwrap, h.held]
  have hpower : ∀ result, power m.state.accumulator exponent m.config.powLimit = .ok result ↔
      result = m.state.accumulator ^ exponent
        ∧ Allows m.config.powLimit (m.state.accumulator ^ exponent) :=
    fun _ => power_eq_ok_iff_allows h.wellFormed.valid.powLimit_ne h.short
  rw [step_of_decode hi, perform_eq_ok_iff, State.execute_pow _ _ hop, hload]
  cases hresult : power m.state.accumulator exponent m.config.powLimit with
  | ok result =>
      obtain ⟨rfl, hallows⟩ := (hpower result).mp hresult
      simp [hallows, raised, State.advance]
  | error cause =>
      have hrefused : ¬ Allows m.config.powLimit (m.state.accumulator ^ exponent) := by
        intro hallows
        have hok := (hpower _).mpr ⟨rfl, hallows⟩
        rw [hresult] at hok
        contradiction
      simp [hrefused]

/-- The next machine stands in front of the rest. -/
theorem next (h : m.Raising cell exponent (word :: words)) (result : Nat) :
    (m.raised result 1).Raising cell exponent words where
  wellFormed := ⟨h.wellFormed.valid, h.wellFormed.size⟩
  inside := h.inside
  held := h.held
  short := h.short
  words := fun later hlater => h.words later (List.mem_cons_of_mem _ hlater)

end Raising

/-! ## A block of words -/

/-- What the block makes if its last power is allowed. -/
theorem run_of_raising {cell exponent : Nat} : ∀ (words : List Word) (m : Machine),
    m.Raising cell exponent words →
    Allows m.config.powLimit (m.state.accumulator ^ exponent ^ words.length) →
    m.run words = ⟨m.raised (m.state.accumulator ^ exponent ^ words.length) words.length, none⟩ := by
  intro words
  induction words with
  | nil =>
      intro m _ _
      rw [List.length_nil, Nat.pow_zero, Nat.pow_one]
      rfl
  | cons word words ih =>
      intro m h hallows
      rw [List.length_cons] at hallows ⊢
      have hstep : m.step word = .ok (m.raised (m.state.accumulator ^ exponent) 1) :=
        h.step_eq_ok_iff.mpr ⟨hallows.of_iterate h.wellFormed.valid.powLimit_ne, rfl⟩
      -- what is left to do for the next machine is the same power of its accumulator
      rw [← pow_pow_pow] at hallows ⊢
      rw [run, runWith_cons_ok hstep]
      refine (ih _ (h.next _) hallows).trans ?_
      unfold raised
      rw [Nat.add_assoc, Nat.add_comm 1 words.length]

/-- A block that runs has had its last power allowed. -/
theorem allows_of_run {cell exponent : Nat} : ∀ (words : List Word) (m : Machine),
    m.Raising cell exponent words → words ≠ [] → (m.run words).fault = none →
    Allows m.config.powLimit (m.state.accumulator ^ exponent ^ words.length) := by
  intro words
  induction words with
  | nil => intro m _ hne _; exact absurd rfl hne
  | cons word words ih =>
      intro m h _ hran
      cases hstep : m.step word with
      | error fault => rw [run, runWith_cons_error hstep] at hran; contradiction
      | ok m' =>
          rw [run, runWith_cons_ok hstep] at hran
          obtain ⟨hallows, rfl⟩ := h.step_eq_ok_iff.mp hstep
          rw [List.length_cons, ← pow_pow_pow]
          cases words with
          | nil =>
              rw [List.length_nil, Nat.pow_zero, Nat.pow_one]
              exact hallows
          | cons next words => exact ih _ (h.next _) (List.cons_ne_nil _ _) hran

/--
**A block of powers is one iterated power.**

From any reachable machine, let some words, at least one, raise to the same cell, and let that cell
hold an exponent of no more than 32 bits. Running them succeeds just when there is no limit or the
iterated power is within it, whatever the powers on the way. It then leaves that power in the
accumulator, memory and configuration as they were, and one step more for each word.
-/
theorem run_of_powers_iterates {m : Machine} (hm : m.Reachable) {words : List Word}
    (hwords : words ≠ []) {cell : Nat} (hcell : cell < m.config.memorySize)
    (h : ∀ word ∈ words, word.RaisesTo m.config.memorySize cell)
    (hshort : m.state.memory.cell cell < 2 ^ 32) :
    ((∃ summary, (m.run words).result = .ok summary) ↔
      ∀ most, m.config.powLimit = some most →
        bitLength (m.state.accumulator ^ (m.state.memory.cell cell ^ words.length)) ≤ most)
    ∧ ∀ summary, (m.run words).result = .ok summary →
        (m.run words).machine
          = ⟨m.config, m.state.accumulator ^ (m.state.memory.cell cell ^ words.length),
              m.state.memory, m.state.steps + words.length⟩
        ∧ summary = ⟨m.state.steps + words.length,
            m.state.accumulator ^ (m.state.memory.cell cell ^ words.length)⟩ := by
  have hraising : m.Raising cell (m.state.memory.cell cell) words :=
    ⟨hm.wellFormed, hcell, rfl, hshort, h⟩
  have hran := run_of_raising words m hraising
  have hallows := allows_of_run words m hraising hwords
  refine ⟨⟨?_, ?_⟩, ?_⟩
  · rintro ⟨summary, hok⟩
    exact hallows (result_eq_ok_iff.mp hok).1
  · intro hlength
    exact ⟨_, result_eq_ok_iff.mpr ⟨by rw [hran hlength], rfl⟩⟩
  · intro summary hok
    obtain ⟨hfault, rfl⟩ := result_eq_ok_iff.mp hok
    rw [hran (hallows hfault)]
    exact ⟨rfl, rfl⟩

/-- Three is raised to two three times, at three addresses of one cell, under a limit that the
result just meets; a limit of one bit less refuses the block. -/
theorem run_of_powers_iterates_three_times :
    ((fresh ⟨3, some 13⟩).feed (.words [578, 443, 834])).machine.Reachable
    ∧ (∀ word ∈ ([303, 1071, 2147483951] : List Word), word.RaisesTo 3 1)
    ∧ bitLength (3 ^ (2 ^ 3)) = 13
    ∧ (((fresh ⟨3, some 13⟩).feed (.words [578, 443, 834])).machine.run
        [303, 1071, 2147483951]).machine = ⟨⟨3, some 13⟩, 6561, ⟨#[0, 2, 0]⟩, 6⟩
    ∧ ((fresh ⟨3, some 12⟩).feed (.words [578, 443, 834])).machine.Reachable
    ∧ ¬ ∃ summary, (((fresh ⟨3, some 12⟩).feed (.words [578, 443, 834])).machine.run
        [303, 1071, 2147483951]).result = .ok summary := by
  have hm : ((fresh ⟨3, some 13⟩).feed (.words [578, 443, 834])).machine.Reachable :=
    .fed (reachable_fresh ⟨by decide, by decide⟩) _
  have hm' : ((fresh ⟨3, some 12⟩).feed (.words [578, 443, 834])).machine.Reachable :=
    .fed (reachable_fresh ⟨by decide, by decide⟩) _
  have hwords : ∀ word ∈ ([303, 1071, 2147483951] : List Word), word.RaisesTo 3 1 := by
    rw [List.forall_mem_cons, List.forall_mem_cons, List.forall_mem_singleton]
    exact ⟨⟨rfl, rfl⟩, ⟨rfl, rfl⟩, rfl, rfl⟩
  have hlength : bitLength (3 ^ (2 ^ 3)) = 13 := by decide
  obtain ⟨hiff, hleft⟩ := run_of_powers_iterates hm (List.cons_ne_nil _ _)
    (show 1 < 3 by decide) hwords (show 2 < 2 ^ 32 by decide)
  obtain ⟨hiff', -⟩ := run_of_powers_iterates hm' (List.cons_ne_nil _ _)
    (show 1 < 3 by decide) hwords (show 2 < 2 ^ 32 by decide)
  obtain ⟨summary, hok⟩ := hiff.mpr fun most hmost => by
    obtain rfl := Option.some.inj hmost
    exact Nat.le_of_eq hlength
  refine ⟨hm, hwords, hlength, (hleft summary hok).1, hm', fun hother => ?_⟩
  have hfits : bitLength (3 ^ (2 ^ 3)) ≤ 12 := hiff'.mp hother 12 rfl
  omega

end Machine

end AccumulatorMachine
