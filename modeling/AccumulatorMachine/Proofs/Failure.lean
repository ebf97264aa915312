import AccumulatorMachine.Machine.InPlace
import AccumulatorMachine.Proofs.Run

/-!
# Where a failed run stops, and what it leaves

A run that fails has one word to blame. The words before it ran, the machine stays where they
took it, and the words behind it might as well not be there. Two facts carry this: a refused
word leaves the machine alone, and every success counts one step, so the index in the fault is
the place of the word (`index_of_run_fault`).

The first of them is no matter of course for a machine that is overwritten as it goes. It holds
there too, and such a machine ends every run at the same place.
-/

namespace AccumulatorMachine

namespace Machine

/-! ## A refused word -/

/-- A word is refused because its code is unknown or because its power is. -/
theorem step_error_cases {m : Machine} {word : Word} {fault : Fault}
    (h : m.step word = .error fault) :
    fault = .unknownOpcode m.state.steps word.code word
      ∨ ∃ cause, fault = .pow m.state.steps cause := by
  cases hi : Instruction.decode? word with
  | none =>
      rw [step_of_unknown hi] at h
      exact Or.inl (Except.error.inj h).symm
  | some i =>
      rw [step_of_decode hi] at h
      obtain ⟨-, cause, -, hfault⟩ := perform_eq_error_iff.mp h
      exact Or.inr ⟨cause, hfault⟩

theorem index_of_step_error {m : Machine} {word : Word} {fault : Fault}
    (h : m.step word = .error fault) : fault.index? = some m.state.steps := by
  rcases step_error_cases h with rfl | ⟨cause, rfl⟩
  · rfl
  · rfl

/-! ## The word that a run stops at -/

/-- **A failed run stays behind a prefix that ran**, and the word after that prefix is refused. -/
theorem exists_refused_word {m : Machine} {words : List Word} {fault : Fault}
    (h : (m.run words).fault = some fault) :
    ∃ (k : Nat) (word : Word) (left : Machine),
      words[k]? = some word ∧ m.run (words.take k) = ⟨left, none⟩
        ∧ m.run words = ⟨left, some fault⟩ ∧ left.step word = .error fault := by
  obtain ⟨k, word, hword, hbefore, hleft, hrefused⟩ := runWith_fault words m h
  refine ⟨k, word, (m.run (words.take k)).machine, hword, ?_, ?_, hrefused⟩
  · exact congrArg (Run.mk _) hbefore
  · have hmachine : (m.run words).machine = (m.run (words.take k)).machine := hleft
    rw [← hmachine, ← h]

/-- The fault of a run names the number of steps at which the machine is left. -/
theorem index_of_run_fault {m : Machine} {words : List Word} {fault : Fault}
    (h : (m.run words).fault = some fault) :
    fault.index? = some (m.run words).machine.state.steps := by
  obtain ⟨k, word, left, -, -, hwhole, hrefused⟩ := exists_refused_word h
  rw [hwhole]
  exact index_of_step_error hrefused

theorem run_fault_ne_format (m : Machine) (words : List Word) (cause : FormatError) :
    (m.run words).fault ≠ some (.format cause) := by
  intro h
  have hindex := index_of_run_fault h
  contradiction

/-- Not even bytes that are cut short give a fault of the format. -/
theorem runBytes_fault_ne_format (m : Machine) (bytes : List UInt8) (cause : FormatError) :
    (m.runBytes bytes).fault ≠ some (.format cause) := by
  unfold runBytes
  cases Program.ofBytes bytes with
  | ok p => exact run_fault_ne_format m p.code cause
  | error _ => simp

/-- How a run fails at its `k`-th word and leaves a machine: what is true of the words before it,
of the word, of the words behind it, and of words that come later. -/
structure FailsAt (m : Machine) (words : List Word) (fault : Fault) (k : Nat) (left : Machine) :
    Prop where
  /-- There is such a word. -/
  inside : k < words.length
  /-- The words before it run, and take the machine to where it is left. -/
  before : m.run (words.take k) = ⟨left, none⟩
  /-- No longer prefix runs. -/
  longest : ∀ j, (m.run (words.take j)).fault = none ↔ j ≤ k
  /-- The run ends there, with its fault. -/
  whole : m.run words = ⟨left, some fault⟩
  /-- Each word before it counts as one step. -/
  steps : left.state.steps = m.state.steps + k
  /-- The configuration is the same. -/
  config : left.config = m.config
  /-- The word is refused with the fault of the run. -/
  refused : left.step words[k] = .error fault
  /-- The fault has the place of the word, counted on from the steps before the run. -/
  index : fault.index? = some (m.state.steps + k)
  /-- An unknown code is reported with the word that has it. -/
  unknown : ∀ index code word, fault = .unknownOpcode index code word →
    code.toNat = words[k].toNat % 256 ∧ word = words[k]
  /-- Whatever stands behind the word, the run ends in the same way. -/
  behind : ∀ rest, m.run (words.take (k + 1) ++ rest) = ⟨left, some fault⟩
  /-- A machine that is overwritten is left at the same place. -/
  inPlace : runInPlace words m = .error fault left
  /-- Later words go on as if the run had ended before the word. -/
  later : ∀ more, left.run more = m.run (words.take k ++ more)

theorem failsAt_of_refused {m left : Machine} {words : List Word} {word : Word} {fault : Fault}
    {k : Nat} (hword : words[k]? = some word) (hbefore : m.run (words.take k) = ⟨left, none⟩)
    (hrefused : left.step word = .error fault) : m.FailsAt words fault k left := by
  obtain ⟨hk, rfl⟩ := List.getElem?_eq_some_iff.mp hword
  have hok : (m.run (words.take k)).fault = none := by rw [hbefore]
  have hsteps : left.state.steps = m.state.steps + k := by
    have hcount := steps_of_run hok
    rw [hbefore, List.length_take, Nat.min_eq_left (Nat.le_of_lt hk)] at hcount
    exact hcount
  have hbehind : ∀ rest, m.run (words.take (k + 1) ++ rest) = ⟨left, some fault⟩ := by
    intro rest
    rw [List.take_succ_eq_append_getElem hk, List.append_assoc, run_append_of_ok hbefore]
    exact runWith_cons_error hrefused _
  have hwhole : m.run words = ⟨left, some fault⟩ := by
    have hrest := hbehind (words.drop (k + 1))
    rwa [List.take_append_drop] at hrest
  exact
    { inside := hk
      before := hbefore
      longest := by
        intro j
        constructor
        · -- a longer prefix has the refused word in it
          intro hj
          by_contra hlt
          obtain ⟨d, rfl⟩ := Nat.exists_eq_add_of_le (Nat.lt_of_not_le hlt)
          rw [List.take_add, hbehind] at hj
          contradiction
        · intro hj
          obtain ⟨d, rfl⟩ := Nat.exists_eq_add_of_le hj
          rw [List.take_add] at hok
          exact run_ok_of_append hok
      whole := hwhole
      steps := hsteps
      config := by
        have hconfig := config_of_run m words
        rwa [hwhole] at hconfig
      refused := hrefused
      index := by rw [index_of_step_error hrefused, hsteps]
      unknown := by
        rintro index code word rfl
        rcases step_error_cases hrefused with h | ⟨cause, h⟩
        · obtain ⟨-, rfl, rfl⟩ := Fault.unknownOpcode.inj h
          exact ⟨Word.toNat_code _, rfl⟩
        · contradiction
      behind := hbehind
      inPlace := by
        rw [runInPlace_eq, hwhole]
        rfl
      later := fun more => (run_append_of_ok hbefore more).symm }

/--
**Failure is atomic for every instruction and precise for every run.**

A run that fails does so at one word, which the fault names, and leaves the machine, overwritten
or not, as the words before it did. A procedure that ends with a fault on one word or on one
instruction has changed nothing. And an error of the format never gets through as such, neither
from a word nor from a byte string.
-/
theorem failure_is_atomic (m : Machine) (words : List Word) :
    (∀ fault, (m.run words).fault = some fault → ∃! k, ∃ left, m.FailsAt words fault k left)
    ∧ (∀ word fault left, stepInPlace word m = .error fault left → left = m)
    ∧ (∀ limit i s fault left, State.executeInPlace limit i s = .error fault left → left = s)
    ∧ (∀ word left cause, stepInPlace word m ≠ .error (.format cause) left)
    ∧ (∀ bytes left cause, runBytesInPlace bytes m ≠ .error (.format cause) left) := by
  refine ⟨?_, ?_, ?_, ?_, ?_⟩
  · intro fault h
    obtain ⟨k, word, left, hword, hbefore, -, hrefused⟩ := exists_refused_word h
    have hk := failsAt_of_refused hword hbefore hrefused
    refine ⟨k, ⟨left, hk⟩, ?_⟩
    rintro j ⟨_, hj⟩
    -- the fault has one index, and both places are counted from the same steps
    have hindex := Option.some.inj (hj.index.symm.trans hk.index)
    omega
  · intro word fault left h
    rw [stepInPlace_eq, Procedure.atomic_eq_error_iff] at h
    exact h.2
  · intro limit i s fault left h
    rw [State.executeInPlace_eq, Procedure.atomic_eq_error_iff] at h
    exact h.2
  · intro word left cause h
    rw [stepInPlace_eq, Procedure.atomic_eq_error_iff] at h
    rcases step_error_cases h.1 with hfault | ⟨_, hfault⟩
    · contradiction
    · contradiction
  · intro bytes left cause h
    rw [runBytesInPlace_eq, Run.asProcedure_eq_error_iff] at h
    exact runBytes_fault_ne_format m bytes cause (by rw [h])

/-- Seventy thousand is stored and to be raised to itself, against a limit of sixteen bits; one
word is left. -/
theorem failure_is_atomic_refused_power :
    ((fresh ⟨3, some 16⟩).run [17920066, 1211, 303, 322]).fault
        = some (.pow 2 (.limitExceeded 1120001 16))
    ∧ (∃ left, (fresh ⟨3, some 16⟩).FailsAt [17920066, 1211, 303, 322]
          (.pow 2 (.limitExceeded 1120001 16)) 2 left
        ∧ left.state.accumulator = 70000 ∧ left.state.memory.cell 1 = 70000)
    ∧ (∃ left, stepInPlace 256 (fresh ⟨3, some 16⟩) = .error (.unknownOpcode 0 0 256) left
        ∧ left = fresh ⟨3, some 16⟩)
    ∧ ∃ left, State.executeInPlace (some 1) ⟨.pow, 2⟩ ⟨2, ⟨#[0, 0, 9]⟩, 7⟩
          = .error (.pow 7 (.limitExceeded 10 1)) left
        ∧ left = ⟨2, ⟨#[0, 0, 9]⟩, 7⟩ := by
  have h : ((fresh ⟨3, some 16⟩).run [17920066, 1211, 303, 322]).fault
      = some (.pow 2 (.limitExceeded 1120001 16)) := by rfl
  obtain ⟨hrun, hstep, hexecute, -⟩ :=
    failure_is_atomic (fresh ⟨3, some 16⟩) [17920066, 1211, 303, 322]
  obtain ⟨k, ⟨left, hk⟩, -⟩ := hrun _ h
  have htwo : k = 2 := by simpa [Fault.index?, fresh] using hk.index.symm
  subst htwo
  have hleft := (Run.mk.inj hk.before).1
  have hunknown : stepInPlace 256 (fresh ⟨3, some 16⟩)
      = .error (.unknownOpcode 0 0 256) (fresh ⟨3, some 16⟩) := by rfl
  have hpower : State.executeInPlace (some 1) ⟨.pow, 2⟩ ⟨2, ⟨#[0, 0, 9]⟩, 7⟩
      = .error (.pow 7 (.limitExceeded 10 1)) ⟨2, ⟨#[0, 0, 9]⟩, 7⟩ := by rfl
  exact ⟨h, ⟨left, hk, hleft ▸ rfl, hleft ▸ rfl⟩, ⟨_, hunknown, hstep _ _ _ hunknown⟩,
    ⟨_, hpower, hexecute _ _ _ _ _ hpower⟩⟩

end Machine

end AccumulatorMachine
