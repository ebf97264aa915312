import AccumulatorMachine.Proofs.Run

/-!
# The step count is a label

A machine counts its steps, and the count goes into the faults that it reports: it says which word
was refused. Nothing else depends on it. Two machines that differ in their counts alone take the
same step on every word, or none, and differ in their counts alone after it, by as much as before
(`Machine.Relabelled.step`). So runs of theirs stop at the same word if they stop, and what they
report there differs in the index.

The difference is an integer, since either machine may be the one that is ahead.
-/

namespace AccumulatorMachine

/-- The same fault at an index that is `d` further on. A word has no other faults than these two. -/
inductive Fault.Relabelled (d : Int) : Fault → Fault → Prop
  | unknownOpcode {j k : Nat} {code : UInt8} {word : Word} (index : (k : Int) = j + d) :
      Relabelled d (.unknownOpcode j code word) (.unknownOpcode k code word)
  | pow {j k : Nat} {cause : PowerError} (index : (k : Int) = j + d) :
      Relabelled d (.pow j cause) (.pow k cause)

/-- Two outcomes of which both are values, and related, or both are faults, and the same but for
the index. -/
inductive Alike {α : Type} (d : Int) (R : α → α → Prop) : Except Fault α → Except Fault α → Prop
  | ok {a b : α} (values : R a b) : Alike d R (.ok a) (.ok b)
  | error {f g : Fault} (faults : f.Relabelled d g) : Alike d R (.error f) (.error g)

theorem Alike.map {α β : Type} {d : Int} {R : α → α → Prop} {S : β → β → Prop} {f g : α → β}
    {x y : Except Fault α} (h : Alike d R x y) (hfg : ∀ a b, R a b → S (f a) (g b)) :
    Alike d S (x.map f) (y.map g) := by
  cases h with
  | ok hab => exact .ok (hfg _ _ hab)
  | error hfault => exact .error hfault

theorem Alike.cases {α : Type} {d : Int} {R : α → α → Prop} {x y : Except Fault α}
    (h : Alike d R x y) :
    (∃ a b, x = .ok a ∧ y = .ok b ∧ R a b)
    ∨ ∃ f g, x = .error f ∧ y = .error g ∧ f.Relabelled d g := by
  cases h with
  | ok values => exact Or.inl ⟨_, _, rfl, rfl, values⟩
  | error faults => exact Or.inr ⟨_, _, rfl, rfl, faults⟩

/-! ## One instruction -/

/-- The same state at a count that is `d` further on. -/
structure State.Relabelled (d : Int) (s t : State) : Prop where
  accumulator : s.accumulator = t.accumulator
  memory : s.memory = t.memory
  steps : (t.steps : Int) = s.steps + d

namespace State

variable {d : Int} {s t : State}

theorem Relabelled.advance (h : s.Relabelled d t) (accumulator : Nat) (memory : Memory) :
    (s.advance accumulator memory).Relabelled d (t.advance accumulator memory) where
  accumulator := rfl
  memory := rfl
  steps := by
    have hsteps := h.steps
    show ((t.steps + 1 : Nat) : Int) = (s.steps + 1 : Nat) + d
    omega

/-- **An instruction does the same**, whatever the count is, and counts one step. -/
theorem Relabelled.execute (h : s.Relabelled d t) (limit : Option Nat) (i : Instruction) :
    Alike d (Relabelled d) (execute limit i s) (execute limit i t) := by
  cases hop : i.opcode with
  | loadConst =>
      rw [execute_loadConst limit s hop, execute_loadConst limit t hop, ← h.memory]
      exact .ok (h.advance _ _)
  | readMem =>
      rw [execute_readMem limit s hop, execute_readMem limit t hop, ← h.memory, ← h.accumulator]
      exact .ok (h.advance _ _)
  | writeMem =>
      rw [execute_writeMem limit s hop, execute_writeMem limit t hop, ← h.memory, ← h.accumulator]
      exact .ok (h.advance _ _)
  | pow =>
      rw [execute_pow limit s hop, execute_pow limit t hop, ← h.memory, ← h.accumulator]
      -- the power itself knows nothing of counts
      cases power s.accumulator (s.memory.load i.significant) limit with
      | ok result => exact .ok (h.advance _ _)
      | error cause => exact .error (.pow h.steps)

end State

/-! ## Runs -/

/-- What two successful runs report: the same accumulator, and counts that are `d` apart. -/
structure Summary.Relabelled (d : Int) (a b : Summary) : Prop where
  accumulator : a.accumulator = b.accumulator
  steps : (b.steps : Int) = a.steps + d

namespace Machine

/-- The same machine at a count that is `d` further on. -/
structure Relabelled (d : Int) (m n : Machine) : Prop where
  config : m.config = n.config
  state : m.state.Relabelled d n.state

variable {d : Int} {m n : Machine}

theorem Relabelled.perform (h : m.Relabelled d n) (i : Instruction) :
    Alike d (Relabelled d) (m.perform i) (n.perform i) := by
  unfold Machine.perform
  rw [← h.config]
  exact (h.state.execute m.config.powLimit i).map fun _ _ hstate => ⟨rfl, hstate⟩

theorem Relabelled.step (h : m.Relabelled d n) (word : Word) :
    Alike d (Relabelled d) (m.step word) (n.step word) := by
  cases hi : Instruction.decode? word with
  | none =>
      rw [step_of_unknown hi, step_of_unknown hi]
      exact .error (.unknownOpcode h.state.steps)
  | some i =>
      rw [step_of_decode hi, step_of_decode hi]
      exact h.perform i

/--
**The step count is only a label.**

Two machines with the same configuration, accumulator and memory, whose counts are `d` apart, are
run on the same words. Either both succeed, with the same accumulator, or both fail, with the same
fault at indices that are `d` apart. In both cases they are left with the same accumulator and
memory, and with counts that are `d` apart.
-/
theorem steps_are_a_label (h : m.Relabelled d n) (words : List Word) :
    Alike d (Summary.Relabelled d) (m.run words).result (n.run words).result
    ∧ (m.run words).machine.Relabelled d (n.run words).machine := by
  -- both machines are free in the induction, since the rest of the words runs on the next ones
  induction words generalizing m n with
  | nil => exact ⟨.ok ⟨h.state.accumulator, h.state.steps⟩, h⟩
  | cons word words ih =>
      rw [run, run]
      rcases (h.step word).cases with ⟨m', n', hm, hn, h'⟩ | ⟨f, g, hm, hn, hfaults⟩
      · rw [runWith_cons_ok hm, runWith_cons_ok hn]
        exact ih h'
      · rw [runWith_cons_error hm, runWith_cons_error hn]
        exact ⟨.error hfaults, h⟩

/-- A machine that has counted seven steps already, and a fresh one: a power that is refused, and
an unknown code on the machines that are left. -/
theorem steps_are_a_label_seven_apart :
    (fresh ⟨3, some 16⟩).Relabelled 7 ⟨⟨3, some 16⟩, ⟨0, ⟨#[0, 0, 0]⟩, 7⟩⟩
    ∧ ((fresh ⟨3, some 16⟩).run [17920066, 1211, 303, 322]).result
      = .error (.pow 2 (.limitExceeded 1120001 16))
    ∧ (run ⟨⟨3, some 16⟩, ⟨0, ⟨#[0, 0, 0]⟩, 7⟩⟩ [17920066, 1211, 303, 322]).result
      = .error (.pow 9 (.limitExceeded 1120001 16))
    ∧ ((run ⟨⟨3, some 16⟩, ⟨0, ⟨#[0, 0, 0]⟩, 7⟩⟩ [17920066, 1211, 303, 322]).machine.run
        [66, 256]).result = .error (.unknownOpcode 10 0 256) := by
  have h : (fresh ⟨3, some 16⟩).Relabelled 7 ⟨⟨3, some 16⟩, ⟨0, ⟨#[0, 0, 0]⟩, 7⟩⟩ :=
    ⟨rfl, rfl, by decide, by decide⟩
  have hfirst : ((fresh ⟨3, some 16⟩).run [17920066, 1211, 303, 322]).result
      = .error (.pow 2 (.limitExceeded 1120001 16)) := by rfl
  have hsecond : (((fresh ⟨3, some 16⟩).run [17920066, 1211, 303, 322]).machine.run
      [66, 256]).result = .error (.unknownOpcode 3 0 256) := by rfl
  obtain ⟨hresults, hleft⟩ := steps_are_a_label h [17920066, 1211, 303, 322]
  obtain ⟨hlater, -⟩ := steps_are_a_label hleft [66, 256]
  refine ⟨h, hfirst, ?_, ?_⟩
  · rcases hresults.cases with ⟨a, b, hok, -, -⟩ | ⟨f, g, hf, hg, hfaults⟩
    · rw [hfirst] at hok
      contradiction
    · obtain rfl := Except.error.inj (hfirst.symm.trans hf)
      cases hfaults with
      | @pow _ k _ hindex =>
          obtain rfl : k = 9 := by omega
          exact hg
  · rcases hlater.cases with ⟨a, b, hok, -, -⟩ | ⟨f, g, hf, hg, hfaults⟩
    · rw [hsecond] at hok
      contradiction
    · obtain rfl := Except.error.inj (hsecond.symm.trans hf)
      cases hfaults with
      | @unknownOpcode _ k _ _ hindex =>
          obtain rfl : k = 10 := by omega
          exact hg

end Machine

end AccumulatorMachine
