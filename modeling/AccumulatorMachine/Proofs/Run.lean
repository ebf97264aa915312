import AccumulatorMachine.Machine.Stream
import AccumulatorMachine.Proofs.Power

/-!
# Steps, runs, and what every reachable machine keeps

Everything that is ever said about a run comes from what one step can do, and there are
only four things that it can do (`State.execute_cases`) and one way in which an
instruction can fail (`State.execute_eq_error_iff`). A run is then one of two things: a
chain of successful steps, or such a chain up to a word whose step fails, with nothing
after it (`Machine.runWith_fault`).

A machine can be fed in five ways, but each of them amounts to a run of words, possibly
none (`Machine.exists_run_of_feed`). So a property of all reachable machines needs two
facts only: fresh machines have it, and a successful step keeps it
(`Machine.Reachable.invariant`).
-/

namespace AccumulatorMachine

/-! ## What one instruction can do -/

namespace State

/-- The four ways to succeed. -/
theorem execute_cases {limit : Option Nat} {i : Instruction} {s t : State}
    (h : execute limit i s = .ok t) :
    (i.opcode = .loadConst ∧ t = s.advance i.significant s.memory)
    ∨ (i.opcode = .readMem
        ∧ t = s.advance (s.memory.load (s.memory.wrap s.accumulator + i.significant)) s.memory)
    ∨ (i.opcode = .writeMem
        ∧ t = s.advance s.accumulator (s.memory.store i.significant s.accumulator))
    ∨ (i.opcode = .pow ∧ ∃ result,
        power s.accumulator (s.memory.load i.significant) limit = .ok result
        ∧ t = s.advance result s.memory) := by
  cases hop : i.opcode with
  | loadConst =>
      rw [execute_loadConst limit s hop] at h
      exact Or.inl ⟨rfl, (Except.ok.inj h).symm⟩
  | readMem =>
      rw [execute_readMem limit s hop] at h
      exact Or.inr (Or.inl ⟨rfl, (Except.ok.inj h).symm⟩)
  | writeMem =>
      rw [execute_writeMem limit s hop] at h
      exact Or.inr (Or.inr (Or.inl ⟨rfl, (Except.ok.inj h).symm⟩))
  | pow =>
      rw [execute_pow limit s hop] at h
      refine Or.inr (Or.inr (Or.inr ⟨rfl, ?_⟩))
      split at h
      · rename_i result hpow
        exact ⟨result, hpow, (Except.ok.inj h).symm⟩
      · contradiction

/-- The one way to fail: a power that is refused. -/
theorem execute_eq_error_iff {limit : Option Nat} {i : Instruction} {s : State} {fault : Fault} :
    execute limit i s = .error fault ↔
      i.opcode = .pow ∧ ∃ cause,
        power s.accumulator (s.memory.load i.significant) limit = .error cause
        ∧ fault = .pow s.steps cause := by
  cases hop : i.opcode with
  | loadConst => rw [execute_loadConst limit s hop]; simp
  | readMem => rw [execute_readMem limit s hop]; simp
  | writeMem => rw [execute_writeMem limit s hop]; simp
  | pow =>
      rw [execute_pow limit s hop]
      cases power s.accumulator (s.memory.load i.significant) limit with
      | ok result => simp
      | error cause => simp [eq_comm]

/-- No instruction changes the number of cells. -/
theorem size_of_execute {limit : Option Nat} {i : Instruction} {s t : State}
    (h : execute limit i s = .ok t) : t.memory.size = s.memory.size := by
  rcases execute_cases h with ⟨_, rfl⟩ | ⟨_, rfl⟩ | ⟨_, rfl⟩ | ⟨_, _, _, rfl⟩
  · rfl
  · rfl
  · exact Memory.size_store ..
  · rfl

end State

namespace Machine

theorem perform_eq_ok_iff {m m' : Machine} {i : Instruction} :
    m.perform i = .ok m' ↔
      ∃ t, State.execute m.config.powLimit i m.state = .ok t ∧ m' = { m with state := t } := by
  unfold perform
  cases State.execute m.config.powLimit i m.state with
  | ok t => simp [Except.map, eq_comm]
  | error fault => simp [Except.map]

/-- A machine fails on an instruction as its state does. -/
theorem perform_eq_error_iff_execute {m : Machine} {i : Instruction} {fault : Fault} :
    m.perform i = .error fault ↔
      State.execute m.config.powLimit i m.state = .error fault := by
  unfold perform
  cases State.execute m.config.powLimit i m.state with
  | ok t => simp [Except.map]
  | error first => simp [Except.map]

theorem perform_eq_error_iff {m : Machine} {i : Instruction} {fault : Fault} :
    m.perform i = .error fault ↔
      i.opcode = .pow ∧ ∃ cause,
        power m.state.accumulator (m.state.memory.load i.significant) m.config.powLimit
          = .error cause
        ∧ fault = .pow m.state.steps cause :=
  perform_eq_error_iff_execute.trans State.execute_eq_error_iff

theorem step_of_decode {m : Machine} {word : Word} {i : Instruction}
    (h : Instruction.decode? word = some i) : m.step word = m.perform i := by
  unfold step; rw [h]

theorem step_of_unknown {m : Machine} {word : Word} (h : Instruction.decode? word = none) :
    m.step word = .error (.unknownOpcode m.state.steps word.code word) := by
  unfold step; rw [h]

/-- A successful step decodes its word and executes the instruction in it. -/
theorem step_eq_ok {m m' : Machine} {word : Word} (h : m.step word = .ok m') :
    ∃ i, Instruction.decode? word = some i ∧ m.perform i = .ok m' := by
  cases hi : Instruction.decode? word with
  | none => rw [step_of_unknown hi] at h; contradiction
  | some i => exact ⟨i, rfl, (step_of_decode hi).symm.trans h⟩

theorem steps_of_perform {m m' : Machine} {i : Instruction} (h : m.perform i = .ok m') :
    m'.state.steps = m.state.steps + 1 := by
  obtain ⟨t, ht, rfl⟩ := perform_eq_ok_iff.mp h
  exact State.steps_of_execute ht

theorem steps_of_step {m m' : Machine} {word : Word} (h : m.step word = .ok m') :
    m'.state.steps = m.state.steps + 1 := by
  obtain ⟨i, _, hi⟩ := step_eq_ok h
  exact steps_of_perform hi

theorem config_of_perform {m m' : Machine} {i : Instruction} (h : m.perform i = .ok m') :
    m'.config = m.config := by
  obtain ⟨t, _, rfl⟩ := perform_eq_ok_iff.mp h
  rfl

theorem config_of_step {m m' : Machine} {word : Word} (h : m.step word = .ok m') :
    m'.config = m.config := by
  obtain ⟨i, _, hi⟩ := step_eq_ok h
  exact config_of_perform hi

/-! ## Runs -/

section

variable {α : Type} {act : Machine → α → Except Fault Machine}

theorem runWith_cons_ok {m m' : Machine} {a : α} (h : act m a = .ok m') (as : List α) :
    runWith act m (a :: as) = runWith act m' as := by
  rw [runWith, h]

theorem runWith_cons_error {m : Machine} {a : α} {fault : Fault} (h : act m a = .error fault)
    (as : List α) : runWith act m (a :: as) = ⟨m, some fault⟩ := by
  rw [runWith, h]

/-- What each action keeps, the whole run keeps, also one that fails. -/
theorem runWith_invariant {P : Machine → Prop}
    (hact : ∀ m a m', P m → act m a = .ok m' → P m') :
    ∀ (as : List α) (m : Machine), P m → P (runWith act m as).machine := by
  intro as
  induction as with
  | nil => intro m hm; exact hm
  | cons a as ih =>
      intro m hm
      cases ha : act m a with
      | ok m' => rw [runWith_cons_ok ha]; exact ih m' (hact m a m' hm ha)
      | error fault => rw [runWith_cons_error ha]; exact hm

/-- A run without a fault counts one step for each action. -/
theorem steps_of_runWith (hact : ∀ m a m', act m a = .ok m' → m'.state.steps = m.state.steps + 1) :
    ∀ (as : List α) (m : Machine), (runWith act m as).fault = none →
      (runWith act m as).machine.state.steps = m.state.steps + as.length := by
  intro as
  induction as with
  | nil => intro m _; rfl
  | cons a as ih =>
      intro m h
      cases ha : act m a with
      | error fault => rw [runWith_cons_error ha] at h; contradiction
      | ok m' =>
          rw [runWith_cons_ok ha] at h ⊢
          rw [ih m' h, hact m a m' ha, List.length_cons]
          omega

/-- **A run that fails** succeeds up to one action, stays where that left it, and has the
fault of that action there. -/
theorem runWith_fault {fault : Fault} :
    ∀ (as : List α) (m : Machine), (runWith act m as).fault = some fault →
      ∃ (k : Nat) (a : α), as[k]? = some a
        ∧ (runWith act m (as.take k)).fault = none
        ∧ (runWith act m as).machine = (runWith act m (as.take k)).machine
        ∧ act (runWith act m (as.take k)).machine a = .error fault := by
  intro as
  induction as with
  | nil => intro m h; contradiction
  | cons a as ih =>
      intro m h
      cases ha : act m a with
      | error first =>
          -- nothing runs before the first action, so it fails where the run began
          rw [runWith_cons_error ha] at h
          obtain rfl := Option.some.inj h
          refine ⟨0, a, rfl, rfl, ?_, ha⟩
          rw [runWith_cons_error ha]
          rfl
      | ok m' =>
          rw [runWith_cons_ok ha] at h ⊢
          obtain ⟨k, b, hb, hfault, hmachine, herror⟩ := ih m' h
          refine ⟨k + 1, b, hb, ?_⟩
          rw [List.take_succ_cons, runWith_cons_ok ha]
          exact ⟨hfault, hmachine, herror⟩

end

/-- Performing instructions is running their words. -/
theorem run_encode : ∀ (is : List Instruction) (m : Machine),
    m.run (is.map Instruction.encode) = m.performAll is := by
  intro is
  induction is with
  | nil => intro m; rfl
  | cons i is ih =>
      intro m
      rw [run, performAll, List.map_cons]
      cases h : m.perform i with
      | ok m' =>
          rw [runWith_cons_ok h, runWith_cons_ok ((step_encode m i).trans h)]
          exact ih m'
      | error fault => rw [runWith_cons_error h, runWith_cons_error ((step_encode m i).trans h)]

theorem result_eq_ok_iff {r : Run} {summary : Summary} :
    r.result = .ok summary ↔ r.fault = none ∧ summary = r.machine.summary := by
  unfold Run.result
  cases r.fault with
  | none => simp [eq_comm]
  | some fault => simp

theorem result_eq_error_iff {r : Run} {fault : Fault} :
    r.result = .error fault ↔ r.fault = some fault := by
  unfold Run.result
  cases r.fault with
  | none => simp
  | some first => simp

theorem run_append (m : Machine) (xs ys : List Word) :
    m.run (xs ++ ys) = (m.run xs).andThen (·.run ys) := runWith_append step m xs ys

theorem run_append_of_ok {m left : Machine} {xs : List Word} (h : m.run xs = ⟨left, none⟩)
    (ys : List Word) : m.run (xs ++ ys) = left.run ys := by
  rw [run_append, h]
  rfl

theorem run_append_of_error {m : Machine} {xs : List Word} {fault : Fault}
    (h : (m.run xs).fault = some fault) (ys : List Word) : m.run (xs ++ ys) = m.run xs := by
  rw [run_append, Run.andThen, h]

/-- A run that succeeds, succeeds up to any word in it. -/
theorem run_ok_of_append {m : Machine} {xs ys : List Word} (h : (m.run (xs ++ ys)).fault = none) :
    (m.run xs).fault = none := by
  rw [run_append] at h
  unfold Run.andThen at h
  split at h
  · assumption
  · exact h

theorem steps_of_run {m : Machine} {words : List Word} (h : (m.run words).fault = none) :
    (m.run words).machine.state.steps = m.state.steps + words.length :=
  steps_of_runWith (fun _ _ _ => steps_of_step) words m h

/-- Steps are never taken back, whether the run fails or not. -/
theorem steps_le_of_run (m : Machine) (words : List Word) :
    m.state.steps ≤ (m.run words).machine.state.steps := by
  refine runWith_invariant (P := fun m' => m.state.steps ≤ m'.state.steps) ?_ words m (Nat.le_refl _)
  intro before word after hle hs
  have hone := steps_of_step hs
  omega

theorem config_of_run (m : Machine) (words : List Word) :
    (m.run words).machine.config = m.config :=
  runWith_invariant (P := fun m' => m'.config = m.config)
    (fun _ _ _ hm hs => (config_of_step hs).trans hm) words m rfl

theorem steps_of_performAll {m : Machine} {is : List Instruction}
    (h : (m.performAll is).fault = none) :
    (m.performAll is).machine.state.steps = m.state.steps + is.length :=
  steps_of_runWith (fun _ _ _ => steps_of_perform) is m h

theorem config_of_performAll (m : Machine) (is : List Instruction) :
    (m.performAll is).machine.config = m.config :=
  runWith_invariant (P := fun m' => m'.config = m.config)
    (fun _ _ _ hm hi => (config_of_perform hi).trans hm) is m rfl

/-- **Instructions fail at a power.** The index is the place of the instruction, counted on from
the steps before the run. -/
theorem performAll_fault {m : Machine} {is : List Instruction} {fault : Fault}
    (h : (m.performAll is).fault = some fault) :
    ∃ (k : Nat) (i : Instruction) (base exponent : Nat) (cause : PowerError),
      is[k]? = some i ∧ i.opcode = .pow
      ∧ power base exponent m.config.powLimit = .error cause
      ∧ fault = .pow (m.state.steps + k) cause := by
  obtain ⟨k, i, hi, hbefore, -, herror⟩ := runWith_fault is m h
  obtain ⟨hop, cause, hpow, rfl⟩ := perform_eq_error_iff.mp herror
  have hk : k < is.length := (List.getElem?_eq_some_iff.mp hi).1
  -- one step was counted for each instruction before the failing one, so its index is its place
  have hsteps := steps_of_performAll hbefore
  rw [List.length_take, Nat.min_eq_left (Nat.le_of_lt hk)] at hsteps
  have hconfig := config_of_performAll m (is.take k)
  rw [performAll] at hsteps hconfig
  rw [hconfig] at hpow
  exact ⟨k, i, _, _, cause, hi, hop, hpow, by rw [hsteps]⟩

/-! ## Reachable machines -/

/-- Whichever way a machine is fed, it ends where some words would have taken it. -/
theorem exists_run_of_feed (m : Machine) (f : Feed) :
    ∃ words, (m.feed f).machine = (m.run words).machine := by
  have hbytes : ∀ bytes, ∃ words, (m.runBytes bytes).machine = (m.run words).machine := by
    intro bytes
    unfold runBytes
    cases Program.ofBytes bytes with
    | ok p => exact ⟨p.code, rfl⟩
    -- bytes that are cut off inside a word run nothing
    | error cause => exact ⟨[], rfl⟩
  cases f with
  | word word =>
      refine ⟨[word], ?_⟩
      dsimp only [feed]
      cases h : m.step word with
      | ok m' => rw [run, runWith_cons_ok h]; rfl
      | error fault => rw [run, runWith_cons_error h]
  | words words => exact ⟨words, rfl⟩
  | program p => exact ⟨p.code, rfl⟩
  | bytes bytes => exact hbytes bytes
  | stream reads =>
      dsimp only [feed, runStream]
      cases Read.gather reads with
      | ok bytes => exact hbytes bytes
      | error text => exact ⟨[], rfl⟩

theorem create_eq_ok_iff {config : Config} {m : Machine} :
    create config = .ok m ↔ config.Valid ∧ m = fresh config := by
  unfold create
  rw [← Config.validate_eq_ok_iff]
  cases config.validate with
  | ok => simp [eq_comm]
  | error cause => simp

theorem reachable_fresh {config : Config} (h : config.Valid) : (fresh config).Reachable :=
  .created (create_eq_ok_iff.mpr ⟨h, rfl⟩)

/-- What a step keeps, feeding keeps, whether it succeeds or not. -/
theorem feed_invariant {P : Machine → Prop}
    (hstep : ∀ m word m', P m → m.step word = .ok m' → P m') {m : Machine} (h : P m) (f : Feed) :
    P (m.feed f).machine := by
  obtain ⟨words, hwords⟩ := exists_run_of_feed m f
  rw [hwords]
  exact runWith_invariant hstep words m h

theorem feedEach_invariant {P : Machine → Prop}
    (hstep : ∀ m word m', P m → m.step word = .ok m' → P m') {m : Machine} (h : P m)
    (feeds : List Feed) : P (m.feedEach feeds) := by
  induction feeds generalizing m with
  | nil => exact h
  | cons f feeds ih => exact ih (feed_invariant hstep h f)

/-- **What fresh machines have and steps keep, all reachable machines have.** -/
theorem Reachable.invariant {P : Machine → Prop}
    (hfresh : ∀ config : Config, config.Valid → P (fresh config))
    (hstep : ∀ m word m', P m → m.step word = .ok m' → P m')
    {m : Machine} (h : m.Reachable) : P m := by
  induction h with
  | created made =>
      obtain ⟨hvalid, rfl⟩ := create_eq_ok_iff.mp made
      exact hfresh _ hvalid
  | fed before f ih => exact feed_invariant hstep ih f

/-- A valid configuration, and the memory that it asks for. -/
structure WellFormed (m : Machine) : Prop where
  /-- The configuration is one that a machine is made from. -/
  valid : m.config.Valid
  /-- There are as many cells as it says. -/
  size : m.state.memory.size = m.config.memorySize

theorem WellFormed.nonempty {m : Machine} (h : m.WellFormed) : 0 < m.state.memory.size := by
  rw [h.size]; exact h.valid.memorySize_pos

theorem wellFormed_fresh {config : Config} (h : config.Valid) : (fresh config).WellFormed :=
  ⟨h, Memory.size_zeroed _⟩

theorem wellFormed_perform {m m' : Machine} {i : Instruction} (h : m.WellFormed)
    (hi : m.perform i = .ok m') : m'.WellFormed := by
  obtain ⟨t, ht, rfl⟩ := perform_eq_ok_iff.mp hi
  exact ⟨h.valid, (State.size_of_execute ht).trans h.size⟩

theorem wellFormed_step {m m' : Machine} {word : Word} (h : m.WellFormed)
    (hs : m.step word = .ok m') : m'.WellFormed := by
  obtain ⟨i, _, hi⟩ := step_eq_ok hs
  exact wellFormed_perform h hi

theorem wellFormed_run {m : Machine} (h : m.WellFormed) (words : List Word) :
    (m.run words).machine.WellFormed :=
  runWith_invariant (fun _ _ _ => wellFormed_step) words m h

theorem Reachable.wellFormed {m : Machine} (h : m.Reachable) : m.WellFormed :=
  h.invariant (fun _ => wellFormed_fresh) (fun _ _ _ => wellFormed_step)

end Machine

end AccumulatorMachine
