import AccumulatorMachine.Proofs.Run
import AccumulatorMachine.Proofs.Words

/-!
# A limit on powers limits every number

The limit is looked at in one place only, where a power is computed, and not even for all
powers. Numbers get into a machine in two ways, though: as the constant of a word, which has
22 bits at most, and as the result of a power. Everything else moves numbers around. So all of
them, in the accumulator and in every cell, stay within the limit or those 22 bits, whichever
is more (`State.Within`), and the powers that skip the check are zero or one.
-/

namespace AccumulatorMachine

namespace State

/-- No number is longer than a width. -/
structure Within (width : Nat) (s : State) : Prop where
  /-- The accumulator is not. -/
  accumulator : bitLength s.accumulator ≤ width
  /-- No cell is. -/
  cells : ∀ index, bitLength (s.memory.cell index) ≤ width

theorem Within.load {width : Nat} {s : State} (h : s.Within width) (address : Nat) :
    bitLength (s.memory.load address) ≤ width := by
  rw [Memory.load_eq_cell]
  exact h.cells _

/-- **An instruction keeps every number within the limit and the length of a constant.** -/
theorem within_of_execute {width most : Nat} {i : Instruction} {s t : State}
    (hconstant : 22 ≤ width) (hmost : most ≤ width) (hsize : 0 < s.memory.size)
    (h : execute (some most) i s = .ok t) (hs : s.Within width) : t.Within width := by
  rcases execute_cases h with ⟨hop, rfl⟩ | ⟨-, rfl⟩ | ⟨-, rfl⟩ | ⟨-, result, hpow, rfl⟩
  · refine ⟨?_, hs.cells⟩
    have hlt := i.significant_lt
    rw [Opcode.operandCount_eq_two_pow, hop] at hlt
    exact Nat.le_trans (bitLength_le_of_lt hlt) hconstant
  · exact ⟨hs.load _, hs.cells⟩
  · refine ⟨hs.accumulator, ?_⟩
    intro index
    dsimp only [advance]
    rw [Memory.cell_store _ _ _ _ hsize]
    split
    · exact hs.accumulator
    · exact hs.cells index
  · refine ⟨?_, hs.cells⟩
    have hlength := bitLength_of_power hpow
    dsimp only [advance]
    omega

end State

namespace Machine

/-- What a machine with a limit keeps. -/
structure Limited (config : Config) (most : Nat) (m : Machine) : Prop where
  /-- Its configuration. -/
  config : m.config = config
  /-- As many cells as the configuration says, and at least one. -/
  wellFormed : m.WellFormed
  /-- Numbers within the limit and the length of a constant. -/
  within : m.state.Within (max 22 most)

theorem limited_fresh {config : Config} (h : config.Valid) (most : Nat) :
    (fresh config).Limited config most where
  config := rfl
  wellFormed := wellFormed_fresh h
  within := by
    refine ⟨Nat.zero_le _, ?_⟩
    intro index
    unfold fresh
    dsimp only
    rw [Memory.cell_zeroed]
    exact Nat.zero_le _

theorem limited_step {config : Config} {most : Nat} (hlimit : config.powLimit = some most)
    {m m' : Machine} {word : Word} (h : m.Limited config most) (hs : m.step word = .ok m') :
    m'.Limited config most where
  config := (config_of_step hs).trans h.config
  wellFormed := wellFormed_step h.wellFormed hs
  within := by
    obtain ⟨i, -, hi⟩ := step_eq_ok hs
    obtain ⟨t, ht, rfl⟩ := perform_eq_ok_iff.mp hi
    rw [h.config, hlimit] at ht
    exact State.within_of_execute (by omega) (by omega) h.wellFormed.nonempty ht h.within

/--
**The limit on powers bounds the whole machine.**

A machine made with a limit keeps its configuration and its number of cells, whatever it is fed
and whether or not it fails on it, and no number in it ever has more bits than the limit or the
constant of a word.
-/
theorem powLimit_bounds_machine {config : Config} {most : Nat} {m : Machine}
    (hm : create config = .ok m) (hlimit : config.powLimit = some most) (feeds : List Feed) :
    (m.feedEach feeds).config = config
    ∧ 1 ≤ config.memorySize
    ∧ (m.feedEach feeds).state.memory.size = config.memorySize
    ∧ bitLength (m.feedEach feeds).state.accumulator ≤ max 22 most
    ∧ ∀ index, bitLength ((m.feedEach feeds).state.memory.cell index) ≤ max 22 most := by
  obtain ⟨hvalid, rfl⟩ := create_eq_ok_iff.mp hm
  have h : ((fresh config).feedEach feeds).Limited config most :=
    feedEach_invariant (fun _ _ _ => limited_step hlimit) (limited_fresh hvalid most) feeds
  have hsize := h.wellFormed.size
  rw [h.config] at hsize
  exact ⟨h.config, hvalid.memorySize_pos, hsize, h.within.accumulator, h.within.cells⟩

/-- A limit of thirty bits is reached, and held against an unknown code, a byte string that is cut
short, a power that is refused and a reader that fails. -/
theorem powLimit_bounds_machine_thirty_bits :
    create ⟨2, some 30⟩ = .ok (fresh ⟨2, some 30⟩)
    ∧ ((fresh ⟨2, some 30⟩).feedEach [.words [1073741634, 187], .word 256, .bytes [66, 0, 0],
          .words [7490, 443, 578, 303, 443], .word 303, .stream [.failed "cut off"]]).state
        = ⟨2 ^ 29, ⟨#[4194303, 2 ^ 29]⟩, 7⟩
    ∧ bitLength (2 ^ 29) ≤ max 22 30
    ∧ bitLength ((⟨#[4194303, 2 ^ 29]⟩ : Memory).cell 0) ≤ max 22 30 := by
  have hmade : create ⟨2, some 30⟩ = .ok (fresh ⟨2, some 30⟩) := by rfl
  have hstate : ((fresh ⟨2, some 30⟩).feedEach [.words [1073741634, 187], .word 256,
      .bytes [66, 0, 0], .words [7490, 443, 578, 303, 443], .word 303,
      .stream [.failed "cut off"]]).state = ⟨2 ^ 29, ⟨#[4194303, 2 ^ 29]⟩, 7⟩ := by rfl
  obtain ⟨-, -, -, haccumulator, hcells⟩ := powLimit_bounds_machine hmade rfl
    [.words [1073741634, 187], .word 256, .bytes [66, 0, 0], .words [7490, 443, 578, 303, 443],
      .word 303, .stream [.failed "cut off"]]
  rw [hstate] at haccumulator hcells
  exact ⟨hmade, hstate, haccumulator, hcells 0⟩

end Machine

end AccumulatorMachine
