import AccumulatorMachine.Instruction
import Mathlib

/-!
# The ideal machine

The machine as it is meant, with nothing but natural numbers: a cell for every index below
the size, no step counter, no limit, and addresses reduced once, at the end. A word with
an unknown code has no successor; every other word has exactly one, however large the
power it asks for.

The actual machine is to be compared with this one, so nothing here goes through its
definitions: the four rules are stated on the word itself.
-/

namespace AccumulatorMachine

/-- An accumulator, and a value for every cell. -/
structure Ideal where
  accumulator : Nat
  cells : Nat → Nat

namespace Ideal

/-- The effect of one word on a machine with `size` cells. -/
def step (size : Nat) (s : Ideal) (word : Word) : Option Ideal :=
  let code := word.toNat % 256
  let x := word.toNat / 256
  if code = 66 then some { s with accumulator := x % 2 ^ 22 }
  else if code = 165 then some { s with accumulator := s.cells ((s.accumulator + x % 2 ^ 11) % size) }
  else if code = 187 then
    some { s with cells := fun i => if i = x % 2 ^ 23 % size then s.accumulator else s.cells i }
  else if code = 47 then some { s with accumulator := s.accumulator ^ s.cells (x % 2 ^ 23 % size) }
  else none

/-- Words in order, if all their codes are known. -/
def run (size : Nat) (s : Ideal) : List Word → Option Ideal
  | [] => some s
  | word :: words => (s.step size word).bind fun next => next.run size words

/-- A power that a machine with a given limit does not compute: the base is at least two and the
exponent has more than 32 bits, or the result has more bits than the limit. -/
def Refused (limit : Option Nat) (base exponent : Nat) : Prop :=
  (2 ≤ base ∧ 2 ^ 32 ≤ exponent) ∨ ∃ most, limit = some most ∧ 2 ^ most ≤ base ^ exponent

/-- No word of a run meets a refused power, as far as the run goes. -/
def Affordable (size : Nat) (limit : Option Nat) (s : Ideal) : List Word → Prop
  | [] => True
  | word :: words =>
    (word.toNat % 256 = 47 → ¬ Refused limit s.accumulator (s.cells (word.toNat / 256 % 2 ^ 23 % size))) ∧
      ∀ next, s.step size word = some next → next.Affordable size limit words

end Ideal

end AccumulatorMachine
