import AccumulatorMachine.Text.Lines
import Mathlib

/-!
# Splitting into lines

`Text.lines` looks at one character at a time and prepends it to whatever the rest turns out
to be. What it does to a whole line is easier to say: up to the next line feed everything is
one line, without a carriage return at its very end (`lines_append_feed`), and text without a
line feed is a line as it stands (`lines_of_no_feed`). So lines that are not empty and end in
no carriage return come back when they are joined and split again.
-/

namespace AccumulatorMachine.Text

/-- A line without the carriage return at its end, if there is one. -/
def chomp (line : List Char) : List Char :=
  if line.getLast? = some '\r' then line.dropLast else line

theorem chomp_of_no_return {line : List Char} (h : line.getLast? ≠ some '\r') :
    chomp line = line := by
  unfold chomp; rw [if_neg h]

theorem chomp_cons {line : List Char} (hne : line ≠ []) (c : Char) :
    chomp (c :: line) = c :: chomp line := by
  obtain ⟨d, rest, rfl⟩ := List.exists_cons_of_ne_nil hne
  unfold chomp
  rw [List.getLast?_cons_cons]
  split
  · rfl
  · rfl

theorem chomp_singleton {c : Char} (h : c ≠ '\r') : chomp [c] = [c] :=
  chomp_of_no_return (by simpa using h)

/-- A character that neither is a line feed nor stands before one belongs to the line after it. -/
theorem lines_cons {c : Char} {rest : List Char} (hc : c ≠ '\n')
    (hcr : c = '\r' → rest.head? ≠ some '\n') :
    lines (c :: rest) = match lines rest with
      | [] => [[c]]
      | line :: more => (c :: line) :: more := by
  have hpair : ∀ tail, c = '\r' → rest = '\n' :: tail → False := by
    intro tail hret hrest
    rw [hrest] at hcr
    exact hcr hret rfl
  exact lines.eq_4 c rest hc hpair

/-- **Up to the next line feed** there is one line. -/
theorem lines_append_feed {line : List Char} (hfeed : '\n' ∉ line) (rest : List Char) :
    lines (line ++ '\n' :: rest) = chomp line :: lines rest := by
  induction line with
  | nil => rw [List.nil_append, lines]; rfl
  | cons c tail ih =>
      obtain ⟨hc, htail⟩ := List.ne_and_not_mem_of_not_mem_cons hfeed
      rcases tail with _ | ⟨d, tail⟩
      -- a carriage return right before the line feed is dropped, one before that is not
      · by_cases hret : c = '\r'
        · subst hret
          rw [List.cons_append, List.nil_append, lines]
          rfl
        · rw [List.cons_append, List.nil_append, lines_cons (Ne.symm hc) (fun h => absurd h hret),
            lines, chomp_singleton hret]
      · have hd : (d :: tail ++ '\n' :: rest).head? ≠ some '\n' := by
          rw [List.cons_append, List.head?_cons]
          intro h
          exact htail (Option.some.inj h ▸ List.mem_cons_self)
        rw [List.cons_append, lines_cons (Ne.symm hc) (fun _ => hd), ih htail,
          chomp_cons (List.cons_ne_nil _ _)]

/-- Text without a line feed is one line, or none. -/
theorem lines_of_no_feed {line : List Char} (hne : line ≠ []) (hfeed : '\n' ∉ line) :
    lines line = [line] := by
  induction line with
  | nil => exact absurd rfl hne
  | cons c tail ih =>
      obtain ⟨hc, htail⟩ := List.ne_and_not_mem_of_not_mem_cons hfeed
      have hhead : tail.head? ≠ some '\n' := fun h => htail (List.mem_of_head? h)
      rw [lines_cons (Ne.symm hc) (fun _ => hhead)]
      rcases tail with _ | ⟨d, tail⟩
      · rfl
      · rw [ih (List.cons_ne_nil _ _) htail]

/-- A line that splitting leaves alone. -/
structure Plain (line : List Char) : Prop where
  nonempty : line ≠ []
  noFeed : '\n' ∉ line
  noReturn : line.getLast? ≠ some '\r'

/-- **Joining and splitting** gives the same lines. -/
theorem lines_intercalate : ∀ (ls : List (List Char)), (∀ line ∈ ls, Plain line) →
    lines (['\n'].intercalate ls) = ls := by
  intro ls
  induction ls with
  | nil => intro _; rfl
  | cons line ls ih =>
      intro h
      obtain ⟨hline, hls⟩ := List.forall_mem_cons.mp h
      rcases ls with _ | ⟨next, ls⟩
      · rw [List.intercalate_singleton]
        exact lines_of_no_feed hline.nonempty hline.noFeed
      · rw [List.intercalate_cons_cons, List.append_assoc, List.singleton_append,
          lines_append_feed hline.noFeed, chomp_of_no_return hline.noReturn, ih hls]

end AccumulatorMachine.Text
