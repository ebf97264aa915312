import AccumulatorMachine.Proofs.Concatenation

/-!
# Layout

The same source can be written in many ways: with line feeds alone or with carriage returns in
front of them, indented, with blanks left over at the ends of lines, with empty lines at its end,
with comments. The first four come to the same pass, instruction for instruction and, if there is
an error, word for word: they change every line into one that reads alike. A comment is part of
the line that an error shows, so behind a wrong line it shows there, and nowhere else.

A source is given here by the pieces between its line feeds. Each of them can be changed, all at
once, and each in its own way.
-/

namespace AccumulatorMachine.Source

/-! ## Changes to a text -/

/-- A text with a carriage return in front of every line feed. -/
def withReturns (text : List Char) : List Char :=
  text.flatMap fun c => if c = '\n' then ['\r', '\n'] else [c]

/-- The text with given pieces between its line feeds. -/
def joined (pieces : List (List Char)) : String := .ofList (['\n'].intercalate pieces)

/-- Blanks are added at the ends of a line. A carriage return before the line feed may count as
part of the line or not. -/
inductive Padded : List Char → List Char → Prop
  | line (line : List Char) {before after : List Char} (front : Margin before)
      (back : Margin after) : Padded line (before ++ line ++ after)
  | beforeReturn (line : List Char) {before after : List Char} (front : Margin before)
      (back : Margin after) : Padded (line ++ ['\r']) (before ++ line ++ after ++ ['\r'])

/-- A comment is added at the end of a line, or none. A carriage return before the line feed may
count as part of the line or not. -/
inductive Commented : List Char → List Char → Prop
  | without (line : List Char) : Commented line line
  | line (line : List Char) {comment : List Char} (inside : '\n' ∉ comment) :
      Commented line (line ++ ' ' :: '#' :: comment)
  | beforeReturn (line : List Char) {comment : List Char} (inside : '\n' ∉ comment) :
      Commented (line ++ ['\r']) (line ++ ' ' :: '#' :: comment ++ ['\r'])

/-! ## Changes to a line -/

theorem Padded.readAlike {line line' : List Char} (h : Padded line line') :
    ReadAlike line' line := by
  cases h with
  | line _ hbefore hafter => exact readAlike_margins hbefore hafter line
  | beforeReturn line hbefore hafter =>
      rw [List.append_assoc _ _ ['\r']]
      exact (readAlike_margins hbefore (hafter.append margin_return) line).trans
        (readAlike_append_return line).symm

theorem Padded.noFeed {line line' : List Char} (h : Padded line line') (hline : '\n' ∉ line) :
    '\n' ∉ line' := by
  cases h with
  | line _ hbefore hafter =>
      simp only [List.mem_append, not_or]
      exact ⟨⟨hbefore.noFeed, hline⟩, hafter.noFeed⟩
  | beforeReturn line hbefore hafter =>
      simp only [List.mem_append, not_or] at hline ⊢
      exact ⟨⟨⟨hbefore.noFeed, hline.1⟩, hafter.noFeed⟩, hline.2⟩

theorem Commented.parseLine_eq {line line' : List Char} (h : Commented line line') :
    parseLine line' = parseLine line := by
  cases h with
  | without => rfl
  | line _ hin => exact parseLine_append line (trailer_comment hin)
  | @beforeReturn line comment hin =>
      -- the carriage return falls into the comment
      have hcomment : '\n' ∉ comment ++ ['\r'] := by simpa using hin
      have h := parseLine_append line (trailer_comment hcomment)
      rw [(readAlike_append_return line).parse, ← h]
      simp

theorem Commented.noFeed {line line' : List Char} (h : Commented line line')
    (hline : '\n' ∉ line) : '\n' ∉ line' := by
  cases h with
  | without => exact hline
  | line _ hin => simp [hline, hin]
  | beforeReturn line hin =>
      rw [List.mem_append, not_or] at hline
      simp [hline.1, hin]

/-! ## Changes to all lines -/

/-- The pass over a text that is given by its pieces. -/
theorem pass_joined {pieces : List (List Char)} (hne : pieces ≠ [])
    (hfeed : ∀ piece ∈ pieces, '\n' ∉ piece) : pass (joined pieces) = encodeLines 1 pieces := by
  unfold joined
  rw [pass_eq, String.toList_ofList, List.splitOn_intercalate '\n' hfeed hne]

/-- Related passes come of lines that are changed one by one, without a line feed. -/
theorem related_pass_joined {R : List Char → List Char → Prop}
    (hparse : ∀ line line', R line line' → parseLine line = parseLine line')
    (hfeed : ∀ line line', R line line' → '\n' ∉ line → '\n' ∉ line') {source : String}
    {pieces : List (List Char)} (h : List.Forall₂ R (source.toList.splitOn '\n') pieces) :
    Pass.Related R (pass source) (pass (joined pieces)) := by
  have hne : pieces ≠ [] := by
    rintro rfl
    exact List.splitOn_ne_nil '\n' source.toList (List.forall₂_nil_right_iff.mp h)
  have hpieces : ∀ piece ∈ pieces, '\n' ∉ piece := by
    intro piece hpiece
    obtain ⟨k, hk, rfl⟩ := List.mem_iff_getElem.mp hpiece
    have hline : k < (source.toList.splitOn '\n').length := by rw [h.length_eq]; exact hk
    exact hfeed _ _ (h.get hline hk) (Lists.not_mem_of_mem_splitOn _ _ _ (List.getElem_mem hline))
  rw [pass_joined hne hpieces, pass_eq]
  exact related_of_forall₂ hparse h 1

theorem withReturns_feed (text : List Char) :
    withReturns ('\n' :: text) = ['\r'] ++ '\n' :: withReturns text := rfl

theorem withReturns_cons {c : Char} (hc : c ≠ '\n') (text : List Char) :
    withReturns (c :: text) = c :: withReturns text := by
  unfold withReturns
  rw [List.flatMap_cons, if_neg hc, List.singleton_append]

/-- The carriage returns are at the ends of the lines that have line feeds behind them. -/
theorem forall₂_withReturns (text : List Char) :
    List.Forall₂ (fun line' line => line' = line ∨ line' = line ++ ['\r'])
      ((withReturns text).splitOn '\n') (text.splitOn '\n') := by
  induction text with
  | nil => exact .cons (Or.inl rfl) .nil
  | cons c text ih =>
      rw [List.splitOn_cons_eq_if_modifyHead c]
      by_cases hc : c = '\n'
      · subst hc
        rw [withReturns_feed, List.splitOn_append_cons_self_of_not_mem (by decide),
          if_pos (by simp)]
        exact .cons (Or.inr rfl) ih
      -- another character goes to the front of the first line on both sides
      · rw [withReturns_cons hc, List.splitOn_cons_eq_if_modifyHead, if_neg (by simpa using hc),
          if_neg (by simpa using hc)]
        generalize (withReturns text).splitOn '\n' = lines' at ih ⊢
        generalize text.splitOn '\n' = lines at ih ⊢
        cases ih with
        | nil => exact .nil
        | cons hline hlines =>
            refine .cons ?_ hlines
            rcases hline with rfl | rfl
            · exact Or.inl rfl
            · exact Or.inr rfl

theorem pass_withReturns (source : String) :
    pass (.ofList (withReturns source.toList)) = pass source := by
  rw [pass_eq, pass_eq, String.toList_ofList]
  refine encodeLines_of_forall₂ ((forall₂_withReturns source.toList).imp ?_) 1
  rintro line' line (rfl | rfl)
  · exact ⟨rfl, rfl⟩
  · exact readAlike_append_return line

/-- A line feed at the end is one in front of an empty source. -/
theorem pass_append_feeds (source : String) (count : Nat) :
    pass (source ++ .ofList (List.replicate count '\n')) = pass source := by
  induction count with
  | zero => exact congrArg pass String.append_empty
  | succ count ih =>
      have htext : source ++ .ofList (List.replicate (count + 1) '\n')
          = source ++ .ofList (List.replicate count '\n') ++ "\n" ++ "" := by
        rw [List.replicate_succ', String.ofList_append, ← String.append_assoc]
        exact String.append_empty.symm
      have hempty : (pass "").moved (1 + (source
          ++ .ofList (List.replicate count '\n')).toList.count '\n') = {} := rfl
      rw [htext, pass_append, hempty, ih]
      exact Pass.andThen_nothing (pass source)

theorem Pass.Related.result_ok {R : List Char → List Char → Prop} {p p' : Pass}
    (h : Related R p p') {a : Assembly} (ha : p.result = .ok a) : p'.result = .ok a := by
  cases h with
  | finished numbers assembly => exact ha
  | stopped numbers assembly number cause hR => contradiction

theorem Pass.Related.result_error {R : List Char → List Char → Prop} {p p' : Pass}
    (h : Related R p p') {number : Nat} {text : String} {cause : SourceError}
    (herror : p.result = .error (.atLine number text cause)) :
    ∃ text', p'.result = .error (.atLine number text' cause) := by
  cases h with
  | finished numbers assembly => contradiction
  | stopped numbers assembly number cause hR =>
      obtain ⟨rfl, -, rfl⟩ := SourceError.atLine.inj (Except.error.inj herror)
      exact ⟨_, rfl⟩

/--
**Layout changes nothing, and comments next to nothing.**

A source is assembled to the same result, program, trace or error, if its line feeds get carriage
returns in front of them, if blanks are added at the ends of its lines, to as many of them as one
likes, and if line feeds are added at its end. If comments are added at the ends of its lines, the
result is the same but for the text of the line in an error.
-/
theorem layout_changes_nothing (source : String) :
    assemble (.ofList (withReturns source.toList)) = assemble source
    ∧ (∀ pieces, List.Forall₂ Padded (source.toList.splitOn '\n') pieces →
        assemble (joined pieces) = assemble source)
    ∧ (∀ count, assemble (source ++ .ofList (List.replicate count '\n')) = assemble source)
    ∧ ∀ pieces, List.Forall₂ Commented (source.toList.splitOn '\n') pieces →
        (∀ a, assemble source = .ok a → assemble (joined pieces) = .ok a)
        ∧ ∀ number text cause, assemble source = .error (.atLine number text cause) →
            ∃ text', assemble (joined pieces) = .error (.atLine number text' cause) := by
  unfold assemble
  refine ⟨?_, ?_, ?_, ?_⟩
  · rw [pass_withReturns]
  · intro pieces h
    have hrelated := related_pass_joined (fun _ _ hline => hline.readAlike.parse.symm)
      (fun _ _ hline => hline.noFeed) h
    rw [hrelated.eq (fun _ _ hline => hline.readAlike.trim.symm)]
  · intro count
    rw [pass_append_feeds]
  · intro pieces h
    have hrelated := related_pass_joined (fun _ _ hline => hline.parseLine_eq.symm)
      (fun _ _ hline => hline.noFeed) h
    exact ⟨fun a => hrelated.result_ok, fun number text cause => hrelated.result_error⟩

/-- A right line with a comment and a wrong one, first between Unicode blanks and then with one
comment more on each of them; and a line with a carriage return, in front of which a comment is
added. -/
theorem layout_changes_nothing_two_lines :
    assemble (joined ["\u3000LOAD_CONST 5 # five\t".toList, "\x0b POW 3.14\xa0".toList])
        = .error (.atLine 2 "POW 3.14" (.inLine (.malformedOperand "POW" (.trailing ".14"))))
    ∧ (∃ text', assemble (joined ["LOAD_CONST 5 # five # 5".toList, "POW 3.14 #pi".toList])
        = .error (.atLine 2 text' (.inLine (.malformedOperand "POW" (.trailing ".14")))))
    ∧ assemble (joined ["POW 7 # seven\r".toList, "".toList])
        = .ok ⟨⟨[0x072F]⟩, [⟨"POW", 47, 7, 0x072F⟩]⟩ := by
  have hwrong : assemble "LOAD_CONST 5 # five\nPOW 3.14"
      = .error (.atLine 2 "POW 3.14" (.inLine (.malformedOperand "POW" (.trailing ".14")))) := by
    rfl
  have hright : assemble "POW 7\r\n" = .ok ⟨⟨[0x072F]⟩, [⟨"POW", 47, 7, 0x072F⟩]⟩ := by rfl
  have hpieces : "LOAD_CONST 5 # five\nPOW 3.14".toList.splitOn '\n'
      = ["LOAD_CONST 5 # five".toList, "POW 3.14".toList] := by rfl
  have hreturn : "POW 7\r\n".toList.splitOn '\n' = ["POW 7".toList ++ ['\r'], []] := by rfl
  obtain ⟨-, hpadded, -, hcommented⟩ := layout_changes_nothing "LOAD_CONST 5 # five\nPOW 3.14"
  obtain ⟨-, -, -, hadded⟩ := layout_changes_nothing "POW 7\r\n"
  rw [hpieces] at hpadded hcommented
  rw [hreturn] at hadded
  refine ⟨?_, ?_, ?_⟩
  · rw [← hwrong]
    have hfirst : Padded "LOAD_CONST 5 # five".toList
        (['\u3000'] ++ "LOAD_CONST 5 # five".toList ++ ['\t']) :=
      .line _ (by decide) (by decide)
    have hsecond : Padded "POW 3.14".toList (['\x0b', ' '] ++ "POW 3.14".toList ++ ['\xa0']) :=
      .line _ (by decide) (by decide)
    exact hpadded _ (.cons hfirst (.cons hsecond .nil))
  · have hfirst : Commented "LOAD_CONST 5 # five".toList
        ("LOAD_CONST 5 # five".toList ++ ' ' :: '#' :: " 5".toList) := .line _ (by decide)
    have hsecond : Commented "POW 3.14".toList ("POW 3.14".toList ++ ' ' :: '#' :: "pi".toList) :=
      .line _ (by decide)
    exact (hcommented _ (.cons hfirst (.cons hsecond .nil))).2 2 _ _ hwrong
  · have hfirst : Commented ("POW 7".toList ++ ['\r'])
        ("POW 7".toList ++ ' ' :: '#' :: " seven".toList ++ ['\r']) := .beforeReturn _ (by decide)
    exact (hadded _ (.cons hfirst (.cons (.without []) .nil))).1 _ hright

end AccumulatorMachine.Source
