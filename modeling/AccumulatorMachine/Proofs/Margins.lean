import AccumulatorMachine.Proofs.LineGrammar

/-!
# What stands around a line

Blanks in front of a line are part of the gap before its first token. Behind a line there is
more to say, because tokens are as long as they can be and a quote runs on to the next blank:
what is added there must begin with a blank, so that it lengthens neither the last token nor a
quote, and there must be no token in it. A comment that the line has left open runs on into it,
so it must not hold a line feed. Whatever has these three properties (`Trailer`) may stand
behind any line and is not noticed: not by the instruction that is read, and not by the error,
with every word that it quotes (`parseLine_append`).

Blanks and a blank with a comment behind it are such trailers. Blanks are not noticed by
trimming either.
-/

namespace AccumulatorMachine.Source

/-! ## Behind a token -/

/-- A gap in front of something is a gap in front of something longer. -/
theorem Gap.append_right {gap rest : List Char} (h : Gap gap rest) (hne : rest ≠ [])
    (tail : List Char) : Gap gap (rest ++ tail) := by
  induction h with
  | nil => exact .nil
  | blank hblank _ ih => exact .blank hblank (ih hne)
  | comment hin hend _ ih =>
      refine .comment hin (Or.inr ?_) (ih hne)
      rcases hend with hnil | hhead
      · exact absurd (List.append_eq_nil_iff.mp hnil).2 hne
      · rw [← List.append_assoc, List.head?_append, hhead]
        rfl

/-- A token goes on only with the characters of names and numbers, so it stands in front of a
separator as it stood in front of nothing. -/
theorem Stands.append_right {token : Token} {rest tail : List Char} (h : Stands token rest)
    (htail : ∀ d ∈ tail.head?, SeparatorStart d) : Stands token (rest ++ tail) := by
  have hstop : ∀ {p : Char → Bool}, (∀ d, SeparatorStart d → ¬ p d) →
      (∀ d ∈ rest.head?, ¬ p d) → ∀ d ∈ (rest ++ tail).head?, ¬ p d := by
    intro p hsep hrest
    cases rest with
    | nil => exact fun d hd => hsep d (htail d hd)
    | cons c rest => exact hrest
  cases h with
  | name hstart hmore hrest =>
      exact .name hstart hmore (hstop (fun _ => not_isNameChar_of_separatorStart) hrest)
  | number hstart hmore hrest =>
      refine .number hstart hmore (hstop (fun _ hd hdigit => ?_) hrest)
      exact not_isNameChar_of_separatorStart hd (isNameChar_of_isDigit hdigit)
  | stray hsep hname hdigit => exact .stray hsep hname hdigit

/-- **The next token is not lengthened** by what begins with a separator. -/
theorem next?_append_of_some {text rest tail : List Char} {token : Token}
    (h : next? text = some (token, rest)) (htail : ∀ d ∈ tail.head?, SeparatorStart d) :
    next? (text ++ tail) = some (token, rest ++ tail) := by
  have hne := text_ne_nil_of_next? h
  obtain ⟨gap, rfl, hgap, hstands⟩ := next?_eq_some_iff.mp h
  refine next?_eq_some_iff.mpr ⟨gap, by simp, ?_, hstands.append_right htail⟩
  rw [← List.append_assoc]
  exact hgap.append_right (List.append_ne_nil_of_left_ne_nil hne rest) tail

/-- A quote ends at the first blank. -/
theorem quote_append (token : Token) (rest : List Char) {tail : List Char}
    (htail : ∀ d ∈ tail.head?, Text.isBlank d) : quote token (rest ++ tail) = quote token rest := by
  unfold quote Text.wordAt
  rw [← List.append_assoc, Lists.takeWhile_append_of_stop]
  intro d hd
  simpa using htail d hd

/-! ## Behind a line -/

/-- What may stand behind a line, whatever the line is. -/
structure Trailer (tail : List Char) : Prop where
  /-- Nothing of it is taken for the end of a token or of a quote. -/
  head : ∀ d ∈ tail.head?, Text.isBlank d
  /-- No token is in it. -/
  gap : Gap tail []
  /-- A comment that is still open does not end in it. -/
  noFeed : '\n' ∉ tail

theorem Trailer.separator {tail : List Char} (h : Trailer tail) :
    ∀ d ∈ tail.head?, SeparatorStart d := fun d hd => Or.inl (h.head d hd)

/-- A text that is all gap stays one. -/
theorem Gap.append_trailer {gap rest tail : List Char} (h : Gap gap rest) (hrest : rest = [])
    (ht : Trailer tail) : Gap (gap ++ tail) [] := by
  induction h with
  | nil => exact ht.gap
  | blank hblank _ ih => exact .blank hblank (ih hrest)
  | @comment body gap rest hin hend hmore ih =>
      rcases gap with _ | ⟨c, gap⟩
      -- the comment was open at the end of the text, and all of the trailer falls into it
      · have hbody : '\n' ∉ body ++ tail := by
          rw [List.mem_append, not_or]
          exact ⟨hin, ht.noFeed⟩
        have hcomment : Gap ('#' :: (body ++ tail) ++ []) [] := .comment hbody (Or.inl rfl) .nil
        simpa using hcomment
      · rw [List.append_assoc]
        refine .comment hin (Or.inr ?_) (ih hrest)
        rcases hend with hnil | hhead
        · contradiction
        · exact hhead

theorem next?_append_of_none {text tail : List Char} (h : next? text = none) (ht : Trailer tail) :
    next? (text ++ tail) = none :=
  next?_eq_none_iff.mpr ((next?_eq_none_iff.mp h).append_trailer rfl ht)

theorem parseFirst_append (token : Token) (rest : List Char) {tail : List Char}
    (htail : ∀ d ∈ tail.head?, Text.isBlank d) :
    parseFirst token (rest ++ tail) = parseFirst token rest := by
  obtain ⟨kind, text⟩ := token
  cases kind with
  | name => rfl
  | number => unfold parseFirst; rw [quote_append _ _ htail]
  | stray => unfold parseFirst; rw [quote_append _ _ htail]

theorem parseLiteral_append (opcode : Opcode) (text : List Char) {tail : List Char}
    (ht : Trailer tail) : parseLiteral opcode (text ++ tail) = parseLiteral opcode text := by
  unfold parseLiteral
  rcases hnext : next? text with _ | ⟨⟨kind, digits⟩, rest⟩
  · rw [next?_append_of_none hnext ht]
  · rw [next?_append_of_some hnext ht.separator]
    cases kind with
    | name => dsimp only; rw [quote_append _ _ ht.head]
    | stray => dsimp only; rw [quote_append _ _ ht.head]
    | number =>
        dsimp only
        rcases hlast : next? rest with _ | ⟨token, last⟩
        · rw [next?_append_of_none hlast ht]
        · rw [next?_append_of_some hlast ht.separator]
          dsimp only
          rw [quote_append _ _ ht.head]

/-- **A trailer is not noticed**, neither in what a line holds nor in what is wrong with it. -/
theorem parseLine_append (text : List Char) {tail : List Char} (ht : Trailer tail) :
    parseLine (text ++ tail) = parseLine text := by
  unfold parseLine
  rcases hnext : next? text with _ | ⟨token, rest⟩
  · rw [next?_append_of_none hnext ht]
  · rw [next?_append_of_some hnext ht.separator]
    dsimp only
    simp only [parseFirst_append _ _ ht.head, parseLiteral_append _ _ ht]

/-- What is read of a line is read of its tokens. -/
theorem Gap.parseLine_append {gap rest : List Char} (h : Gap gap rest) :
    parseLine (gap ++ rest) = parseLine rest := by
  unfold parseLine
  rw [h.next?_append]

/-! ## Blanks and comments around a line -/

theorem gap_of_blanks {text : List Char} (h : ∀ c ∈ text, Text.isBlank c) (rest : List Char) :
    Gap text rest := by
  induction text with
  | nil => exact .nil
  | cons c text ih =>
      obtain ⟨hc, htext⟩ := List.forall_mem_cons.mp h
      exact .blank hc (ih htext)

/-- Blanks inside a line. -/
def Margin (text : List Char) : Prop := ∀ c ∈ text, Text.isBlank c ∧ c ≠ '\n'

instance (text : List Char) : Decidable (Margin text) := List.decidableBAll _ text

theorem Margin.append {xs ys : List Char} (hxs : Margin xs) (hys : Margin ys) :
    Margin (xs ++ ys) := by
  intro c hc
  rcases List.mem_append.mp hc with h | h
  · exact hxs c h
  · exact hys c h

theorem margin_nil : Margin [] := fun _ hc => absurd hc List.not_mem_nil

theorem margin_return : Margin ['\r'] := by
  intro c hc
  rw [List.mem_singleton.mp hc]
  decide

theorem Margin.gap {text : List Char} (h : Margin text) (rest : List Char) : Gap text rest :=
  gap_of_blanks (fun c hc => (h c hc).1) rest

theorem Margin.noFeed {text : List Char} (h : Margin text) : '\n' ∉ text :=
  fun hfeed => (h _ hfeed).2 rfl

theorem Margin.trailer {text : List Char} (h : Margin text) : Trailer text where
  head := fun d hd => (h d (List.mem_of_head? hd)).1
  gap := h.gap []
  noFeed := h.noFeed

theorem trailer_comment {comment : List Char} (h : '\n' ∉ comment) :
    Trailer (' ' :: '#' :: comment) where
  head := by
    intro d hd
    obtain rfl : ' ' = d := Option.some.inj hd
    decide
  gap := by
    have hcomment : Gap ('#' :: comment ++ []) [] := .comment h (Or.inl rfl) .nil
    rw [List.append_nil] at hcomment
    exact .blank (by decide) hcomment
  noFeed := by simpa using h

theorem parseLine_margins {before after : List Char} (hbefore : Margin before)
    (hafter : Margin after) (line : List Char) :
    parseLine (before ++ line ++ after) = parseLine line := by
  rw [parseLine_append _ hafter.trailer, (hbefore.gap line).parseLine_append]

theorem trim_margins {before after : List Char} (hbefore : Margin before)
    (hafter : Margin after) (line : List Char) :
    Text.trim (before ++ line ++ after) = Text.trim line := by
  have hfront : (before ++ line ++ after).dropWhile Text.isBlank
      = (line ++ after).dropWhile Text.isBlank := by
    rw [List.append_assoc, List.dropWhile_append_of_pos (fun c hc => (hbefore c hc).1)]
  have hall : after.dropWhile Text.isBlank = [] :=
    List.dropWhile_eq_nil_iff.mpr (fun c hc => (hafter c hc).1)
  unfold Text.trim
  rw [hfront, List.dropWhile_append, hall]
  split
  -- a line that is all blank has nothing left in front of the blanks behind it
  · rename_i hempty
    rw [List.isEmpty_iff.mp hempty]
  · rw [List.reverse_append, List.dropWhile_append_of_pos]
    intro c hc
    exact (hafter c (List.mem_reverse.mp hc)).1

end AccumulatorMachine.Source
