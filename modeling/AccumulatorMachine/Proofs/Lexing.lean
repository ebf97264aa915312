import AccumulatorMachine.Proofs.Lists
import AccumulatorMachine.Source.Grammar
import AccumulatorMachine.Source.Token

/-!
# What the next token is

`dropGap` and `takeGap` walk over a text with a flag for an open comment. Here they are
compared with `Gap`, which knows no flag: what `takeGap` takes is a gap in front of what
`dropGap` leaves, and a gap, wherever it stands, is dropped without a trace. From these two
facts comes the one statement about tokens that everything after this module uses,
`next?_eq_some_iff`: the next token is the one that stands behind a gap, made of the right
characters and as long as it can be. A text has no next token just when it is all gap.
-/

namespace AccumulatorMachine.Source

/-! ## Characters -/

/-- What begins a separator: a blank, or the mark of a comment. -/
def SeparatorStart (c : Char) : Prop := Text.isBlank c ∨ c = '#'

/-- All that begins a separator lies outside the range of names and numbers. -/
theorem toNat_of_separatorStart {c : Char} (h : SeparatorStart c) :
    c.toNat ≤ 35 ∨ 133 ≤ c.toNat := by
  rcases h with hblank | rfl
  · simp only [Text.isBlank, Text.blankRanges, List.any_cons, List.any_nil, Bool.or_eq_true,
      Bool.and_eq_true, decide_eq_true_eq, Bool.false_eq_true, or_false] at hblank
    omega
  · exact Or.inl (by decide)

theorem toNat_of_isNameStart {c : Char} (h : isNameStart c) : 65 ≤ c.toNat ∧ c.toNat ≤ 122 := by
  simp only [isNameStart_iff, Char.le_def, UInt32.le_iff_toNat_le] at h
  rcases h with ⟨hlow, hhigh⟩ | ⟨hlow, hhigh⟩ | rfl
  · exact ⟨hlow, Nat.le_trans hhigh (by decide)⟩
  · exact ⟨Nat.le_trans (by decide) hlow, hhigh⟩
  · decide

theorem toNat_of_isDigit {c : Char} (h : c.isDigit) : 48 ≤ c.toNat ∧ c.toNat ≤ 57 := by
  simp only [isDigit_iff, Char.le_def, UInt32.le_iff_toNat_le] at h
  exact h

theorem isNameChar_of_isDigit {c : Char} (h : c.isDigit) : isNameChar c :=
  isNameChar_iff.mpr (Or.inr h)

theorem isNameChar_of_isNameStart {c : Char} (h : isNameStart c) : isNameChar c :=
  isNameChar_iff.mpr (Or.inl h)

theorem not_isNameStart_of_isDigit {c : Char} (h : c.isDigit) : ¬ isNameStart c := by
  intro hstart
  have hdigit := toNat_of_isDigit h
  have hletter := toNat_of_isNameStart hstart
  omega

theorem not_isNameChar_of_separatorStart {c : Char} (h : SeparatorStart c) : ¬ isNameChar c := by
  intro hname
  have hout := toNat_of_separatorStart h
  rcases isNameChar_iff.mp hname with hstart | hdigit
  · have hletter := toNat_of_isNameStart hstart
    omega
  · have hin := toNat_of_isDigit hdigit
    omega

/-! ## Gaps -/

theorem dropGap_of_blank {c : Char} (h : Text.isBlank c) (rest : List Char) :
    dropGap false (c :: rest) = dropGap false rest := by
  rw [dropGap, if_neg (by simp), if_pos h]

theorem dropGap_hash (rest : List Char) : dropGap false ('#' :: rest) = dropGap true rest := by
  rw [dropGap, if_neg (by simp), if_neg (by decide), if_pos rfl]

/-- A comment is dropped up to where it ends. -/
theorem dropGap_comment {body rest : List Char} (hin : '\n' ∉ body)
    (hend : rest = [] ∨ rest.head? = some '\n') :
    dropGap true (body ++ rest) = dropGap false rest := by
  induction body with
  | nil =>
      rcases hend with rfl | hhead
      · rfl
      · obtain ⟨tail, rfl⟩ := List.head?_eq_some_iff.mp hhead
        rw [List.nil_append, dropGap_of_blank (by decide)]
        rfl
  | cons c body ih =>
      obtain ⟨hc, hbody⟩ := List.ne_and_not_mem_of_not_mem_cons hin
      have hflag : (c != '\n') = true := by simpa using Ne.symm hc
      rw [List.cons_append, dropGap, if_pos rfl, hflag]
      exact ih hbody

/-- **A gap is dropped without a trace.** -/
theorem Gap.dropGap_append {gap rest : List Char} (h : Gap gap rest) :
    dropGap false (gap ++ rest) = dropGap false rest := by
  induction h with
  | nil => rfl
  | blank hblank _ ih => rw [List.cons_append, dropGap_of_blank hblank, ih]
  | comment hin hend _ ih =>
      rw [List.append_assoc, List.cons_append, dropGap_hash, dropGap_comment hin hend, ih]

/-- **What is taken is a gap.** Inside a comment it is the rest of the comment and then a gap. -/
theorem gap_takeGap_of_flag (text : List Char) :
    Gap (takeGap false text) (dropGap false text)
    ∧ ∃ body gap, takeGap true text = body ++ gap ∧ '\n' ∉ body
      ∧ (gap ++ dropGap true text = [] ∨ (gap ++ dropGap true text).head? = some '\n')
      ∧ Gap gap (dropGap true text) := by
  -- both flags go through the induction together: a `#` opens a comment, a line feed closes it
  induction text with
  | nil => exact ⟨.nil, [], [], rfl, List.not_mem_nil, Or.inl rfl, .nil⟩
  | cons c rest ih =>
      obtain ⟨hgap, body, gap, htake, hin, hend, hmore⟩ := ih
      refine ⟨?_, ?_⟩
      · rw [takeGap, dropGap]
        by_cases hblank : Text.isBlank c
        · simp only [Bool.false_eq_true, if_false, if_pos hblank]
          exact .blank hblank hgap
        · by_cases hhash : c = '#'
          · simp only [Bool.false_eq_true, if_false, if_neg hblank, if_pos hhash]
            rw [hhash, htake]
            exact .comment hin hend hmore
          · simp only [Bool.false_eq_true, if_false, if_neg hblank, if_neg hhash]
            exact .nil
      · rw [takeGap, dropGap, if_pos rfl, if_pos rfl]
        by_cases hfeed : c = '\n'
        · subst hfeed
          -- the comment ends here, and the line feed is the first blank of the gap
          exact ⟨[], '\n' :: takeGap false rest, rfl, List.not_mem_nil, Or.inr rfl,
            .blank (by decide) hgap⟩
        · have hflag : (c != '\n') = true := by simpa using hfeed
          rw [hflag]
          refine ⟨c :: body, gap, by rw [htake, List.cons_append], ?_, hend, hmore⟩
          exact List.not_mem_cons_of_ne_of_not_mem (Ne.symm hfeed) hin

theorem gap_takeGap (text : List Char) : Gap (takeGap false text) (dropGap false text) :=
  (gap_takeGap_of_flag text).1

/-- What a gap leaves does not begin with a separator. -/
theorem not_separatorStart_of_dropGap {c : Char} {rest : List Char} :
    ∀ (text : List Char) (flag : Bool), dropGap flag text = c :: rest → ¬ SeparatorStart c := by
  intro text
  induction text with
  | nil => intro flag h; rw [dropGap] at h; contradiction
  | cons d text ih =>
      intro flag h
      rw [dropGap] at h
      split at h
      · exact ih _ h
      · split at h
        · exact ih _ h
        · rename_i hblank
          split at h
          · exact ih _ h
          · rename_i hhash
            obtain ⟨rfl, -⟩ := List.cons.inj h
            intro hsep
            rcases hsep with hb | hh
            · exact hblank hb
            · exact hhash hh

theorem dropGap_of_not_separatorStart {c : Char} (h : ¬ SeparatorStart c) (rest : List Char) :
    dropGap false (c :: rest) = c :: rest := by
  rw [dropGap, if_neg (by simp), if_neg (fun hb => h (Or.inl hb)), if_neg (fun hh => h (Or.inr hh))]

/-- A gap that is not empty begins with a separator. -/
theorem Gap.head {gap rest : List Char} (h : Gap gap rest) :
    ∀ c ∈ gap.head?, SeparatorStart c := by
  intro c hc
  cases h with
  | nil => contradiction
  | blank hblank _ => exact Or.inl (Option.some.inj hc ▸ hblank)
  | comment _ _ _ => exact Or.inr (Option.some.inj hc).symm

/-! ## Tokens -/

/-- A token in front of a rest that does not go on with it. Names and numbers are those of ASCII
(`isNameStart_iff`, `isDigit_iff`). -/
inductive Stands : Token → List Char → Prop
  | name {c : Char} {more rest : List Char} (start : isNameStart c)
      (chars : ∀ d ∈ more, isNameChar d) (stop : ∀ d ∈ rest.head?, ¬ isNameChar d) :
      Stands ⟨.name, c :: more⟩ rest
  | number {c : Char} {more rest : List Char} (start : c.isDigit) (chars : ∀ d ∈ more, d.isDigit)
      (stop : ∀ d ∈ rest.head?, ¬ d.isDigit) : Stands ⟨.number, c :: more⟩ rest
  | stray {c : Char} {rest : List Char} (separator : ¬ SeparatorStart c) (name : ¬ isNameStart c)
      (digit : ¬ c.isDigit) : Stands ⟨.stray, [c]⟩ rest

/-- The first token behind a gap, and what it stands in front of. -/
theorem stands_of_next? {text rest : List Char} {token : Token}
    (h : next? text = some (token, rest)) : Stands token rest := by
  unfold next? at h
  split at h
  · contradiction
  · rename_i c after hdrop
    have hsep := not_separatorStart_of_dropGap text false hdrop
    split at h
    · rename_i hname
      obtain ⟨rfl, rfl⟩ := Prod.mk.inj (Option.some.inj h)
      exact .name hname (fun d hd => (List.mem_takeWhile_imp hd)) (Lists.head?_dropWhile_stop _ _)
    · rename_i hname
      split at h
      · rename_i hdigit
        obtain ⟨rfl, rfl⟩ := Prod.mk.inj (Option.some.inj h)
        exact .number hdigit (fun d hd => (List.mem_takeWhile_imp hd))
          (Lists.head?_dropWhile_stop _ _)
      · rename_i hdigit
        obtain ⟨rfl, rfl⟩ := Prod.mk.inj (Option.some.inj h)
        exact .stray hsep hname hdigit

/-- A gap makes no difference to the next token. -/
theorem Gap.next?_append {gap rest : List Char} (h : Gap gap rest) :
    next? (gap ++ rest) = next? rest := by
  unfold next?
  rw [h.dropGap_append]

/-- A token that stands at the front of a text is the next one. -/
theorem Stands.next?_append {token : Token} {rest : List Char} (h : Stands token rest) :
    next? (token.text ++ rest) = some (token, rest) := by
  cases h with
  | @name c more rest hstart hmore hstop =>
      have hsep : ¬ SeparatorStart c := fun hs =>
        not_isNameChar_of_separatorStart hs (isNameChar_of_isNameStart hstart)
      obtain ⟨htake, hdrop⟩ := Lists.span_append hmore hstop
      unfold next?
      rw [List.cons_append, dropGap_of_not_separatorStart hsep]
      dsimp only
      rw [if_pos hstart, htake, hdrop]
  | @number c more rest hstart hmore hstop =>
      have hsep : ¬ SeparatorStart c := fun hs =>
        not_isNameChar_of_separatorStart hs (isNameChar_of_isDigit hstart)
      obtain ⟨htake, hdrop⟩ := Lists.span_append hmore hstop
      unfold next?
      rw [List.cons_append, dropGap_of_not_separatorStart hsep]
      dsimp only
      rw [if_neg (not_isNameStart_of_isDigit hstart), if_pos hstart, htake, hdrop]
  | @stray c rest hsep hname hdigit =>
      unfold next?
      rw [List.cons_append, dropGap_of_not_separatorStart hsep]
      dsimp only
      rw [if_neg hname, if_neg hdigit, List.nil_append]

/-- **The next token of a text** stands behind a gap. -/
theorem next?_eq_some_iff {text rest : List Char} {token : Token} :
    next? text = some (token, rest) ↔
      ∃ gap, text = gap ++ (token.text ++ rest) ∧ Gap gap (token.text ++ rest)
        ∧ Stands token rest := by
  refine ⟨fun h => ?_, fun h => ?_⟩
  · have hwhole := next?_append h
    rw [List.append_assoc] at hwhole
    refine ⟨takeGap false text, hwhole.symm, ?_, stands_of_next? h⟩
    have hgap := gap_takeGap text
    have hdrop : dropGap false text = token.text ++ rest :=
      List.append_cancel_left ((takeGap_append_dropGap false text).trans hwhole.symm)
    rwa [hdrop] at hgap
  · obtain ⟨gap, rfl, hgap, hstands⟩ := h
    rw [hgap.next?_append, hstands.next?_append]

/-- **A text without a next token** is all gap. -/
theorem next?_eq_none_iff {text : List Char} : next? text = none ↔ Gap text [] := by
  refine ⟨fun h => ?_, fun h => ?_⟩
  · have hdrop : dropGap false text = [] := by
      unfold next? at h
      split at h
      · assumption
      · split at h
        · contradiction
        · split at h
          · contradiction
          · contradiction
    have hgap := gap_takeGap text
    have hwhole := takeGap_append_dropGap false text
    rw [hdrop] at hgap hwhole
    rwa [← hwhole, List.append_nil]
  · have hnext := h.next?_append
    rw [List.append_nil] at hnext
    exact hnext

end AccumulatorMachine.Source
