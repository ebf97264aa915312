import AccumulatorMachine.Json.Scan
import AccumulatorMachine.Proofs.Lists
import AccumulatorMachine.Proofs.Numerals

/-!
# Tokens are scanned back from their text

A token is written in one way, and scanning what was written gives the token and leaves what
follows. Only numbers need care: their literals have no end of their own, so a number must not
be followed by a character that it could go on with. In a text that lays tokens out (`Laid`)
that can only be the fault of two numbers that stand side by side, since white space and all
other tokens begin with other characters. Without such neighbours (`Token.Apart`) a text is
scanned to its tokens, however much white space it has (`scan_of_laid`).
-/

namespace AccumulatorMachine.Json

/-! ## Number literals -/

theorem isNumberChar_of_isDigit {c : Char} (h : c.isDigit) : isNumberChar c := by
  unfold isNumberChar
  rw [h]
  rfl

theorem isNumberChar_of_isDigits {text : List Char} (h : isDigits text) :
    ∀ c ∈ text, isNumberChar c := by
  unfold isDigits at h
  rw [Bool.and_eq_true, List.all_eq_true] at h
  exact fun c hc => isNumberChar_of_isDigit (h.2 c hc)

theorem isNumberChar_of_isExponent {text : List Char} (h : isExponent text) :
    ∀ c ∈ text, isNumberChar c := by
  cases text with
  | nil => simp
  | cons e rest =>
      unfold isExponent at h
      rw [Bool.and_eq_true, Bool.or_eq_true, beq_iff_eq, beq_iff_eq] at h
      obtain ⟨he, hrest⟩ := h
      have hhead : isNumberChar e := by
        rcases he with rfl | rfl
        · decide
        · decide
      refine List.forall_mem_cons.mpr ⟨hhead, ?_⟩
      split at hrest
      · exact List.forall_mem_cons.mpr ⟨by decide, isNumberChar_of_isDigits hrest⟩
      · exact List.forall_mem_cons.mpr ⟨by decide, isNumberChar_of_isDigits hrest⟩
      · exact isNumberChar_of_isDigits hrest

theorem isNumberChar_of_isFraction {text : List Char} (h : isFraction text) :
    ∀ c ∈ text, isNumberChar c := by
  unfold isFraction at h
  split at h
  · rename_i rest
    rw [Bool.and_eq_true] at h
    refine List.forall_mem_cons.mpr ⟨by decide, ?_⟩
    rw [← List.takeWhile_append_dropWhile (p := Char.isDigit) (l := rest)]
    exact List.forall_mem_append.mpr
      ⟨isNumberChar_of_isDigits h.1, isNumberChar_of_isExponent h.2⟩
  · exact isNumberChar_of_isExponent h

/-- A number literal is made of the characters that a scan takes for a number. -/
theorem isNumberChar_of_isNumber {literal : List Char} (h : isNumber literal) :
    ∀ c ∈ literal, isNumberChar c := by
  have hunsigned : ∀ text : List Char, isFraction (text.dropWhile Char.isDigit) →
      ∀ c ∈ text, isNumberChar c := by
    intro text hfraction
    rw [← List.takeWhile_append_dropWhile (p := Char.isDigit) (l := text)]
    refine List.forall_mem_append.mpr ⟨fun c hc => ?_, isNumberChar_of_isFraction hfraction⟩
    exact isNumberChar_of_isDigit (List.mem_takeWhile_imp hc)
  unfold isNumber at h
  dsimp only at h
  rw [Bool.and_eq_true] at h
  split at h
  · exact List.forall_mem_cons.mpr ⟨by decide, hunsigned _ h.2⟩
  · exact hunsigned _ h.2

theorem ne_nil_of_isNumber {literal : List Char} (h : isNumber literal) : literal ≠ [] := by
  rintro rfl
  contradiction

theorem isDigit_of_isNatural {literal : List Char} (h : isNatural literal) :
    ∀ c ∈ literal, c.isDigit := by
  unfold isNatural at h
  split at h
  · contradiction
  · exact List.forall_mem_singleton.mpr (by decide)
  · rw [Bool.and_eq_true, List.all_eq_true] at h
    exact h.2

/-- A natural number is a number without a sign and a fraction. -/
theorem isNumber_of_isNatural {literal : List Char} (h : isNatural literal) : isNumber literal := by
  have hdigits := isDigit_of_isNatural h
  have htake := List.takeWhile_eq_self_iff.mpr hdigits
  have hdrop := List.dropWhile_eq_nil_iff.mpr hdigits
  unfold isNumber
  split
  · -- a sign is no digit
    exact absurd (hdigits '-' List.mem_cons_self) (by decide)
  · dsimp only
    rw [htake, hdrop, h]
    rfl

theorem isNatural_decimal (n : Nat) : isNatural (Numeral.decimal n) := by
  rcases Nat.eq_zero_or_pos n with rfl | hpos
  · rfl
  · obtain ⟨c, rest, hdecimal⟩ := List.exists_cons_of_ne_nil (Numeral.decimal_ne_nil n)
    have hfirst : c ≠ '0' := by
      have hhead := Numeral.head?_decimal_ne_zero hpos
      rw [hdecimal] at hhead
      exact fun hc => hhead (congrArg some hc)
    have hdigits : (c :: rest).all Char.isDigit := by
      rw [← hdecimal, List.all_eq_true]
      exact fun _ hd => Numeral.isDigit_of_mem_decimal hd
    rw [hdecimal]
    unfold isNatural
    split
    · contradiction
    · rfl
    · rename_i heq
      obtain ⟨rfl, rfl⟩ := List.cons.inj heq
      rw [Bool.and_eq_true, bne_iff_ne]
      exact ⟨hfirst, hdigits⟩

/-! ## String literals -/

/-- A unit below the surrogates spells a character, whatever follows. -/
theorem spell?_unit {value : Nat} (h : value < 0xD800) (items : List StringItem) :
    spell? (.unit value :: items) = (spell? items).map (Char.ofNat value :: ·) := by
  have hhigh : isHighSurrogate value = false := by
    unfold isHighSurrogate
    simp only [Bool.and_eq_false_iff, decide_eq_false_iff_not]
    omega
  have hlow : isLowSurrogate value = false := by
    unfold isLowSurrogate
    simp only [Bool.and_eq_false_iff, decide_eq_false_iff_not]
    omega
  cases items with
  | nil => simp [spell?, hhigh, hlow]
  | cons item items =>
      cases item with
      | char c => simp [spell?, hhigh, hlow]
      | unit low => rw [spell?, hhigh, hlow]; rfl

theorem stringItems?_short {e c : Char} (h : unescape? e = some c) (rest : List Char) :
    stringItems? ('\\' :: e :: rest)
      = (stringItems? rest).map fun (items, after) => (.char c :: items, after) := by
  have hunit : e ≠ 'u' := by
    rintro rfl
    contradiction
  rw [stringItems?, h]
  · cases stringItems? rest with
    | none => rfl
    | some found => rfl
  · exact fun _ _ _ _ _ he _ => hunit he

theorem stringItems?_unit {a b c d : Char} {value : Nat}
    (h : Numeral.ofHexadecimal? [a, b, c, d] = some value) (rest : List Char) :
    stringItems? ('\\' :: 'u' :: a :: b :: c :: d :: rest)
      = (stringItems? rest).map fun (items, after) => (.unit value :: items, after) := by
  rw [stringItems?, h]
  cases stringItems? rest with
  | none => rfl
  | some found => rfl

theorem stringItems?_plain {c : Char} (hquote : c ≠ '"') (hslash : c ≠ '\\') (h : ¬ c.toNat < 32)
    (rest : List Char) :
    stringItems? (c :: rest)
      = (stringItems? rest).map fun (items, after) => (.char c :: items, after) := by
  rw [stringItems?, if_neg h]
  · exact hquote
  · exact fun _ _ _ _ _ hc _ => hslash hc
  · exact fun _ _ hc _ => hslash hc

/-- **An escaped character is one item**, and the item spells the character. -/
theorem stringItems?_escape (c : Char) :
    ∃ item, (∀ rest, stringItems? (escape c ++ rest)
        = (stringItems? rest).map fun (items, after) => (item :: items, after))
      ∧ ∀ items, spell? (item :: items) = (spell? items).map (c :: ·) := by
  unfold escape
  split_ifs with hquote hslash hb hf hn hr ht hcontrol
  · exact ⟨.char c, stringItems?_short (by rw [hquote]; rfl), fun _ => rfl⟩
  · exact ⟨.char c, stringItems?_short (by rw [hslash]; rfl), fun _ => rfl⟩
  · exact ⟨.char c, stringItems?_short (hb ▸ rfl), fun _ => rfl⟩
  · exact ⟨.char c, stringItems?_short (hf ▸ rfl), fun _ => rfl⟩
  · exact ⟨.char c, stringItems?_short (hn ▸ rfl), fun _ => rfl⟩
  · exact ⟨.char c, stringItems?_short (hr ▸ rfl), fun _ => rfl⟩
  · exact ⟨.char c, stringItems?_short (ht ▸ rfl), fun _ => rfl⟩
  · -- a control character without a short escape is a unit of four digits
    have hlength : (Numeral.hexadecimal 4 c.toNat).length = 4 :=
      Numeral.length_hexadecimal (by decide) (Nat.lt_trans hcontrol (by decide))
    have hvalue := Numeral.ofHexadecimal?_hexadecimal 4 c.toNat
    obtain ⟨w, x, y, z, hdigits⟩ := List.length_eq_four.mp hlength
    rw [hdigits] at hvalue ⊢
    refine ⟨.unit c.toNat, stringItems?_unit hvalue, fun items => ?_⟩
    rw [spell?_unit (Nat.lt_trans hcontrol (by decide)), Char.ofNat_toNat]
  · exact ⟨.char c, stringItems?_plain hquote hslash hcontrol, fun _ => rfl⟩

theorem stringItems?_escaped (text : List Char) :
    ∃ items, (∀ rest, stringItems? (text.flatMap escape ++ '"' :: rest) = some (items, rest))
      ∧ spell? items = some text := by
  induction text with
  | nil => exact ⟨[], fun rest => by rw [List.flatMap_nil, List.nil_append, stringItems?], rfl⟩
  | cons c text ih =>
      obtain ⟨item, hitem, hspell⟩ := stringItems?_escape c
      obtain ⟨items, hitems, hspelled⟩ := ih
      refine ⟨item :: items, fun rest => ?_, by rw [hspell, hspelled]; rfl⟩
      rw [List.flatMap_cons, List.append_assoc, hitem, hitems]
      rfl

/-! ## Tokens -/

/-- Text that no number goes on with. -/
def Stops (text : List Char) : Prop := ∀ c ∈ text.head?, ¬ isNumberChar c

def Token.IsNumber : Token → Prop
  | .number _ => True
  | _ => False

/-- A token that its text spells: all are but numbers whose literals are none. -/
def Token.Exact : Token → Prop
  | .number literal => isNumber literal
  | _ => True

theorem next?_of_isNumberChar {c : Char} (hc : isNumberChar c) (rest : List Char) :
    next? (c :: rest) =
      if isNumber ((c :: rest).takeWhile isNumberChar) then
        some (.number ((c :: rest).takeWhile isNumberChar), (c :: rest).dropWhile isNumberChar)
      else none := by
  unfold next?
  split
  case h_1 => contradiction
  case h_12 =>
    rename_i heq
    obtain ⟨rfl, rfl⟩ := List.cons.inj heq
    rfl
  -- no other token begins with a character of a number
  all_goals
    rename_i heq
    obtain ⟨rfl, -⟩ := List.cons.inj heq
    contradiction

theorem next?_number {literal rest : List Char} (h : isNumber literal) (hrest : Stops rest) :
    next? (literal ++ rest) = some (.number literal, rest) := by
  have hchars := isNumberChar_of_isNumber h
  obtain ⟨htake, hdrop⟩ := Lists.span_append hchars hrest
  obtain ⟨c, more, rfl⟩ := List.exists_cons_of_ne_nil (ne_nil_of_isNumber h)
  rw [List.cons_append] at htake hdrop ⊢
  rw [next?_of_isNumberChar (hchars c List.mem_cons_self), htake, hdrop, if_pos h]

theorem next?_quoted (text rest : List Char) :
    next? (quoted (some text) ++ rest) = some (.string (some text), rest) := by
  obtain ⟨items, hitems, hspelled⟩ := stringItems?_escaped text
  have hquoted : quoted (some text) ++ rest = '"' :: (text.flatMap escape ++ '"' :: rest) := by
    show '"' :: text.flatMap escape ++ ['"'] ++ rest = _
    rw [List.append_assoc, List.cons_append, List.singleton_append]
  have hnext : ∀ body, next? ('"' :: body)
      = (stringItems? body).map fun (items, after) => (.string (spell? items), after) :=
    fun _ => rfl
  rw [hquoted, hnext, hitems, ← hspelled]
  rfl

/-- **A token is scanned back from its text**, if it is not a number that goes on. -/
theorem next?_render {t : Token} (h : t.Exact) {rest : List Char}
    (hrest : t.IsNumber → Stops rest) :
    next? (t.render ++ rest) = some (t, rest) := by
  cases t with
  | number literal => exact next?_number h (hrest trivial)
  | bool value => cases value <;> rfl
  | string text =>
      cases text with
      | none => rfl
      | some text => exact next?_quoted text rest
  | _ => rfl

/-! ## Texts -/

theorem isSpace_iff (c : Char) : isSpace c ↔ c = ' ' ∨ c = '\n' ∨ c = '\r' ∨ c = '\t' := by
  simp [isSpace, or_assoc]

theorem next?_space {c : Char} (h : isSpace c) (rest : List Char) : next? (c :: rest) = none := by
  rcases (isSpace_iff c).mp h with rfl | rfl | rfl | rfl
  · rfl
  · rfl
  · rfl
  · rfl

theorem scan_spaces {space : List Char} (h : ∀ c ∈ space, isSpace c) (rest : List Char) :
    scan (space ++ rest) = scan rest := by
  induction space with
  | nil => rfl
  | cons c space ih =>
      obtain ⟨hc, hspace⟩ := List.forall_mem_cons.mp h
      rw [List.cons_append, scan, if_pos hc, ih hspace]

theorem scan_of_next? {text after : List Char} {t : Token} (h : next? text = some (t, after)) :
    scan text = (scan after).map (t :: ·) := by
  cases text with
  | nil => contradiction
  | cons c rest =>
      have hc : ¬ isSpace c := by
        intro hspace
        rw [next?_space hspace] at h
        contradiction
      rw [scan, if_neg hc]
      split
      · rename_i found
        rw [h] at found
        obtain ⟨rfl, rfl⟩ := Prod.mk.inj (Option.some.inj found)
        rfl
      · rename_i found
        rw [h] at found
        contradiction

/-- Tokens that can stand side by side: any two but two numbers. -/
def Token.Apart (s t : Token) : Prop := ¬ (s.IsNumber ∧ t.IsNumber)

/-- Tokens in order, with white space in front of each. -/
def Laid (ps : List (List Char × Token)) (ts : List Token) : Prop :=
  List.Forall₂ (fun p t => (∀ c ∈ p.1, isSpace c) ∧ p.2 = t) ps ts

/-- The text of tokens with the white space in front of them. -/
def layout (ps : List (List Char × Token)) : List Char := ps.flatMap fun p => p.1 ++ p.2.render

theorem layout_cons (space : List Char) (t : Token) (ps : List (List Char × Token)) :
    layout ((space, t) :: ps) = space ++ (t.render ++ layout ps) := by
  unfold layout
  rw [List.flatMap_cons, List.append_assoc]

theorem not_isNumberChar_of_isSpace {c : Char} (h : isSpace c) : ¬ isNumberChar c := by
  rcases (isSpace_iff c).mp h with rfl | rfl | rfl | rfl
  · decide
  · decide
  · decide
  · decide

/-- No token but a number goes on with a number. -/
theorem stops_render {t : Token} (h : ¬ t.IsNumber) (rest : List Char) :
    Stops (t.render ++ rest) := by
  intro c hc
  cases t with
  | number literal => exact absurd trivial h
  | bool value => cases value <;> cases hc <;> decide
  | string text => cases text <;> cases hc <;> decide
  | _ => cases hc; decide

theorem stops_of_isSpace {space : List Char} (h : ∀ c ∈ space, isSpace c) : Stops space := by
  intro c hc
  cases space with
  | nil => cases hc
  | cons d space =>
      obtain rfl := Option.some.inj hc
      exact not_isNumberChar_of_isSpace (h d List.mem_cons_self)

theorem stops_layout {ps : List (List Char × Token)} {t : Token} {ts : List Token} (h : Laid ps ts)
    (hapart : (t :: ts).IsChain Token.Apart) (ht : t.IsNumber) {after : List Char}
    (hafter : ∀ c ∈ after, isSpace c) : Stops (layout ps ++ after) := by
  cases h with
  | nil => exact stops_of_isSpace hafter
  | @cons p next ps ts hp _ =>
      obtain ⟨space, next⟩ := p
      obtain ⟨hspace, rfl⟩ := hp
      cases space with
      | nil =>
          have hnext : ¬ next.IsNumber := fun hnext =>
            (List.isChain_cons_cons.mp hapart).1 ⟨ht, hnext⟩
          rw [layout_cons, List.nil_append, List.append_assoc]
          exact stops_render hnext _
      | cons d space =>
          intro c hc
          rw [layout_cons, List.cons_append, List.cons_append, List.head?_cons] at hc
          obtain rfl := Option.some.inj hc
          exact not_isNumberChar_of_isSpace (hspace d List.mem_cons_self)

/-- **A text is scanned to the tokens that it lays out**, unless two of them are numbers side by
side. White space may also stand behind the last. -/
theorem scan_of_laid {ps : List (List Char × Token)} {ts : List Token} (h : Laid ps ts)
    (hexact : ∀ t ∈ ts, t.Exact) (hapart : ts.IsChain Token.Apart) {after : List Char}
    (hafter : ∀ c ∈ after, isSpace c) : scan (layout ps ++ after) = some ts := by
  induction h with
  | nil =>
      have hspaces := scan_spaces hafter []
      rw [List.append_nil] at hspaces
      rw [layout, List.flatMap_nil, List.nil_append, hspaces, scan]
  | @cons p t ps ts hp hps ih =>
      obtain ⟨space, t⟩ := p
      obtain ⟨hspace, rfl⟩ := hp
      obtain ⟨ht, hts⟩ := List.forall_mem_cons.mp hexact
      have hnext := next?_render ht (fun hnumber => stops_layout hps hapart hnumber hafter)
      rw [layout_cons, List.append_assoc, List.append_assoc, scan_spaces hspace,
        scan_of_next? hnext, ih hts hapart.of_cons]
      rfl

end AccumulatorMachine.Json
