import AccumulatorMachine.Proofs.Lexing

/-!
# Tokens and the bytes they stand at

A token is located by the byte offsets of its ends, and a byte offset is of use only if a
character begins there. `dropBytes?` says what begins at an offset, or that nothing does because
the offset lies inside a character. Every offset that `locate` hands out is good, and what
begins there is the token with the rest of the text behind it (`locate_of_next?`): each token
starts where the gap after the one before it ends, so the offsets add up.
-/

namespace AccumulatorMachine.Source

/-! ## Byte offsets -/

/-- What begins at a byte offset of a text, unless the offset lies inside a character or behind
the end. -/
def dropBytes? : List Char → Nat → Option (List Char)
  | [], offset => if offset = 0 then some [] else none
  | c :: text, offset =>
    if offset = 0 then some (c :: text)
    else if c.utf8Size ≤ offset then dropBytes? text (offset - c.utf8Size)
    else none

theorem byteLength_append (xs ys : List Char) :
    byteLength (xs ++ ys) = byteLength xs + byteLength ys := by
  induction xs with
  | nil => rw [List.nil_append, byteLength, Nat.zero_add]
  | cons c xs ih => rw [List.cons_append, byteLength, byteLength, ih, Nat.add_assoc]

theorem dropBytes?_zero (text : List Char) : dropBytes? text 0 = some text := by
  cases text with
  | nil => rfl
  | cons c text => rfl

/-- **An offset is good** just when it is the length of what stands before it. -/
theorem dropBytes?_eq_some_iff {text : List Char} : ∀ {offset : Nat} {rest : List Char},
    dropBytes? text offset = some rest ↔
      ∃ front, text = front ++ rest ∧ byteLength front = offset := by
  induction text with
  | nil =>
      intro offset rest
      rw [dropBytes?]
      constructor
      · intro h
        split at h
        · rename_i hzero
          obtain rfl := Option.some.inj h
          exact ⟨[], rfl, hzero.symm⟩
        · contradiction
      · rintro ⟨front, hnil, rfl⟩
        obtain ⟨rfl, rfl⟩ := List.append_eq_nil_iff.mp hnil.symm
        rfl
  | cons c text ih =>
      intro offset rest
      have hsize := c.utf8Size_pos
      rw [dropBytes?]
      constructor
      · intro h
        split at h
        · rename_i hzero
          obtain rfl := Option.some.inj h
          exact ⟨[], rfl, hzero.symm⟩
        · split at h
          · obtain ⟨front, rfl, hfront⟩ := ih.mp h
            refine ⟨c :: front, rfl, ?_⟩
            rw [byteLength, hfront]
            omega
          · contradiction
      · rintro ⟨front, htext, rfl⟩
        rcases front with _ | ⟨d, front⟩
        · rw [List.nil_append] at htext
          rw [byteLength, if_pos rfl, htext]
        · obtain ⟨rfl, rfl⟩ := List.cons.inj htext
          rw [byteLength, if_neg (by omega), if_pos (by omega)]
          exact ih.mpr ⟨front, rfl, by omega⟩

/-- Offsets are counted on. -/
theorem dropBytes?_add {text front rest : List Char} {offset : Nat}
    (h : dropBytes? text offset = some (front ++ rest)) :
    dropBytes? text (offset + byteLength front) = some rest := by
  obtain ⟨before, rfl, rfl⟩ := dropBytes?_eq_some_iff.mp h
  refine dropBytes?_eq_some_iff.mpr ⟨before ++ front, by rw [List.append_assoc], ?_⟩
  exact byteLength_append before front

/-! ## Located tokens -/

theorem locate_of_none {text : List Char} (h : next? text = none) (offset : Nat) :
    locate offset text = [] := by
  rw [locate]
  split
  · rfl
  · rename_i hsome
    rw [h] at hsome
    contradiction

/-- The first token is located behind the gap in front of it, and the rest from where it ends. -/
theorem locate_of_some {text rest : List Char} {token : Token}
    (h : next? text = some (token, rest)) (offset : Nat) :
    locate offset text =
      ⟨token, offset + byteLength (takeGap false text),
        offset + byteLength (takeGap false text) + byteLength token.text⟩
        :: locate (offset + byteLength (takeGap false text) + byteLength token.text) rest := by
  rw [locate]
  split
  · rename_i hnone
    rw [h] at hnone
    contradiction
  · rename_i hsome
    obtain ⟨rfl, rfl⟩ := Prod.mk.inj (Option.some.inj (h.symm.trans hsome))
    rfl

/-- **The next token is located where it stands.** It begins at the offset of its first character,
and what follows begins at the offset of its end. -/
theorem locate_of_next? {whole text rest : List Char} {offset : Nat} {token : Token}
    (hat : dropBytes? whole offset = some text) (h : next? text = some (token, rest)) :
    ∃ located : Located, located.token = token
      ∧ locate offset text = located :: locate located.stop rest
      ∧ dropBytes? whole located.start = some (token.text ++ rest)
      ∧ dropBytes? whole located.stop = some rest := by
  have hwhole := next?_append h
  rw [List.append_assoc] at hwhole
  rw [← hwhole] at hat
  have hstart := dropBytes?_add hat
  exact ⟨_, rfl, locate_of_some h offset, hstart, dropBytes?_add hstart⟩

theorem Stands.ne_nil {token : Token} {rest : List Char} (h : Stands token rest) :
    token.text ≠ [] := by
  cases h with
  | name _ _ _ => exact List.cons_ne_nil _ _
  | number _ _ _ => exact List.cons_ne_nil _ _
  | stray _ _ _ => exact List.cons_ne_nil _ _

/-- No token has a separator in it. -/
theorem Stands.not_separatorStart {token : Token} {rest : List Char} (h : Stands token rest) :
    ∀ c ∈ token.text, ¬ SeparatorStart c := by
  cases h with
  | @name first more _ hstart hchars _ =>
      have hall : ∀ c ∈ first :: more, isNameChar c :=
        List.forall_mem_cons.mpr ⟨isNameChar_of_isNameStart hstart, hchars⟩
      exact fun c hc hsep => not_isNameChar_of_separatorStart hsep (hall c hc)
  | @number first more _ hstart hdigits _ =>
      have hall : ∀ c ∈ first :: more, c.isDigit := List.forall_mem_cons.mpr ⟨hstart, hdigits⟩
      exact fun c hc hsep =>
        not_isNameChar_of_separatorStart hsep (isNameChar_of_isDigit (hall c hc))
  | stray hsep _ _ => exact fun c hc => List.mem_singleton.mp hc ▸ hsep

end AccumulatorMachine.Source
