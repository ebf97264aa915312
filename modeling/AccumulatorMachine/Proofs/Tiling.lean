import AccumulatorMachine.Proofs.LineGrammar
import AccumulatorMachine.Proofs.Tokens

/-!
# Gaps and tokens tile a text

`locate` splits a text by looking for one token after another. `Tiles` says what a split has to
be without looking for anything: gaps and tokens take turns, they make up the text, each token
stands where the gap before it ends and in front of a rest that does not go on with it, and what
follows the last token is all gap. No text can be tiled in two ways, since a gap ends at the first
character that is no separator and a token at the first that does not go on with it; so the tiling
of a text is its tokens (`tiles_iff`), and there is one because every token takes something off
the text.

What is to be known of the byte offsets follows from the tiling alone. The text in front of a token
is as long as its offset says, hence the offset is at the edge of a character, and the bytes from
there to the token's end are the token's.
-/

namespace AccumulatorMachine.Source

/-- Located tokens that, with gaps before, between and after them, make up a text that begins at
an offset. -/
inductive Tiles : Nat → List Char → List Located → Prop
  | last {offset : Nat} {gap : List Char} (isGap : Gap gap []) : Tiles offset gap []
  /-- The rest is tiled from where the token ends, so a gap lies between the ends of its
  neighbours. -/
  | cons {offset : Nat} {gap rest : List Char} (located : Located) {more : List Located}
      (isGap : Gap gap (located.token.text ++ rest)) (stands : Stands located.token rest)
      (start : located.start = offset + byteLength gap)
      (stop : located.stop = located.start + byteLength located.token.text)
      (tail : Tiles located.stop rest more) :
      Tiles offset (gap ++ (located.token.text ++ rest)) (located :: more)

/-! ## The tiling of a text -/

/-- A gap ends where a token begins. -/
theorem Stands.takeGap_append {gap rest : List Char} {token : Token} (h : Stands token rest)
    (hgap : Gap gap (token.text ++ rest)) :
    takeGap false (gap ++ (token.text ++ rest)) = gap := by
  have hwhole := takeGap_append_dropGap false (gap ++ (token.text ++ rest))
  have hdrop : dropGap false (token.text ++ rest) = token.text ++ rest := by
    obtain ⟨c, more, htext⟩ := List.exists_cons_of_ne_nil h.ne_nil
    have hc : ¬ SeparatorStart c := h.not_separatorStart c (htext ▸ List.mem_cons_self)
    rw [htext, List.cons_append]
    exact dropGap_of_not_separatorStart hc _
  rw [hgap.dropGap_append, hdrop] at hwhole
  exact List.append_cancel_right hwhole

/-- A gap and a token are split off, and the rest is split from where the token ends. -/
theorem Stands.locate_append {gap rest : List Char} {token : Token} (h : Stands token rest)
    (hgap : Gap gap (token.text ++ rest)) (offset : Nat) :
    locate offset (gap ++ (token.text ++ rest)) =
      ⟨token, offset + byteLength gap, offset + byteLength gap + byteLength token.text⟩
        :: locate (offset + byteLength gap + byteLength token.text) rest := by
  have hnext := next?_eq_some_iff.mpr ⟨gap, rfl, hgap, h⟩
  rw [locate_of_some hnext, h.takeGap_append hgap]

/-- A text can be tiled in one way only. -/
theorem Tiles.eq_locate {offset : Nat} {text : List Char} {tiling : List Located}
    (h : Tiles offset text tiling) : tiling = locate offset text := by
  induction h with
  | last hgap => exact (locate_of_none (next?_eq_none_iff.mpr hgap) _).symm
  | @cons offset gap rest located more hgap hstands hstart hstop _ ih =>
      obtain ⟨token, start, stop⟩ := located
      dsimp only at hgap hstands hstart hstop ih ⊢
      rw [hstands.locate_append hgap, ih, hstop, hstart]

/-- Every text can be tiled: behind a gap there is a token and less of the text, or nothing. -/
theorem tiles_locate (offset : Nat) (text : List Char) : Tiles offset text (locate offset text) := by
  cases hnext : next? text with
  | none =>
      rw [locate_of_none hnext]
      exact .last (next?_eq_none_iff.mp hnext)
  | some found =>
      obtain ⟨token, rest⟩ := found
      have hless : rest.length < text.length := length_lt_of_next? hnext
      obtain ⟨gap, htext, hgap, hstands⟩ := next?_eq_some_iff.mp hnext
      rw [htext, hstands.locate_append hgap]
      exact .cons ⟨token, _, _⟩ hgap hstands rfl rfl (tiles_locate _ rest)
termination_by text.length

/-- **The tiling of a text** is its tokens. -/
theorem tiles_iff {offset : Nat} {text : List Char} {tiling : List Located} :
    Tiles offset text tiling ↔ tiling = locate offset text :=
  ⟨Tiles.eq_locate, fun h => h ▸ tiles_locate offset text⟩

/-! ## Tiles and bytes -/

theorem byteLength_pos {text : List Char} (h : text ≠ []) : 0 < byteLength text := by
  obtain ⟨c, more, rfl⟩ := List.exists_cons_of_ne_nil h
  have hc := c.utf8Size_pos
  rw [byteLength]
  omega

theorem byteLength_eq_utf8ByteSize (text : List Char) :
    byteLength text = (String.ofList text).utf8ByteSize := by
  induction text with
  | nil => rfl
  | cons c text ih =>
      rw [byteLength, ih, String.ofList_cons, String.utf8ByteSize_append,
        String.utf8ByteSize_singleton]

/-- Each token of a tiling stands at its offset in the whole text, in front of what is at its
end. -/
theorem Tiles.stands_at {whole text : List Char} {offset : Nat} {tiling : List Located}
    (h : Tiles offset text tiling) (hat : dropBytes? whole offset = some text) :
    ∀ located ∈ tiling, ∃ rest,
      dropBytes? whole located.start = some (located.token.text ++ rest)
      ∧ located.stop = located.start + byteLength located.token.text
      ∧ Stands located.token rest := by
  induction h with
  | last _ => exact fun located hmem => absurd hmem List.not_mem_nil
  | @cons offset gap rest located more _ hstands hstart hstop _ ih =>
      have hhere : dropBytes? whole located.start = some (located.token.text ++ rest) :=
        hstart ▸ dropBytes?_add hat
      have hrest : dropBytes? whole located.stop = some rest := hstop ▸ dropBytes?_add hhere
      exact List.forall_mem_cons.mpr ⟨⟨rest, hhere, hstop, hstands⟩, ih hrest⟩

/-- What a located token has to do with the bytes of a source. -/
structure Spans (source : String) (located : Located) : Prop where
  nonempty : located.start < located.stop
  /-- Both ends lie at the edge of a character. -/
  start : String.Pos.Raw.IsValid source ⟨located.start⟩
  stop : String.Pos.Raw.IsValid source ⟨located.stop⟩
  bytes : source.toByteArray.extract located.start located.stop
    = (String.ofList located.token.text).toByteArray
  /-- What is at the end of the token does not go on with it. -/
  maximal : ∃ rest, dropBytes? source.toList located.stop = some rest
    ∧ Stands located.token rest

/-- A good offset is at the edge of a character. -/
theorem isValid_of_dropBytes? {source : String} {rest : List Char} {offset : Nat}
    (h : dropBytes? source.toList offset = some rest) : String.Pos.Raw.IsValid source ⟨offset⟩ := by
  obtain ⟨front, hsource, rfl⟩ := dropBytes?_eq_some_iff.mp h
  refine String.Pos.Raw.isValid_iff_exists_append.mpr
    ⟨String.ofList front, String.ofList rest, ?_, ?_⟩
  · rw [← String.ofList_append, ← hsource, String.ofList_toList]
  · exact congrArg String.Pos.Raw.mk (byteLength_eq_utf8ByteSize front)

/-- The bytes of what begins at an offset. -/
theorem extract_of_dropBytes? {source : String} {middle rest : List Char} {offset : Nat}
    (h : dropBytes? source.toList offset = some (middle ++ rest)) :
    source.toByteArray.extract offset (offset + byteLength middle)
      = (String.ofList middle).toByteArray := by
  obtain ⟨front, hsource, rfl⟩ := dropBytes?_eq_some_iff.mp h
  have hbytes : source.toByteArray = (String.ofList front).toByteArray
      ++ ((String.ofList middle).toByteArray ++ (String.ofList rest).toByteArray) := by
    rw [← String.toByteArray_append, ← String.toByteArray_append, ← String.ofList_append,
      ← String.ofList_append, ← hsource, String.ofList_toList]
  have hfront : byteLength front = (String.ofList front).toByteArray.size + 0 := by
    rw [byteLength_eq_utf8ByteSize, String.size_toByteArray, Nat.add_zero]
  have hmiddle : byteLength middle = (String.ofList middle).toByteArray.size := by
    rw [byteLength_eq_utf8ByteSize, String.size_toByteArray]
  rw [hbytes, hfront, Nat.add_assoc, Nat.zero_add, ByteArray.extract_append_size_add]
  exact ByteArray.extract_append_eq_left hmiddle

/-- A token spans the bytes from where it stands. -/
theorem Spans.of_stands {source : String} {located : Located} {rest : List Char}
    (hat : dropBytes? source.toList located.start = some (located.token.text ++ rest))
    (hstop : located.stop = located.start + byteLength located.token.text)
    (hstands : Stands located.token rest) : Spans source located := by
  have hpos := byteLength_pos hstands.ne_nil
  have hrest : dropBytes? source.toList located.stop = some rest := hstop ▸ dropBytes?_add hat
  exact
    { nonempty := by omega
      start := isValid_of_dropBytes? hat
      stop := isValid_of_dropBytes? hrest
      bytes := hstop ▸ extract_of_dropBytes? hat
      maximal := ⟨rest, hrest, hstands⟩ }

/-! ## Neighbours -/

/-- No token of a tiling begins before the tiling does, and none before those ahead of it end. -/
theorem Tiles.ordered {offset : Nat} {text : List Char} {tiling : List Located}
    (h : Tiles offset text tiling) :
    (∀ located ∈ tiling, offset ≤ located.start)
    ∧ tiling.Pairwise (fun earlier later => earlier.stop ≤ later.start) := by
  induction h with
  | last _ => exact ⟨fun located hmem => absurd hmem List.not_mem_nil, .nil⟩
  | @cons offset gap rest located more _ _ hstart hstop _ ih =>
      obtain ⟨hbehind, hpairs⟩ := ih
      refine ⟨List.forall_mem_cons.mpr ⟨by omega, fun later hmem => ?_⟩, .cons hbehind hpairs⟩
      have hlater := hbehind later hmem
      omega

/-- The gap between a name and a number is not empty, or the name would have gone on. -/
theorem Tiles.apart {offset : Nat} {text : List Char} {tiling : List Located}
    (h : Tiles offset text tiling) :
    tiling.IsChain (fun earlier later =>
      earlier.token.kind = .name → later.token.kind = .number → earlier.stop < later.start) := by
  induction h with
  | last _ => exact .nil
  | @cons offset gap rest located more _ hstands _ _ htail ih =>
      cases htail with
      | last _ => exact .singleton _
      | @cons _ between after next more _ hnext hstart _ _ =>
          refine List.isChain_cons_cons.mpr ⟨fun hname hnumber => ?_, ih⟩
          obtain ⟨⟨kind, name⟩, start, stop⟩ := located
          obtain ⟨⟨nextKind, digits⟩, nextStart, nextStop⟩ := next
          dsimp only at hname hnumber
          subst hname hnumber
          have hbetween : between ≠ [] := by
            rintro rfl
            obtain ⟨hne, hdigits⟩ := hnext.digits
            obtain ⟨c, more, rfl⟩ := List.exists_cons_of_ne_nil hne
            exact hstands.name_stop c rfl (isNameChar_of_isDigit (hdigits c List.mem_cons_self))
          have hpos := byteLength_pos hbetween
          dsimp only at hstart ⊢
          omega

/--
**The tokens of a source tile it.**

They are the one way to take the text apart into gaps, of blanks and of comments that run to the
end of their line or of the text, and tokens that are as long as they can be. Each token is a
stretch of bytes between two edges of characters and holds the text that is there. The stretches
are in order and none is empty; a number does not begin where a name ends.
-/
theorem tokens_tile_text (source : String) :
    (∀ tiling, Tiles 0 source.toList tiling ↔ tiling = tokens source.toList)
    ∧ (∀ located ∈ tokens source.toList, Spans source located)
    ∧ (tokens source.toList).Pairwise (fun earlier later => earlier.stop ≤ later.start)
    ∧ (tokens source.toList).IsChain (fun earlier later =>
        earlier.token.kind = .name → later.token.kind = .number
          → earlier.stop < later.start) := by
  have htiles : Tiles 0 source.toList (tokens source.toList) := tiles_locate 0 _
  refine ⟨fun tiling => tiles_iff, fun located hmem => ?_, htiles.ordered.2, htiles.apart⟩
  obtain ⟨rest, hat, hstop, hstands⟩ := htiles.stands_at (dropBytes?_zero _) located hmem
  exact .of_stands hat hstop hstands

-- the comment ends in front of the line feed, and the stray character is two bytes long
example : tokens "é#1\n2a".toList =
    [⟨⟨.stray, ['é']⟩, 0, 2⟩, ⟨⟨.number, ['2']⟩, 5, 6⟩, ⟨⟨.name, ['a']⟩, 6, 7⟩] := by cbv

end AccumulatorMachine.Source
