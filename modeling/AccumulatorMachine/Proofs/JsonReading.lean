import AccumulatorMachine.Json.Read
import AccumulatorMachine.Proofs.JsonScanning

/-!
# Values are read back from their texts

Reading is undone layer by layer. The tokens of a value are read as the value whatever is open
around it and whatever follows (`readValue_tokens`), so the three functions that write tokens
call for one induction over values, items and fields together. Both layouts write these tokens
in order with white space between them (`laid_laidOut`, `laid_bare`). Two numbers never stand
side by side, because a comma stands between any two values (`apart_tokens`); with that the
scan gives the tokens back.

The one condition on a value is that its numbers are number literals.
-/

namespace AccumulatorMachine.Json

/-! ## From tokens to values -/

/-- A value in an array is not taken for a key. -/
theorem tokens_ne_key (v : Value) {rest : List Token} (h : rest.head? ≠ some .colon) :
    ∀ key after, v.tokens ++ rest ≠ .string key :: .colon :: after := by
  intro key after
  cases v with
  | string text =>
      intro heq
      obtain ⟨-, rfl⟩ := List.cons.inj heq
      exact h rfl
  | array items => cases items <;> simp [Value.tokens]
  | object fields => cases fields <;> simp [Value.tokens]
  | _ => simp [Value.tokens]

theorem head?_itemTokens (items : List Value) (rest : List Token) :
    (Value.itemTokens items ++ .closeArray :: rest).head? ≠ some .colon := by
  cases items <;> simp [Value.itemTokens]

theorem readMore_comma {ts : List Token} (h : ∀ key after, ts ≠ .string key :: .colon :: after)
    (frames : List Frame) (items : List Value) (v : Value) :
    readMore (.array items :: frames) v (.comma :: ts)
      = readValue (.array (v :: items) :: frames) ts := by
  rw [readMore]
  exact h

/-- An array that is not empty does not begin like an empty one. -/
theorem readValue_openArray (frames : List Frame) (v : Value) (rest : List Token) :
    readValue frames (.openArray :: (v.tokens ++ rest))
      = readValue (.array [] :: frames) (v.tokens ++ rest) := by
  rw [readValue]
  intro after
  cases v with
  | array items => cases items <;> simp [Value.tokens]
  | object fields => cases fields <;> simp [Value.tokens]
  | _ => simp [Value.tokens]

mutual

/-- **The tokens of a value are read as the value**, whatever is open and whatever follows. -/
theorem readValue_tokens : ∀ (v : Value) (frames : List Frame) (rest : List Token),
    readValue frames (v.tokens ++ rest) = readMore frames v rest
  | .null, _, _ => rfl
  | .bool _, _, _ => rfl
  | .number _, _, _ => rfl
  | .string _, _, _ => rfl
  | .array [], _, _ => rfl
  | .array (item :: items), frames, rest => by
      have htokens : (Value.array (item :: items)).tokens ++ rest
          = .openArray :: (item.tokens ++ (Value.itemTokens items ++ .closeArray :: rest)) := by
        simp [Value.tokens]
      rw [htokens, readValue_openArray, readValue_tokens item, readMore_itemTokens items]
      rfl
  | .object [], _, _ => rfl
  | .object ((key, value) :: fields), frames, rest => by
      have htokens : (Value.object ((key, value) :: fields)).tokens ++ rest
          = .openObject :: .string key :: .colon ::
            (value.tokens ++ (Value.fieldTokens fields ++ .closeObject :: rest)) := by
        simp [Value.tokens]
      rw [htokens, readValue, readValue_tokens value, readMore_fieldTokens fields]
      rfl

theorem readMore_itemTokens : ∀ (more : List Value) (frames : List Frame) (items : List Value)
    (v : Value) (rest : List Token),
    readMore (.array items :: frames) v (Value.itemTokens more ++ .closeArray :: rest)
      = readMore frames (.array ((v :: items).reverse ++ more)) rest
  | [], frames, items, v, rest => by
      rw [List.append_nil]
      rfl
  | item :: more, frames, items, v, rest => by
      have htokens : Value.itemTokens (item :: more) ++ .closeArray :: rest
          = .comma :: (item.tokens ++ (Value.itemTokens more ++ .closeArray :: rest)) := by
        simp [Value.itemTokens]
      rw [htokens, readMore_comma (tokens_ne_key item (head?_itemTokens more rest)),
        readValue_tokens item, readMore_itemTokens more, List.reverse_cons, List.append_assoc,
        List.singleton_append]

theorem readMore_fieldTokens : ∀ (more : List (Option (List Char) × Value)) (frames : List Frame)
    (fields : List (Option (List Char) × Value)) (key : Option (List Char)) (v : Value)
    (rest : List Token),
    readMore (.object fields key :: frames) v (Value.fieldTokens more ++ .closeObject :: rest)
      = readMore frames (.object (((key, v) :: fields).reverse ++ more)) rest
  | [], frames, fields, key, v, rest => by
      rw [List.append_nil]
      rfl
  | (next, value) :: more, frames, fields, key, v, rest => by
      have htokens : Value.fieldTokens ((next, value) :: more) ++ .closeObject :: rest
          = .comma :: .string next :: .colon ::
            (value.tokens ++ (Value.fieldTokens more ++ .closeObject :: rest)) := by
        simp [Value.fieldTokens]
      rw [htokens, readMore, readValue_tokens value, readMore_fieldTokens more, List.reverse_cons,
        List.append_assoc, List.singleton_append]

end

/-- All of a value's tokens give the value. -/
theorem read_tokens (v : Value) : readValue [] v.tokens = some v := by
  have h := readValue_tokens v [] []
  rwa [List.append_nil] at h

/-! ## Layouts -/

theorem Laid.append {ps qs : List (List Char × Token)} {ts us : List Token} (hp : Laid ps ts)
    (hq : Laid qs us) : Laid (ps ++ qs) (ts ++ us) :=
  List.rel_append hp hq

theorem laid_cons {space : List Char} {ps : List (List Char × Token)} {ts : List Token}
    (hspace : ∀ c ∈ space, isSpace c) (t : Token) (h : Laid ps ts) :
    Laid ((space, t) :: ps) (t :: ts) :=
  .cons ⟨hspace, rfl⟩ h

theorem laid_bare (ts : List Token) : Laid (ts.map ([], ·)) ts := by
  induction ts with
  | nil => exact .nil
  | cons t ts ih => exact laid_cons (List.forall_mem_nil _) t ih

theorem isSpace_newline (depth : Nat) : ∀ c ∈ Value.newline depth, isSpace c := by
  refine List.forall_mem_cons.mpr ⟨by decide, fun c hc => ?_⟩
  rw [List.eq_of_mem_replicate hc]
  decide

theorem isSpace_blank : ∀ c ∈ [' '], isSpace c := List.forall_mem_singleton.mpr (by decide)

mutual

/-- The layout over several lines has the tokens of the value, and else white space alone. -/
theorem laid_laidOut : ∀ (v : Value) (depth : Nat) {before : List Char},
    (∀ c ∈ before, isSpace c) → Laid (v.laidOut depth before) v.tokens
  | .null, _, _, h => laid_cons h _ .nil
  | .bool _, _, _, h => laid_cons h _ .nil
  | .number _, _, _, h => laid_cons h _ .nil
  | .string _, _, _, h => laid_cons h _ .nil
  | .array [], _, _, h => laid_cons h _ (laid_bare [.closeArray])
  | .array (item :: items), depth, _, h => by
      have hitem := laid_laidOut item (depth + 1) (isSpace_newline (depth + 1))
      have hitems := laid_itemsLaidOut items (depth + 1)
      have hclose := laid_cons (isSpace_newline depth) .closeArray .nil
      exact ((laid_cons h .openArray hitem).append hitems).append hclose
  | .object [], _, _, h => laid_cons h _ (laid_bare [.closeObject])
  | .object ((key, value) :: fields), depth, _, h => by
      have hvalue := laid_laidOut value (depth + 1) isSpace_blank
      have hcolon := laid_cons (List.forall_mem_nil _) .colon hvalue
      have hkey := laid_cons (isSpace_newline (depth + 1)) (.string key) hcolon
      have hfields := laid_fieldsLaidOut fields (depth + 1)
      have hclose := laid_cons (isSpace_newline depth) .closeObject .nil
      exact ((laid_cons h .openObject hkey).append hfields).append hclose

theorem laid_itemsLaidOut : ∀ (items : List Value) (depth : Nat),
    Laid (Value.itemsLaidOut depth items) (Value.itemTokens items)
  | [], _ => .nil
  | item :: items, depth => by
      have hitem := laid_laidOut item depth (isSpace_newline depth)
      have hcomma := laid_cons (List.forall_mem_nil _) .comma hitem
      exact hcomma.append (laid_itemsLaidOut items depth)

theorem laid_fieldsLaidOut : ∀ (fields : List (Option (List Char) × Value)) (depth : Nat),
    Laid (Value.fieldsLaidOut depth fields) (Value.fieldTokens fields)
  | [], _ => .nil
  | (key, value) :: fields, depth => by
      have hvalue := laid_laidOut value depth isSpace_blank
      have hcolon := laid_cons (List.forall_mem_nil _) .colon hvalue
      have hkey := laid_cons (isSpace_newline depth) (.string key) hcolon
      have hcomma := laid_cons (List.forall_mem_nil _) .comma hkey
      exact hcomma.append (laid_fieldsLaidOut fields depth)

end

/-! ## Neighbours -/

theorem apart_cons {t : Token} {ts : List Token} (ht : ¬ t.IsNumber)
    (h : ts.IsChain Token.Apart) : (t :: ts).IsChain Token.Apart := by
  cases ts with
  | nil => exact List.isChain_singleton t
  | cons next ts => exact List.isChain_cons_cons.mpr ⟨fun hboth => ht hboth.1, h⟩

/-- Tokens that can stand after any token. -/
def Clear (ts : List Token) : Prop := ∀ t, (t :: ts).IsChain Token.Apart

theorem clear_nil : Clear [] := List.isChain_singleton

theorem clear_cons {t : Token} {ts : List Token} (ht : ¬ t.IsNumber)
    (h : ts.IsChain Token.Apart) : Clear (t :: ts) :=
  fun _ => List.isChain_cons_cons.mpr ⟨fun hboth => ht hboth.2, apart_cons ht h⟩

theorem Clear.apart {ts : List Token} (h : Clear ts) : ts.IsChain Token.Apart := (h .null).of_cons

mutual

/-- In the tokens of a value no two numbers stand side by side. -/
theorem apart_tokens : ∀ (v : Value) {rest : List Token}, Clear rest →
    (v.tokens ++ rest).IsChain Token.Apart
  | .null, _, h => h .null
  | .bool b, _, h => h (.bool b)
  | .number literal, _, h => h (.number literal)
  | .string text, _, h => h (.string text)
  | .array [], _, h => apart_cons id (apart_cons id h.apart)
  | .array (item :: items), rest, h => by
      have hclose : Clear (.closeArray :: rest) := clear_cons id h.apart
      have hitem := apart_tokens item (clear_itemTokens items hclose)
      have harray := apart_cons (t := .openArray) id hitem
      simpa [Value.tokens] using harray
  | .object [], _, h => apart_cons id (apart_cons id h.apart)
  | .object ((key, value) :: fields), rest, h => by
      have hclose : Clear (.closeObject :: rest) := clear_cons id h.apart
      have hvalue := apart_tokens value (clear_fieldTokens fields hclose)
      have hkey := apart_cons (t := .string key) id (apart_cons (t := .colon) id hvalue)
      have hobject := apart_cons (t := .openObject) id hkey
      simpa [Value.tokens] using hobject

theorem clear_itemTokens : ∀ (items : List Value) {rest : List Token}, Clear rest →
    Clear (Value.itemTokens items ++ rest)
  | [], _, h => h
  | item :: items, rest, h => by
      have hitem := apart_tokens item (clear_itemTokens items h)
      have hcomma := clear_cons (t := .comma) id hitem
      simpa [Value.itemTokens] using hcomma

theorem clear_fieldTokens : ∀ (fields : List (Option (List Char) × Value)) {rest : List Token},
    Clear rest → Clear (Value.fieldTokens fields ++ rest)
  | [], _, h => h
  | (key, value) :: fields, rest, h => by
      have hvalue := apart_tokens value (clear_fieldTokens fields h)
      have hkey := apart_cons (t := .string key) id (apart_cons (t := .colon) id hvalue)
      have hcomma := clear_cons (t := .comma) id hkey
      simpa [Value.fieldTokens] using hcomma

end

/-! ## Texts -/

/-- A value whose tokens are all spelled by their texts, as all are but numbers without literals. -/
def Value.Exact (v : Value) : Prop := ∀ t ∈ v.tokens, t.Exact

theorem exact_itemTokens {items : List Value} (h : ∀ v ∈ items, v.Exact) :
    ∀ t ∈ Value.itemTokens items, t.Exact := by
  induction items with
  | nil => exact List.forall_mem_nil _
  | cons item items ih =>
      obtain ⟨hitem, hitems⟩ := List.forall_mem_cons.mp h
      exact List.forall_mem_cons.mpr ⟨trivial, List.forall_mem_append.mpr ⟨hitem, ih hitems⟩⟩

theorem exact_array {items : List Value} (h : ∀ v ∈ items, v.Exact) :
    (Value.array items).Exact := by
  cases items with
  | nil => exact List.forall_mem_cons.mpr ⟨trivial, List.forall_mem_singleton.mpr trivial⟩
  | cons item items =>
      obtain ⟨hitem, hitems⟩ := List.forall_mem_cons.mp h
      have hinside := List.forall_mem_append.mpr ⟨hitem, exact_itemTokens hitems⟩
      exact List.forall_mem_cons.mpr ⟨trivial,
        List.forall_mem_append.mpr ⟨hinside, List.forall_mem_singleton.mpr trivial⟩⟩

theorem exact_fieldTokens {fields : List (Option (List Char) × Value)}
    (h : ∀ f ∈ fields, f.2.Exact) : ∀ t ∈ Value.fieldTokens fields, t.Exact := by
  induction fields with
  | nil => exact List.forall_mem_nil _
  | cons f fields ih =>
      obtain ⟨hf, hfields⟩ := List.forall_mem_cons.mp h
      have hinside := List.forall_mem_append.mpr ⟨hf, ih hfields⟩
      exact List.forall_mem_cons.mpr ⟨trivial, List.forall_mem_cons.mpr ⟨trivial,
        List.forall_mem_cons.mpr ⟨trivial, hinside⟩⟩⟩

theorem exact_object {fields : List (Option (List Char) × Value)}
    (h : ∀ f ∈ fields, f.2.Exact) : (Value.object fields).Exact := by
  cases fields with
  | nil => exact List.forall_mem_cons.mpr ⟨trivial, List.forall_mem_singleton.mpr trivial⟩
  | cons f fields =>
      obtain ⟨hf, hfields⟩ := List.forall_mem_cons.mp h
      have hinside := List.forall_mem_append.mpr ⟨hf, exact_fieldTokens hfields⟩
      exact List.forall_mem_cons.mpr ⟨trivial, List.forall_mem_cons.mpr ⟨trivial,
        List.forall_mem_cons.mpr ⟨trivial, List.forall_mem_append.mpr
          ⟨hinside, List.forall_mem_singleton.mpr trivial⟩⟩⟩⟩

theorem exact_natural (n : Nat) : (Value.natural n).Exact :=
  List.forall_mem_singleton.mpr (isNumber_of_isNatural (isNatural_decimal n))

theorem exact_text (s : String) : (Value.text s).Exact := List.forall_mem_singleton.mpr trivial

/-- A text of a value: its tokens in order, with white space wherever it may stand. -/
structure Value.Written (v : Value) (text : String) : Prop where
  /-- The numbers in the value are number literals. -/
  exact : v.Exact
  laid : ∃ ps after, Laid ps v.tokens ∧ (∀ c ∈ after, isSpace c) ∧ text.toList = layout ps ++ after

/-- **A value is read back from every text of it.** -/
theorem parse?_of_written {v : Value} {text : String} (h : v.Written text) :
    parse? text = some v := by
  have hapart : v.tokens.IsChain Token.Apart := by
    have hclosed := apart_tokens v clear_nil
    rwa [List.append_nil] at hclosed
  obtain ⟨ps, after, hps, hafter, htext⟩ := h.laid
  unfold parse?
  rw [htext, scan_of_laid hps h.exact hapart hafter, Option.bind_some, read_tokens]

theorem toList_compact (v : Value) : v.compact.toList = layout (v.tokens.map ([], ·)) := by
  unfold Value.compact layout
  rw [String.toList_ofList, List.flatMap_map]
  rfl

theorem toList_pretty (v : Value) : v.pretty.toList = layout (v.laidOut 0 []) := by
  unfold Value.pretty layout
  rw [String.toList_ofList]

theorem written_compact {v : Value} (h : v.Exact) : v.Written v.compact :=
  ⟨h, _, [], laid_bare v.tokens, List.forall_mem_nil _,
    (toList_compact v).trans (List.append_nil _).symm⟩

theorem written_pretty {v : Value} (h : v.Exact) : v.Written v.pretty :=
  ⟨h, _, [], laid_laidOut v 0 (List.forall_mem_nil _), List.forall_mem_nil _,
    (toList_pretty v).trans (List.append_nil _).symm⟩

theorem parse?_compact {v : Value} (h : v.Exact) : parse? v.compact = some v :=
  parse?_of_written (written_compact h)

theorem parse?_pretty {v : Value} (h : v.Exact) : parse? v.pretty = some v :=
  parse?_of_written (written_pretty h)

/-! ## Natural numbers -/

theorem natural?_natural (n : Nat) : (Value.natural n).natural? = some n := by
  unfold Value.natural Value.natural?
  dsimp only
  rw [if_pos (isNatural_decimal n), Numeral.ofDecimal_decimal]

end AccumulatorMachine.Json
