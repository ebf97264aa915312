import AccumulatorMachine.Json.Dump
import AccumulatorMachine.Proofs.JsonReading

/-!
# A dump keeps every cell

The digits of a cell are a number literal whatever the cell, so no dump fails (`dump_eq`). What
is written is then the array of the cells: on one line it is their decimals with commas between
them (`compact_naturals`), on several lines each has a line of its own, and only the empty array
has one line either way (`pretty_naturals`). No token of such an array has white space in it, so
white space is all that the two texts differ by (`filter_pretty_naturals`). Both are read back by
what is known of all JSON values, and a text that gives the cells back belongs to no other cells.
-/

namespace AccumulatorMachine.Json

open Numeral (decimal)

/-! ## Dumps are arrays -/

theorem naturals?_naturals (ns : List Nat) : (Value.naturals ns).naturals? = some ns := by
  unfold Value.naturals Value.naturals?
  dsimp only
  have hread : Value.natural? ∘ Value.natural = some := funext natural?_natural
  rw [List.mapM_map, hread]
  exact (List.mapM_pure (m := Option)).trans (congrArg some (List.map_id ns))

/-- **No dump fails**, and it is the array of the cells. -/
theorem dump_eq (cells : List Nat) : dump cells = .ok (Value.naturals cells) := by
  have hcell : dumpCell = fun cell => pure (Value.natural cell) := by
    funext cell
    have hliteral : Value.ofLiteral? (decimal cell) = some (Value.natural cell) :=
      if_pos (isNumber_of_isNatural (isNatural_decimal cell))
    unfold dumpCell
    rw [hliteral]
    rfl
  unfold dump
  rw [hcell, List.mapM_pure]
  rfl

/-! ## The tokens of an array of numbers -/

theorem itemTokens_naturals (ns : List Nat) :
    Value.itemTokens (ns.map .natural) = ns.flatMap fun n => [.comma, .number (decimal n)] := by
  induction ns with
  | nil => rfl
  | cons n ns ih =>
      rw [List.map_cons, List.flatMap_cons, ← ih]
      rfl

theorem tokens_naturals (n : Nat) (ns : List Nat) :
    (Value.naturals (n :: ns)).tokens = .openArray :: .number (decimal n) ::
      (ns.flatMap fun n => [.comma, .number (decimal n)]) ++ [.closeArray] := by
  rw [← itemTokens_naturals]
  rfl

theorem mem_tokens_naturals {ns : List Nat} {t : Token} (h : t ∈ (Value.naturals ns).tokens) :
    t = .openArray ∨ t = .closeArray ∨ t = .comma ∨ ∃ n, t = .number (decimal n) := by
  cases ns with
  | nil =>
      rcases List.mem_pair.mp h with rfl | rfl
      · exact .inl rfl
      · exact .inr (.inl rfl)
  | cons n ns =>
      rw [tokens_naturals, List.mem_append, List.mem_cons, List.mem_cons, List.mem_flatMap,
        List.mem_singleton] at h
      rcases h with (rfl | rfl | ⟨m, -, hm⟩) | rfl
      · exact .inl rfl
      · exact .inr (.inr (.inr ⟨n, rfl⟩))
      · rcases List.mem_pair.mp hm with rfl | rfl
        · exact .inr (.inr (.inl rfl))
        · exact .inr (.inr (.inr ⟨m, rfl⟩))
      · exact .inr (.inl rfl)

theorem exact_naturals (ns : List Nat) : (Value.naturals ns).Exact := by
  refine exact_array fun v hv => ?_
  obtain ⟨n, -, rfl⟩ := List.mem_map.mp hv
  exact exact_natural n

/-! ## Arrays on several lines -/

theorem layout_append (ps qs : List (List Char × Token)) :
    layout (ps ++ qs) = layout ps ++ layout qs := List.flatMap_append

theorem layout_itemsLaidOut {α : Type} {toJson : α → Value} {line : α → String} (depth : Nat)
    (h : ∀ a, layout ((toJson a).laidOut depth (Value.newline depth))
      = Value.newline depth ++ (line a).toList) (as : List α) :
    layout (Value.itemsLaidOut depth (as.map toJson))
      = as.flatMap fun a => ',' :: (Value.newline depth ++ (line a).toList) := by
  induction as with
  | nil => rfl
  | cons a as ih =>
      rw [List.map_cons, Value.itemsLaidOut, List.cons_append, layout_cons, layout_append, h, ih,
        List.flatMap_cons]
      rfl

/-- **An array on several lines** is the texts of its items with a comma and a new line between any
two, where a text is what an item looks like one level in. -/
theorem pretty_array {α : Type} {toJson : α → Value} {line : α → String}
    (h : ∀ a, layout ((toJson a).laidOut 1 (Value.newline 1))
      = Value.newline 1 ++ (line a).toList) (as : List α) :
    (Value.array (as.map toJson)).pretty = if as = [] then "[]"
      else "[\n    " ++ ",\n    ".intercalate (as.map line) ++ "\n]" := by
  cases as with
  | nil => rfl
  | cons a as =>
      rw [if_neg (List.cons_ne_nil a as)]
      apply String.toList_injective
      rw [toList_pretty, List.map_cons, Value.laidOut, List.cons_append, List.cons_append,
        layout_cons, layout_append, layout_append, h, layout_itemsLaidOut 1 h,
        String.toList_append, String.toList_append, String.toList_intercalate, List.map_cons,
        List.map_cons, Lists.intercalate_cons, List.map_map, List.flatMap_map]
      simp [layout, Token.render, Value.newline]

/-! ## The two texts -/

/-- Decimals between brackets, with a separator between any two. -/
def listing (opening separator closing : String) (ns : List Nat) : String :=
  opening ++ separator.intercalate (ns.map toString) ++ closing

theorem toList_toString (n : Nat) : (toString n).toList = decimal n := by
  rw [Nat.toString_eq_ofList_toDigits, String.toList_ofList]
  rfl

theorem toList_listing (opening separator closing : String) (n : Nat) (ns : List Nat) :
    (listing opening separator closing (n :: ns)).toList = opening.toList ++
      (decimal n ++ ns.flatMap fun n => separator.toList ++ decimal n) ++ closing.toList := by
  unfold listing
  rw [String.toList_append, String.toList_append, String.toList_intercalate, List.map_cons,
    List.map_cons, Lists.intercalate_cons, List.flatMap_map, List.flatMap_map, toList_toString]
  simp only [toList_toString]

theorem compact_naturals (ns : List Nat) :
    (Value.naturals ns).compact = listing "[" "," "]" ns := by
  cases ns with
  | nil => rfl
  | cons n ns =>
      apply String.toList_injective
      rw [toList_compact, tokens_naturals, toList_listing]
      simp [layout, Token.render, List.map_flatMap, List.flatMap_assoc]

theorem pretty_naturals (ns : List Nat) :
    (Value.naturals ns).pretty
      = if ns = [] then "[]" else listing "[\n    " ",\n    " "\n]" ns := by
  refine pretty_array (fun n => ?_) ns
  rw [toList_toString]
  simp [Value.natural, Value.laidOut, layout, Token.render]

theorem filter_layout {ps : List (List Char × Token)} {ts : List Token} (h : Laid ps ts)
    (hsolid : ∀ t ∈ ts, ∀ c ∈ t.render, ¬ isSpace c) :
    (layout ps).filter (!isSpace ·) = ts.flatMap Token.render := by
  induction h with
  | nil => rfl
  | @cons p t ps ts hp _ ih =>
      obtain ⟨space, t⟩ := p
      obtain ⟨hspace, rfl⟩ := hp
      obtain ⟨ht, hts⟩ := List.forall_mem_cons.mp hsolid
      have hnone : space.filter (!isSpace ·) = [] := by
        rw [List.filter_eq_nil_iff]
        intro c hc
        rw [hspace c hc]
        decide
      have hall : t.render.filter (!isSpace ·) = t.render := by
        rw [List.filter_eq_self]
        intro c hc
        rw [Bool.not_eq_true', Bool.eq_false_iff]
        exact ht c hc
      rw [layout_cons, List.filter_append, List.filter_append, hnone, hall, List.flatMap_cons]
      exact congrArg (t.render ++ ·) (ih hts)

theorem not_isSpace_of_isDigit {c : Char} (h : c.isDigit) : ¬ isSpace c :=
  fun hspace => not_isNumberChar_of_isSpace hspace (isNumberChar_of_isDigit h)

/-- Without its white space the text on several lines is the one on one line. -/
theorem filter_pretty_naturals (ns : List Nat) :
    (Value.naturals ns).pretty.toList.filter (!isSpace ·) = (Value.naturals ns).compact.toList := by
  have hsolid : ∀ t ∈ (Value.naturals ns).tokens, ∀ c ∈ t.render, ¬ isSpace c := by
    intro t ht
    rcases mem_tokens_naturals ht with rfl | rfl | rfl | ⟨n, rfl⟩
    · exact List.forall_mem_singleton.mpr (by decide)
    · exact List.forall_mem_singleton.mpr (by decide)
    · exact List.forall_mem_singleton.mpr (by decide)
    · exact fun c hc => not_isSpace_of_isDigit (Numeral.isDigit_of_mem_decimal hc)
  rw [toList_pretty, filter_layout (laid_laidOut _ 0 (List.forall_mem_nil _)) hsolid, Value.compact,
    String.toList_ofList]

/-! ## Reading a dump back -/

/-- The natural numbers in a text that is an array of them. -/
def readNaturals? (text : String) : Option (List Nat) := (parse? text).bind Value.naturals?

theorem readNaturals?_compact (ns : List Nat) :
    readNaturals? (Value.naturals ns).compact = some ns := by
  unfold readNaturals?
  rw [parse?_compact (exact_naturals ns), Option.bind_some, naturals?_naturals]

theorem readNaturals?_pretty (ns : List Nat) :
    readNaturals? (Value.naturals ns).pretty = some ns := by
  unfold readNaturals?
  rw [parse?_pretty (exact_naturals ns), Option.bind_some, naturals?_naturals]

/-- **A dump is lossless.** It never fails, its two texts spell the cells in exact decimals and
differ by white space alone, and each of them gives the cells back, so that no text of these cells
is a text of others. -/
theorem dump_is_lossless (cells : List Nat) :
    dump cells = .ok (Value.naturals cells)
      ∧ (Value.naturals cells).compact = listing "[" "," "]" cells
      ∧ (Value.naturals cells).pretty
          = (if cells = [] then "[]" else listing "[\n    " ",\n    " "\n]" cells)
      ∧ (Value.naturals cells).pretty.toList.filter (!isSpace ·)
          = (Value.naturals cells).compact.toList
      ∧ readNaturals? (Value.naturals cells).compact = some cells
      ∧ readNaturals? (Value.naturals cells).pretty = some cells
      ∧ ∀ others, others ≠ cells →
          (Value.naturals others).compact ≠ (Value.naturals cells).compact
            ∧ (Value.naturals others).pretty ≠ (Value.naturals cells).pretty
            ∧ (Value.naturals others).compact ≠ (Value.naturals cells).pretty := by
  refine ⟨dump_eq cells, compact_naturals cells, pretty_naturals cells,
    filter_pretty_naturals cells, readNaturals?_compact cells, readNaturals?_pretty cells, ?_⟩
  intro others hothers
  -- a text that is read as both lists makes them one
  have hsame : ∀ text, readNaturals? text = some others → readNaturals? text ≠ some cells := by
    intro text hread hread'
    rw [hread] at hread'
    exact hothers (Option.some.inj hread')
  refine ⟨fun heq => ?_, fun heq => ?_, fun heq => ?_⟩
  · exact hsame _ (readNaturals?_compact others) (heq ▸ readNaturals?_compact cells)
  · exact hsame _ (readNaturals?_pretty others) (heq ▸ readNaturals?_pretty cells)
  · exact hsame _ (readNaturals?_compact others) (heq ▸ readNaturals?_pretty cells)

/-- Two cells, one of them beyond 64 bits, and a dump that differs from theirs in the last digit. -/
theorem dump_is_lossless_large_neighbours :
    [0, 10 ^ 20 + 1] ≠ [0, 10 ^ 20]
      ∧ (Value.naturals [0, 10 ^ 20]).compact = "[0,100000000000000000000]"
      ∧ (Value.naturals [0, 10 ^ 20]).pretty = "[\n    0,\n    100000000000000000000\n]"
      ∧ (Value.naturals [0, 10 ^ 20 + 1]).pretty ≠ (Value.naturals [0, 10 ^ 20]).pretty :=
  have hlossless := dump_is_lossless [0, 10 ^ 20]
  ⟨by decide, hlossless.2.1, hlossless.2.2.1,
    (hlossless.2.2.2.2.2.2 [0, 10 ^ 20 + 1] (by decide)).2.1⟩

end AccumulatorMachine.Json
