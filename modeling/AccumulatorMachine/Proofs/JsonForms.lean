import AccumulatorMachine.Json.Form
import AccumulatorMachine.Proofs.JsonReading

/-!
# JSON forms are read back

Writing has one form for a value and reading accepts many, so both are pinned down on JSON values
first. A number or a string is the form of one number or text (`natural?_eq_some_iff`,
`text?_eq_some_iff`). An object is a record just if it is the record as it is written, with its
fields in another order and fields of other names among them (`Value.Rearranged`), and the one
other form of a record is the array of its fields' values (`record?_eq_some_iff`). What is read as
an entry, an instruction or an opcode is then known exactly, and the form that is written is one of
the forms that are read.

From there to texts the step is the same for all three (`lossless_of_exact`): their forms hold no
number but those in decimal, and such values are read back from their texts.
-/

namespace AccumulatorMachine.Json

/-! ## Numbers and texts -/

/-- The literal of a natural number is its decimal. -/
theorem decimal_ofDecimal {literal : List Char} (h : isNatural literal) :
    Numeral.decimal (Numeral.ofDecimal literal) = literal := by
  unfold isNatural at h
  split at h
  · contradiction
  · rfl
  · rename_i c rest _
    rw [Bool.and_eq_true, bne_iff_ne, List.all_eq_true] at h
    obtain ⟨hc, hdigits⟩ := h
    obtain ⟨hdigit, hrest⟩ := List.forall_mem_cons.mp hdigits
    have hpos : 0 < c.toNat - '0'.toNat := by
      have hlow := (Char.isDigit_iff_toNat.mp hdigit).1
      have hne := mt Char.toNat_inj.mp hc
      omega
    unfold Numeral.decimal Numeral.ofDecimal
    rw [Nat.ofDigitChars_cons, Nat.mul_zero, Nat.zero_add,
      Numeral.toDigits_ofDigitChars hrest hpos,
      Nat.toDigits_of_lt_base (Numeral.value_lt_of_isDigit hdigit),
      Numeral.digitChar_of_isDigit hdigit, List.singleton_append]

theorem natural?_eq_some_iff {v : Value} {n : Nat} : v.natural? = some n ↔ v = .natural n := by
  constructor
  · intro h
    unfold Value.natural? at h
    split at h
    · split at h
      · rename_i literal hliteral
        obtain rfl := Option.some.inj h
        rw [Value.natural, decimal_ofDecimal hliteral]
      · contradiction
    · contradiction
  · rintro rfl
    exact natural?_natural n

theorem naturalBelow?_eq_some_iff {v : Value} {bound n : Nat} :
    v.naturalBelow? bound = some n ↔ n < bound ∧ v = .natural n := by
  rw [← natural?_eq_some_iff]
  unfold Value.naturalBelow?
  cases v.natural? with
  | none => simp
  | some m =>
      dsimp only
      by_cases hm : m < bound
      · rw [if_pos hm]
        exact ⟨fun h => ⟨Option.some.inj h ▸ hm, h⟩, fun h => h.2⟩
      · rw [if_neg hm]
        exact ⟨nofun, fun ⟨hn, h⟩ => absurd (Option.some.inj h ▸ hn) hm⟩

theorem text?_eq_some_iff {v : Value} {s : String} : v.text? = some s ↔ v = .text s := by
  constructor
  · intro h
    unfold Value.text? at h
    split at h
    · obtain rfl := Option.some.inj h
      rw [Value.text, String.toList_ofList]
    · contradiction
  · rintro rfl
    exact congrArg some String.ofList_toList

/-! ## Records -/

/-- An object with the fields of another in any order, and fields of other names among them. -/
inductive Value.Rearranged : Value → Value → Prop where
  | fields {own others all : List (Option (List Char) × Value)} : all.Perm (own ++ others) →
      (∀ f ∈ others, f.1.isSome ∧ f.1 ∉ own.map Prod.fst) → Rearranged (.object own) (.object all)

theorem only?_eq_some_iff {fields : List (Option (List Char) × Value)} {name : String}
    {value : Value} : Value.only? fields name = some value ↔
      (fields.filter (·.1 == some name.toList)).Perm [(some name.toList, value)] := by
  rw [List.perm_singleton]
  unfold Value.only?
  split
  · rename_i key found hfilter
    have hkey : (key, found) ∈ fields.filter (·.1 == some name.toList) := by
      rw [hfilter]
      exact List.mem_singleton_self _
    obtain rfl := beq_iff_eq.mp (List.mem_filter.mp hkey).2
    rw [hfilter]
    simp
  · rename_i hfilter
    exact ⟨nofun, fun h => absurd h (hfilter _ _)⟩

theorem only?_of_perm {fields rearranged : List (Option (List Char) × Value)}
    (h : fields.Perm rearranged) (name : String) :
    Value.only? fields name = Value.only? rearranged name := by
  refine Option.ext fun value => ?_
  rw [only?_eq_some_iff, only?_eq_some_iff]
  have hfilter := h.filter (·.1 == some name.toList)
  exact ⟨hfilter.symm.trans, hfilter.trans⟩

theorem only?_cons_of_ne {f : Option (List Char) × Value} {name : String}
    (h : f.1 ≠ some name.toList) (fields : List (Option (List Char) × Value)) :
    Value.only? (f :: fields) name = Value.only? fields name := by
  unfold Value.only?
  rw [List.filter_cons_of_neg]
  rwa [beq_iff_eq]

theorem only?_cons_self {fields : List (Option (List Char) × Value)} {name : String}
    (h : ∀ f ∈ fields, f.1 ≠ some name.toList) (value : Value) :
    Value.only? ((some name.toList, value) :: fields) name = some value := by
  have hnone : fields.filter (·.1 == some name.toList) = [] := by
    rw [List.filter_eq_nil_iff]
    intro f hf
    rw [beq_iff_eq]
    exact h f hf
  rw [only?_eq_some_iff, List.filter_cons, if_pos (beq_self_eq_true _), hnone]

/-- The only field of a name can be taken out in front. -/
theorem perm_of_only? {fields : List (Option (List Char) × Value)} {name : String} {value : Value}
    (h : Value.only? fields name = some value) :
    ∃ rest, fields.Perm ((some name.toList, value) :: rest) ∧
      ∀ f ∈ rest, f.1 ≠ some name.toList := by
  refine ⟨fields.filter fun f => !(f.1 == some name.toList), ?_, fun f hf => ?_⟩
  · have hsplit := List.filter_append_perm (·.1 == some name.toList) fields
    exact hsplit.symm.trans ((only?_eq_some_iff.mp h).append_right _)
  · have hne := (List.mem_filter.mp hf).2
    rwa [Bool.not_eq_true', beq_eq_false_iff_ne] at hne

/-- The fields of a record in an object. -/
def named (own : List (String × Value)) : List (Option (List Char) × Value) :=
  own.map fun (name, value) => (some name.toList, value)

theorem mem_keys_named {own : List (String × Value)} {name : String} :
    some name.toList ∈ (named own).map Prod.fst ↔ name ∈ own.map Prod.fst := by
  simp [named, String.toList_inj]

/-- **Fields are found each under its name just if the object holds them**, in some order, and has
other names for what else it holds. -/
theorem only?_forall_iff {own : List (String × Value)} (hown : (own.map Prod.fst).Nodup)
    {fields : List (Option (List Char) × Value)} :
    (∀ p ∈ own, Value.only? fields p.1 = some p.2) ↔ ∃ others,
      fields.Perm (named own ++ others) ∧ ∀ f ∈ others, f.1 ∉ (named own).map Prod.fst := by
  induction own generalizing fields with
  | nil =>
      exact ⟨fun _ => ⟨fields, .refl _, fun _ _ => List.not_mem_nil⟩,
        fun _ => List.forall_mem_nil _⟩
  | cons p own ih =>
      obtain ⟨name, value⟩ := p
      obtain ⟨hname, hown⟩ := List.nodup_cons.mp hown
      -- the other fields are looked for in the rest
      have hrest : ∀ rest, fields.Perm ((some name.toList, value) :: rest) → ∀ p ∈ own,
          Value.only? fields p.1 = Value.only? rest p.1 := by
        intro rest hperm p hp
        have hne : some name.toList ≠ some p.1.toList := by
          intro heq
          rw [String.toList_injective (Option.some.inj heq)] at hname
          exact hname (List.mem_map.mpr ⟨p, hp, rfl⟩)
        rw [only?_of_perm hperm, only?_cons_of_ne hne]
      constructor
      · intro h
        obtain ⟨hfirst, hothers⟩ := List.forall_mem_cons.mp h
        obtain ⟨rest, hperm, hne⟩ := perm_of_only? hfirst
        obtain ⟨others, hmore, hforeign⟩ :=
          (ih hown).mp fun p hp => (hrest rest hperm p hp).symm.trans (hothers p hp)
        refine ⟨others, hperm.trans (hmore.cons _), fun f hf hkey => ?_⟩
        rcases List.mem_cons.mp hkey with heq | hkey
        · exact hne f (hmore.mem_iff.mpr (List.mem_append_right _ hf)) heq
        · exact hforeign f hf hkey
      · rintro ⟨others, hperm, hforeign⟩
        have hnone : ∀ f ∈ named own ++ others, f.1 ≠ some name.toList := by
          intro f hf heq
          rcases List.mem_append.mp hf with hf | hf
          · exact hname (mem_keys_named.mp (heq ▸ List.mem_map_of_mem hf))
          · exact hforeign f hf (heq ▸ List.mem_cons_self)
        refine List.forall_mem_cons.mpr ⟨?_, fun p hp => ?_⟩
        · rw [only?_of_perm hperm]
          exact only?_cons_self hnone value
        · rw [hrest _ hperm p hp]
          have hstill : ∀ f ∈ others, f.1 ∉ (named own).map Prod.fst :=
            fun f hf hkey => hforeign f hf (List.mem_cons_of_mem _ hkey)
          exact (ih hown).mpr ⟨others, .refl _, hstill⟩ p hp

theorem record?_object_eq_some_iff {own : List (String × Value)}
    (hown : (own.map Prod.fst).Nodup) {all : List (Option (List Char) × Value)} :
    (Value.object all).record? (own.map Prod.fst) = some (own.map Prod.snd) ↔
      (Value.record own).Rearranged (.object all) := by
  have hread : (own.map Prod.fst).mapM (Value.only? all) = some (own.map Prod.snd) ↔
      ∀ p ∈ own, Value.only? all p.1 = some p.2 := by
    rw [Lists.mapM_eq_some_iff, List.map_map, List.map_map, List.map_inj_left]
    rfl
  unfold Value.record?
  dsimp only
  constructor
  · intro h
    split at h
    · rename_i hkeys
      rw [List.all_eq_true] at hkeys
      obtain ⟨others, hperm, hforeign⟩ := (only?_forall_iff hown).mp (hread.mp h)
      refine .fields hperm fun f hf => ⟨hkeys f ?_, hforeign f hf⟩
      exact hperm.mem_iff.mpr (List.mem_append_right _ hf)
    · contradiction
  · rintro (⟨hperm, hforeign⟩ : (Value.object (named own)).Rearranged (.object all))
    rw [if_pos, hread]
    · exact (only?_forall_iff hown).mpr ⟨_, hperm, fun f hf => (hforeign f hf).2⟩
    · rw [List.all_eq_true]
      intro f hf
      rcases List.mem_append.mp (hperm.mem_iff.mp hf) with hf | hf
      · obtain ⟨p, -, rfl⟩ := List.mem_map.mp hf
        rfl
      · exact (hforeign f hf).1

/-- **What is read as a record**: the array of the values of its fields, or an object that holds
the fields themselves. -/
theorem record?_eq_some_iff {own : List (String × Value)} (hown : (own.map Prod.fst).Nodup)
    {v : Value} : v.record? (own.map Prod.fst) = some (own.map Prod.snd) ↔
      v = .array (own.map Prod.snd) ∨ (Value.record own).Rearranged v := by
  cases v with
  | array items =>
      unfold Value.record?
      dsimp only
      constructor
      · intro h
        split at h
        · exact Or.inl (congrArg Value.array (Option.some.inj h))
        · contradiction
      · rintro (heq | ⟨⟨⟩⟩)
        obtain rfl := Value.array.inj heq
        rw [if_pos (by rw [List.length_map, List.length_map])]
  | object all =>
      rw [record?_object_eq_some_iff hown]
      exact (or_iff_right nofun).symm
  | _ =>
      refine ⟨nofun, ?_⟩
      rintro (heq | ⟨⟨⟩⟩)
      contradiction

theorem rearranged_self (own : List (String × Value)) :
    (Value.record own).Rearranged (Value.record own) :=
  .fields (by rw [List.append_nil]) (List.forall_mem_nil _)

theorem exact_record {own : List (String × Value)} (h : ∀ p ∈ own, p.2.Exact) :
    (Value.record own).Exact := by
  refine exact_object fun f hf => ?_
  obtain ⟨p, hp, rfl⟩ := List.mem_map.mp hf
  exact h p hp

end AccumulatorMachine.Json

namespace AccumulatorMachine

open Json

/-! ## Entries -/

namespace TraceEntry

/-- The fields of the record of an entry. -/
def fields (e : TraceEntry) : List (String × Value) :=
  [("mnemonic", .text e.mnemonic), ("opcode", .natural e.code.toNat),
    ("operand", .natural e.operand.toNat), ("instruction_word", .natural e.word.toNat)]

theorem nodup_fields (e : TraceEntry) : (e.fields.map Prod.fst).Nodup := by
  show ["mnemonic", "opcode", "operand", "instruction_word"].Nodup
  decide

theorem ofJson?_eq_some_iff_record? {v : Value} {e : TraceEntry} :
    ofJson? v = some e ↔
      v.record? (e.fields.map Prod.fst) = some (e.fields.map Prod.snd) := by
  show _ ↔ v.record? ["mnemonic", "opcode", "operand", "instruction_word"] = some
    [.text e.mnemonic, .natural e.code.toNat, .natural e.operand.toNat, .natural e.word.toNat]
  unfold ofJson?
  constructor
  · intro h
    obtain ⟨values, hvalues, h⟩ := Option.bind_eq_some_iff.mp h
    split at h
    · rename_i mnemonic code operand word
      simp only [Option.bind_eq_bind, Option.bind_eq_some_iff, text?_eq_some_iff,
        naturalBelow?_eq_some_iff, Option.some.injEq] at h
      obtain ⟨s, rfl, c, ⟨hc, rfl⟩, o, ⟨ho, rfl⟩, w, ⟨hw, rfl⟩, rfl⟩ := h
      rw [hvalues]
      dsimp only
      rw [UInt8.toNat_ofNat_of_lt' hc, UInt32.toNat_ofNat_of_lt' ho, UInt32.toNat_ofNat_of_lt' hw]
    · contradiction
  · intro h
    have hc := naturalBelow?_eq_some_iff.mpr ⟨e.code.toNat_lt, rfl⟩
    have ho := naturalBelow?_eq_some_iff.mpr ⟨e.operand.toNat_lt, rfl⟩
    have hw := naturalBelow?_eq_some_iff.mpr ⟨e.word.toNat_lt, rfl⟩
    simp [h, text?_eq_some_iff.mpr rfl, hc, ho, hw, UInt8.size, UInt32.size]

/-- **What is read as an entry.** -/
theorem ofJson?_eq_some_iff {v : Value} {e : TraceEntry} :
    ofJson? v = some e ↔ v = .array (e.fields.map Prod.snd) ∨ e.toJson.Rearranged v := by
  rw [ofJson?_eq_some_iff_record?, record?_eq_some_iff e.nodup_fields]
  rfl

theorem ofJson?_toJson (e : TraceEntry) : ofJson? e.toJson = some e :=
  ofJson?_eq_some_iff.mpr (Or.inr (rearranged_self e.fields))

theorem exact_toJson (e : TraceEntry) : e.toJson.Exact := by
  refine exact_record fun p hp => ?_
  simp only [List.mem_cons, List.not_mem_nil, or_false] at hp
  rcases hp with rfl | rfl | rfl | rfl
  · exact exact_text e.mnemonic
  · exact exact_natural e.code.toNat
  · exact exact_natural e.operand.toNat
  · exact exact_natural e.word.toNat

end TraceEntry

/-! ## Opcodes and instructions -/

namespace Opcode

theorem ofTag?_eq_some_iff {tag : List Char} {op : Opcode} :
    ofTag? tag = some op ↔ tag = op.tag.toList := by
  constructor
  · intro h
    unfold ofTag? at h
    have hfound := List.find?_some h
    exact (beq_iff_eq.mp hfound).symm
  · rintro rfl
    exact op.ofTag?_tag

/-- **What is read as an opcode.** -/
theorem ofJson?_eq_some_iff {v : Value} {op : Opcode} :
    ofJson? v = some op ↔ v = .text op.tag ∨ v = .object [(some op.tag.toList, .null)] := by
  constructor
  · intro h
    unfold ofJson? at h
    split at h
    · rw [ofTag?_eq_some_iff.mp h]
      exact Or.inl rfl
    · rw [ofTag?_eq_some_iff.mp h]
      exact Or.inr rfl
    · contradiction
  · rintro (rfl | rfl)
    · exact op.ofTag?_tag
    · exact op.ofTag?_tag

theorem exact_toJson (op : Opcode) : op.toJson.Exact := exact_text op.tag

end Opcode

namespace Instruction

/-- The one field of the record under the tag of an instruction. -/
def fields (i : Instruction) : List (String × Value) :=
  [(i.opcode.operandName, .natural i.operand.toNat)]

/-- **What is read as an instruction.** -/
theorem ofJson?_eq_some_iff {v : Value} {i : Instruction} :
    ofJson? v = some i ↔ ∃ content, v = .object [(some i.opcode.tag.toList, content)] ∧
      (content = .array (i.fields.map Prod.snd) ∨ (Value.record i.fields).Rearranged content) := by
  have hfields : ∀ content, content.record? [i.opcode.operandName]
      = some [.natural i.operand.toNat] ↔
        content = .array (i.fields.map Prod.snd) ∨ (Value.record i.fields).Rearranged content := by
    have hnodup : (i.fields.map Prod.fst).Nodup := List.nodup_singleton _
    exact fun _ => record?_eq_some_iff hnodup
  simp only [← hfields]
  constructor
  · intro h
    unfold ofJson? at h
    split at h
    · rename_i tag content
      obtain ⟨opcode, htag, h⟩ := Option.bind_eq_some_iff.mp h
      obtain ⟨values, hvalues, h⟩ := Option.bind_eq_some_iff.mp h
      split at h
      · rename_i operand
        obtain ⟨n, hn, rfl⟩ := Option.map_eq_some_iff.mp h
        obtain ⟨hbelow, rfl⟩ := naturalBelow?_eq_some_iff.mp hn
        rw [Opcode.ofTag?_eq_some_iff.mp htag]
        refine ⟨content, rfl, ?_⟩
        dsimp only
        rw [hvalues, UInt32.toNat_ofNat_of_lt' hbelow]
      · contradiction
    · contradiction
  · rintro ⟨content, rfl, hcontent⟩
    have hn := naturalBelow?_eq_some_iff.mpr ⟨i.operand.toNat_lt, rfl⟩
    simp [ofJson?, hcontent, hn, UInt32.size]

theorem ofJson?_toJson (i : Instruction) : ofJson? i.toJson = some i :=
  ofJson?_eq_some_iff.mpr ⟨_, rfl, Or.inr (rearranged_self i.fields)⟩

theorem exact_toJson (i : Instruction) : i.toJson.Exact := by
  refine exact_record (List.forall_mem_singleton.mpr ?_)
  exact exact_record (List.forall_mem_singleton.mpr (exact_natural i.operand.toNat))

end Instruction

/-! ## Texts -/

namespace Json

/-- Writing loses nothing. -/
structure Lossless {α : Type} (toJson : α → Value) (ofJson? : Value → Option α) : Prop where
  /-- What is written is read back. -/
  back : ∀ a, readAs ofJson? (toJson a).compact = some a
  /-- What any text is read as is read again from the text that is written for it. -/
  again : ∀ text a, readAs ofJson? text = some a → readAs ofJson? (toJson a).compact = some a
  /-- No two things are written alike. -/
  injective : Function.Injective fun a => (toJson a).compact

theorem readAs_of_written {α : Type} {ofJson? : Value → Option α} {v : Value} {text : String}
    (h : v.Written text) : readAs ofJson? text = ofJson? v := by
  unfold readAs
  rw [parse?_of_written h, Option.bind_some]

theorem lossless_of_exact {α : Type} {toJson : α → Value} {ofJson? : Value → Option α}
    (hexact : ∀ a, (toJson a).Exact) (hback : ∀ a, ofJson? (toJson a) = some a) :
    Lossless toJson ofJson? := by
  have hread : ∀ a, readAs ofJson? (toJson a).compact = some a := fun a =>
    (readAs_of_written (written_compact (hexact a))).trans (hback a)
  refine ⟨hread, fun _ a _ => hread a, fun a b hsame => ?_⟩
  exact Option.some.inj ((hread a).symm.trans ((congrArg _ hsame).trans (hread b)))

theorem readAs_eq_some_iff {α : Type} {ofJson? : Value → Option α} {text : String} {a : α} :
    readAs ofJson? text = some a ↔ ∃ v, parse? text = some v ∧ ofJson? v = some a :=
  Option.bind_eq_some_iff

/--
**Trace entries, instructions and opcodes are read back from their JSON texts.**

Writing any of them loses nothing. Reading is more liberal: a value is read from all texts of it,
whatever white space they have. A text is then read as an entry just if its value is the entry's
own object with its fields in any order and fields of other names among them, or the array of the
fields' values; as an instruction just if it is an object with the tag as its one key and such a
record under it; as an opcode just if it is the tag, or an object with the tag as its one key and
null under it.
-/
theorem forms_round_trip :
    Lossless TraceEntry.toJson TraceEntry.ofJson?
    ∧ Lossless Instruction.toJson Instruction.ofJson?
    ∧ Lossless Opcode.toJson Opcode.ofJson?
    ∧ (∀ (v : Value) (text : String), v.Written text → parse? text = some v)
    ∧ (∀ text e, readAs TraceEntry.ofJson? text = some e ↔ ∃ v, parse? text = some v ∧
        (v = .array (e.fields.map Prod.snd) ∨ e.toJson.Rearranged v))
    ∧ (∀ text i, readAs Instruction.ofJson? text = some i ↔
        ∃ content, parse? text = some (.object [(some i.opcode.tag.toList, content)]) ∧
          (content = .array (i.fields.map Prod.snd)
            ∨ (Value.record i.fields).Rearranged content))
    ∧ ∀ text op, readAs Opcode.ofJson? text = some op ↔
        parse? text = some (.text op.tag)
          ∨ parse? text = some (.object [(some op.tag.toList, .null)]) := by
  refine ⟨lossless_of_exact TraceEntry.exact_toJson TraceEntry.ofJson?_toJson,
    lossless_of_exact Instruction.exact_toJson Instruction.ofJson?_toJson,
    lossless_of_exact Opcode.exact_toJson Opcode.ofJson?_toJson,
    fun _ _ => parse?_of_written, fun text e => ?_, fun text i => ?_, fun text op => ?_⟩
  · simp only [readAs_eq_some_iff, TraceEntry.ofJson?_eq_some_iff]
  · rw [readAs_eq_some_iff]
    simp only [Instruction.ofJson?_eq_some_iff]
    constructor
    · rintro ⟨_, hparse, content, rfl, hcontent⟩
      exact ⟨content, hparse, hcontent⟩
    · rintro ⟨content, hparse, hcontent⟩
      exact ⟨_, hparse, content, rfl, hcontent⟩
  · rw [readAs_eq_some_iff]
    simp only [Opcode.ofJson?_eq_some_iff]
    constructor
    · rintro ⟨_, hparse, rfl | rfl⟩
      · exact Or.inl hparse
      · exact Or.inr hparse
    · rintro (hparse | hparse)
      · exact ⟨_, hparse, Or.inl rfl⟩
      · exact ⟨_, hparse, Or.inr rfl⟩

/-- An entry with quotes and control characters in its mnemonic is read back, and so is one from a
text over several lines, with its fields out of order and a field among them that no entry has. -/
theorem forms_round_trip_through_a_liberal_text :
    readAs TraceEntry.ofJson? (TraceEntry.toJson ⟨"\"\\\n\x01é", 1, 7, 1793⟩).compact
        = some ⟨"\"\\\n\x01é", 1, 7, 1793⟩
    ∧ readAs TraceEntry.ofJson?
        ("\x7b\n    \"operand\": 7,\n    \"instruction_word\": 1793,\n    \"note\": "
          ++ "[\n        \x7b\n            \"opcode\": null\n        \x7d\n    ],\n    "
          ++ "\"mnemonic\": \"READ_MEM\",\n    \"opcode\": 1\n\x7d")
        = some ⟨"READ_MEM", 1, 7, 1793⟩ := by
  refine ⟨forms_round_trip.1.back _, ?_⟩
  let first : List (Option (List Char) × Value) :=
    [(some "mnemonic".toList, .text "READ_MEM"), (some "opcode".toList, .natural 1)]
  let second : List (Option (List Char) × Value) :=
    [(some "operand".toList, .natural 7), (some "instruction_word".toList, .natural 1793),
      (some "note".toList, .array [.object [(some "opcode".toList, .null)]])]
  have hexact : (Value.object (second ++ first)).Exact := by
    refine exact_object fun f hf => ?_
    simp only [first, second, List.mem_append, List.mem_cons, List.not_mem_nil, or_false] at hf
    rcases hf with (rfl | rfl | rfl) | rfl | rfl
    · exact exact_natural 7
    · exact exact_natural 1793
    · exact exact_array (List.forall_mem_singleton.mpr
        (exact_object (List.forall_mem_singleton.mpr (List.forall_mem_singleton.mpr trivial))))
    · exact exact_text "READ_MEM"
    · exact exact_natural 1
  obtain ⟨-, -, -, hparse, hread, -⟩ := forms_round_trip
  have hrearranged : (TraceEntry.toJson ⟨"READ_MEM", 1, 7, 1793⟩).Rearranged
      (.object (second ++ first)) := by
    have hperm : (second ++ first).Perm (first ++ second.take 2 ++ second.drop 2) :=
      List.perm_append_comm
    exact .fields hperm (List.forall_mem_singleton.mpr (by decide))
  have hvalue := hparse _ _ (written_pretty hexact)
  exact (congrArg _ (by decide +kernel)).trans
    ((hread _ _).mpr ⟨_, hvalue, Or.inr hrearranged⟩)

end Json

end AccumulatorMachine
