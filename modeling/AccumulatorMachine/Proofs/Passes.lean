import AccumulatorMachine.Proofs.Assembly
import AccumulatorMachine.Proofs.Lines
import AccumulatorMachine.Proofs.Margins

/-!
# Passes over lines

A pass over lines is the passes over each of them, one after another (`encodeLines_cons`), and
everything else about passes is derived from that: what a pass over two stretches of lines is,
what becomes of it further down in a text, and when two passes come to the same although their
lines do not.

`Text.lines` is not easy to take apart, since whether a carriage return belongs to a line and
whether a last line is there at all depends on what comes next. Neither matters to a pass. A
carriage return at the end of a line is a blank there, and an empty line holds nothing. So a pass
over the lines of a text is a pass over what stands between its line feeds
(`encodeLines_lines`), and that splits wherever the text is cut at a line feed.
-/

namespace AccumulatorMachine.Source

/-! ## Passes one after another -/

/-- The same error, so many lines further down. -/
def SourceError.moved (count : Nat) : SourceError → SourceError
  | inLine cause => inLine cause
  | atLine number text cause => atLine (number + count) text cause

namespace Pass

/-- One pass and then another, unless the first has met an error. -/
def andThen (p q : Pass) : Pass :=
  match p.error with
  | none => ⟨p.numbers ++ q.numbers, p.assembly ++ q.assembly, q.error⟩
  | some _ => p

/-- The same pass, so many lines further down. -/
def moved (count : Nat) (p : Pass) : Pass :=
  ⟨p.numbers.map (· + count), p.assembly, p.error.map (·.moved count)⟩

theorem andThen_assoc (p q r : Pass) : (p.andThen q).andThen r = p.andThen (q.andThen r) := by
  obtain ⟨numbers, assembly, error⟩ := p
  cases error with
  | some cause => rfl
  | none =>
      obtain ⟨more, others, next⟩ := q
      cases next with
      | some cause => rfl
      | none =>
          exact congrArg₂ (Pass.mk · · r.error) (List.append_assoc numbers more r.numbers)
            (assembly.append_assoc others r.assembly)

theorem andThen_nothing (p : Pass) : p.andThen {} = p := by
  obtain ⟨numbers, assembly, error⟩ := p
  cases error with
  | some cause => rfl
  | none => exact congrArg₂ (Pass.mk · · none) (List.append_nil numbers) assembly.append_empty

theorem moved_andThen (count : Nat) (p q : Pass) :
    (p.andThen q).moved count = (p.moved count).andThen (q.moved count) := by
  obtain ⟨numbers, assembly, error⟩ := p
  cases error with
  | some cause => rfl
  | none => exact congrArg (Pass.mk · _ _) List.map_append

end Pass

/-- A pass over one line. -/
def encodeLine (number : Nat) (line : List Char) : Pass :=
  match assembleLine line with
  | .error cause => { error := some ((SourceError.inLine cause).located number line) }
  | .ok none => {}
  | .ok (some (word, entry)) => { numbers := [number], assembly := .cons word entry {} }

/-- **A pass over lines** is a pass over the first of them and then over the others. -/
theorem encodeLines_cons (number : Nat) (line : List Char) (lines : List (List Char)) :
    encodeLines number (line :: lines)
      = (encodeLine number line).andThen (encodeLines (number + 1) lines) := by
  rw [encodeLines]
  unfold encodeLine
  cases assembleLine line with
  | error cause => rfl
  | ok made =>
      cases made with
      | none => rfl
      | some both => rfl

theorem encodeLines_append (xs ys : List (List Char)) : ∀ number,
    encodeLines number (xs ++ ys)
      = (encodeLines number xs).andThen (encodeLines (number + xs.length) ys) := by
  induction xs with
  | nil => intro number; rfl
  | cons x xs ih =>
      intro number
      rw [List.cons_append, encodeLines_cons, ih, encodeLines_cons number x xs,
        Pass.andThen_assoc, List.length_cons]
      congr 3
      omega

/-- Line numbers are the only thing in a pass that depends on where it begins. -/
theorem encodeLines_add (count : Nat) (lines : List (List Char)) : ∀ number,
    encodeLines (number + count) lines = (encodeLines number lines).moved count := by
  induction lines with
  | nil => intro number; rfl
  | cons line lines ih =>
      intro number
      have hline : encodeLine (number + count) line = (encodeLine number line).moved count := by
        unfold encodeLine
        cases assembleLine line with
        | error cause => rfl
        | ok made =>
            cases made with
            | none => rfl
            | some both => rfl
      rw [encodeLines_cons, encodeLines_cons number, Pass.moved_andThen, ← hline, ← ih]
      congr 2
      omega

/-! ## Lines that read alike -/

/-- Two passes that have made the same on the same lines. If they end in errors, then in one error,
on two lines that are related. -/
inductive Pass.Related (R : List Char → List Char → Prop) : Pass → Pass → Prop
  | finished (numbers : List Nat) (assembly : Assembly) :
      Related R ⟨numbers, assembly, none⟩ ⟨numbers, assembly, none⟩
  | stopped (numbers : List Nat) (assembly : Assembly) (number : Nat) (cause : LineError)
      {line line' : List Char} (related : R line line') :
      Related R ⟨numbers, assembly, some ((SourceError.inLine cause).located number line)⟩
        ⟨numbers, assembly, some ((SourceError.inLine cause).located number line')⟩

section

variable {R : List Char → List Char → Prop}

theorem Pass.Related.andThen {p p' q q' : Pass} (hp : Related R p p') (hq : Related R q q') :
    Related R (p.andThen q) (p'.andThen q') := by
  cases hp with
  | stopped numbers assembly number cause h => exact .stopped numbers assembly number cause h
  | finished numbers assembly =>
      cases hq with
      | finished more others => exact .finished (numbers ++ more) (assembly ++ others)
      | stopped more others number cause h =>
          exact .stopped (numbers ++ more) (assembly ++ others) number cause h

theorem related_encodeLine {line line' : List Char} (h : parseLine line = parseLine line')
    (hR : R line line') (number : Nat) :
    Pass.Related R (encodeLine number line) (encodeLine number line') := by
  have hmade : assembleLine line = assembleLine line' := by
    unfold assembleLine
    rw [h]
  unfold encodeLine
  rw [hmade]
  cases assembleLine line' with
  | error cause => exact .stopped [] {} number cause hR
  | ok made =>
      cases made with
      | none => exact .finished [] {}
      | some both => exact .finished [number] (.cons both.1 both.2 {})

/-- **Lines that are read the same** one by one are encoded the same. -/
theorem related_of_forall₂ (hparse : ∀ line line', R line line' → parseLine line = parseLine line')
    {lines lines' : List (List Char)} (h : List.Forall₂ R lines lines') : ∀ number,
    Pass.Related R (encodeLines number lines) (encodeLines number lines') := by
  induction h with
  | nil => intro number; exact .finished [] {}
  | @cons line line' lines lines' hline _ ih =>
      intro number
      rw [encodeLines_cons, encodeLines_cons number line']
      exact (related_encodeLine (hparse line line' hline) hline number).andThen (ih (number + 1))

theorem Pass.Related.eq {p p' : Pass} (h : Related R p p')
    (htrim : ∀ line line', R line line' → Text.trim line = Text.trim line') : p = p' := by
  cases h with
  | finished numbers assembly => rfl
  | stopped numbers assembly number cause hR =>
      unfold SourceError.located
      rw [htrim _ _ hR]

end

/-- Two lines that hold the same, or are wrong in the same way, and look the same when trimmed. -/
structure ReadAlike (line line' : List Char) : Prop where
  parse : parseLine line = parseLine line'
  trim : Text.trim line = Text.trim line'

theorem ReadAlike.symm {line line' : List Char} (h : ReadAlike line line') :
    ReadAlike line' line := ⟨h.parse.symm, h.trim.symm⟩

theorem ReadAlike.trans {a b c : List Char} (hab : ReadAlike a b) (hbc : ReadAlike b c) :
    ReadAlike a c := ⟨hab.parse.trans hbc.parse, hab.trim.trans hbc.trim⟩

theorem readAlike_margins {before after : List Char} (hbefore : Margin before)
    (hafter : Margin after) (line : List Char) : ReadAlike (before ++ line ++ after) line :=
  ⟨parseLine_margins hbefore hafter line, trim_margins hbefore hafter line⟩

theorem readAlike_append_return (line : List Char) : ReadAlike (line ++ ['\r']) line := by
  have h : ReadAlike ([] ++ line ++ ['\r']) line := readAlike_margins margin_nil margin_return line
  exact h

theorem readAlike_chomp (line : List Char) : ReadAlike (Text.chomp line) line := by
  by_cases h : line.getLast? = some '\r'
  · obtain ⟨front, rfl⟩ := List.getLast?_eq_some_iff.mp h
    unfold Text.chomp
    rw [if_pos h, List.dropLast_concat]
    exact (readAlike_append_return front).symm
  · rw [Text.chomp_of_no_return h]
    exact ⟨rfl, rfl⟩

theorem ReadAlike.encodeLine_eq {line line' : List Char} (h : ReadAlike line line')
    (number : Nat) : encodeLine number line = encodeLine number line' :=
  (related_encodeLine h.parse h number).eq (fun _ _ hline => hline.trim)

theorem encodeLines_of_forall₂ {lines lines' : List (List Char)}
    (h : List.Forall₂ ReadAlike lines lines') (number : Nat) :
    encodeLines number lines = encodeLines number lines' :=
  (related_of_forall₂ (fun _ _ hline => hline.parse) h number).eq (fun _ _ hline => hline.trim)

/-! ## Splitting at line feeds -/

/-- An empty line holds nothing. -/
theorem encodeLines_singleton_nil (number : Nat) : encodeLines number [[]] = {} := by
  rw [encodeLines, assembleLine_of_parseLine (parseLine_eq_none_iff_gap.mpr .nil)]
  rfl

theorem encodeLines_lines_intercalate : ∀ (pieces : List (List Char)), pieces ≠ [] →
    (∀ piece ∈ pieces, '\n' ∉ piece) → ∀ number,
    encodeLines number (Text.lines (['\n'].intercalate pieces)) = encodeLines number pieces := by
  intro pieces
  induction pieces with
  | nil => intro hne; contradiction
  | cons piece pieces ih =>
      intro _ hfeed number
      obtain ⟨hpiece, hpieces⟩ := List.forall_mem_cons.mp hfeed
      rcases pieces with _ | ⟨next, pieces⟩
      · rw [List.intercalate_singleton]
        rcases eq_or_ne piece [] with rfl | hne
        -- behind the last line feed there is no line, or an empty one
        · exact (encodeLines_singleton_nil number).symm
        · rw [Text.lines_of_no_feed hne hpiece]
      · rw [List.intercalate_cons_cons, List.append_assoc, List.singleton_append,
          Text.lines_append_feed hpiece, encodeLines_cons, (readAlike_chomp piece).encodeLine_eq,
          ih (List.cons_ne_nil _ _) hpieces, ← encodeLines_cons]

/-- **A pass over the lines of a text** is a pass over what stands between its line feeds. -/
theorem encodeLines_lines (number : Nat) (text : List Char) :
    encodeLines number (Text.lines text) = encodeLines number (text.splitOn '\n') := by
  have h := encodeLines_lines_intercalate (text.splitOn '\n') (List.splitOn_ne_nil '\n' text)
    (Lists.not_mem_of_mem_splitOn '\n' text) number
  rwa [List.intercalate_splitOn] at h

theorem pass_eq (source : String) : pass source = encodeLines 1 (source.toList.splitOn '\n') :=
  encodeLines_lines 1 source.toList

end AccumulatorMachine.Source
