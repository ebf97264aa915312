import AccumulatorMachine.Machine.Stream
import AccumulatorMachine.Proofs.Run

/-!
# Every way to feed a machine is the same way

Words may reach a machine as words, as a program, as bytes, over a reader, or one at a time,
and a long list of them may be cut into pieces that each come in a form of their own. None of
this shows: the pieces do what one run of all the words does, faults and step counts included
(`feedAll_flatten`). The argument has two halves. One piece in any form is a run of its words,
and runs compose (`run_append`), so the pieces compose as well.

Bytes are the one form that can be refused as a whole. A byte string that stops inside a word
and a reader that breaks off leave the machine alone, however many whole words came first.
-/

namespace AccumulatorMachine

/-! ## What a reader gives -/

namespace Read

/-- Answers that hold some bytes, in pieces of any size but zero, with interruptions anywhere. -/
inductive Delivers : List Read → List UInt8 → Prop where
  | done : Delivers [] []
  /-- A read of no bytes is the end, and nobody reads on. -/
  | closed (rest : List Read) : Delivers (.bytes [] :: rest) []
  | interrupted {reads : List Read} {bytes : List UInt8} :
      Delivers reads bytes → Delivers (.interrupted :: reads) bytes
  | piece {piece : List UInt8} {reads : List Read} {bytes : List UInt8} :
      piece ≠ [] → Delivers reads bytes → Delivers (.bytes piece :: reads) (piece ++ bytes)

/-- Answers that come to a failure before they come to an end. -/
inductive BreaksOff : List Read → String → Prop where
  | failed (text : String) (rest : List Read) : BreaksOff (.failed text :: rest) text
  | interrupted {reads : List Read} {text : String} :
      BreaksOff reads text → BreaksOff (.interrupted :: reads) text
  | piece {piece : List UInt8} {reads : List Read} {text : String} :
      piece ≠ [] → BreaksOff reads text → BreaksOff (.bytes piece :: reads) text

theorem gather_piece {piece : List UInt8} (h : piece ≠ []) (rest : List Read) :
    gather (.bytes piece :: rest) = (gather rest).map (piece ++ ·) := by
  obtain ⟨b, bs, rfl⟩ := List.exists_cons_of_ne_nil h
  rfl

theorem Delivers.gather_eq {reads : List Read} {bytes : List UInt8} (h : Delivers reads bytes) :
    gather reads = .ok bytes := by
  induction h with
  | done => rfl
  | closed rest => rfl
  | interrupted _ ih => exact ih
  | piece hne _ ih => rw [gather_piece hne, ih]; rfl

theorem BreaksOff.gather_eq {reads : List Read} {text : String} (h : BreaksOff reads text) :
    gather reads = .error text := by
  induction h with
  | failed text rest => rfl
  | interrupted _ ih => exact ih
  | piece hne _ ih => rw [gather_piece hne, ih]; rfl

end Read

/-! ## Runs one after another -/

namespace Run

theorem andThen_assoc (r : Run) (f g : Machine → Run) :
    (r.andThen f).andThen g = r.andThen fun m => (f m).andThen g := by
  obtain ⟨m, fault⟩ := r
  cases fault with
  | none => rfl
  | some fault => rfl

/-- Nothing comes of doing nothing afterwards. -/
theorem andThen_stay (r : Run) : r.andThen (fun m => ⟨m, none⟩) = r := by
  obtain ⟨m, fault⟩ := r
  cases fault with
  | none => rfl
  | some fault => rfl

end Run

namespace Machine

theorem feedAll_append (m : Machine) (fs gs : List Feed) :
    m.feedAll (fs ++ gs) = (m.feedAll fs).andThen (·.feedAll gs) := by
  induction fs generalizing m with
  | nil => rfl
  | cons f fs ih =>
      rw [List.cons_append, feedAll, feedAll, Run.andThen_assoc]
      congr 1
      funext next
      exact ih next

theorem feedAll_singleton (m : Machine) (f : Feed) : m.feedAll [f] = m.feed f :=
  Run.andThen_stay _

/-- Words one at a time are a run of them. -/
theorem feedAll_map_word (m : Machine) (words : List Word) :
    m.feedAll (words.map .word) = m.run words := by
  induction words generalizing m with
  | nil => rfl
  | cons word words ih =>
      rw [List.map_cons, feedAll, feed]
      cases hs : m.step word with
      | ok m' => rw [run, runWith_cons_ok hs]; exact ih m'
      | error fault => rw [run, runWith_cons_error hs]; rfl

/-! ## Bytes -/

theorem runBytes_toBytes (m : Machine) (words : List Word) :
    m.runBytes (Program.toBytes ⟨words⟩) = m.run words := by
  unfold runBytes
  rw [Program.ofBytes_toBytes]
  rfl

theorem runBytes_of_whole (m : Machine) {bytes : List UInt8} (h : bytes.length % 4 = 0) :
    m.runBytes bytes = m.run (Program.wordsOfBytes bytes) := by
  unfold runBytes Program.ofBytes
  rw [if_pos h]
  rfl

/-- Bytes that stop inside a word run nothing. -/
theorem runBytes_truncated (m : Machine) {bytes : List UInt8} (h : bytes.length % 4 ≠ 0) :
    m.runBytes bytes = ⟨m, some (.truncatedStream bytes.length (bytes.length % 4))⟩ := by
  unfold runBytes Program.ofBytes
  rw [if_neg h]

theorem runStream_of_delivers (m : Machine) {reads : List Read} {bytes : List UInt8}
    (h : Read.Delivers reads bytes) : m.runStream reads = m.runBytes bytes := by
  unfold runStream
  rw [h.gather_eq]

theorem runStream_of_breaksOff (m : Machine) {reads : List Read} {text : String}
    (h : Read.BreaksOff reads text) : m.runStream reads = ⟨m, some (.io text)⟩ := by
  unfold runStream
  rw [h.gather_eq]

end Machine

/-! ## Pieces -/

/-- The ways to hand over a piece: at once, in one of four forms, or word by word. -/
inductive Feed.Carries : List Feed → List Word → Prop where
  | words (words : List Word) : Carries [.words words] words
  | program (words : List Word) : Carries [.program ⟨words⟩] words
  | bytes (words : List Word) : Carries [.bytes (Program.toBytes ⟨words⟩)] words
  | stream {reads : List Read} {words : List Word} :
      Read.Delivers reads (Program.toBytes ⟨words⟩) → Carries [.stream reads] words
  | singly (words : List Word) : Carries (words.map .word) words

namespace Machine

/-- One piece, in whichever way, is a run of its words. -/
theorem feedAll_of_carries {fs : List Feed} {words : List Word} (h : Feed.Carries fs words)
    (m : Machine) : m.feedAll fs = m.run words := by
  cases h with
  | words => exact feedAll_singleton m _
  | program => exact feedAll_singleton m _
  | bytes => exact (feedAll_singleton m _).trans (runBytes_toBytes m words)
  | stream hreads =>
      rw [feedAll_singleton]
      exact (runStream_of_delivers m hreads).trans (runBytes_toBytes m words)
  | singly => exact feedAll_map_word m words

/-- **Pieces compose.** -/
theorem feedAll_flatten {calls : List (List Feed)} {pieces : List (List Word)}
    (h : List.Forall₂ Feed.Carries calls pieces) (m : Machine) :
    m.feedAll calls.flatten = m.run pieces.flatten := by
  -- the machine is free in the induction: the next piece starts where the last one ended
  induction h generalizing m with
  | nil => rfl
  | cons hpiece _ ih =>
      rw [List.flatten_cons, List.flatten_cons, feedAll_append, run_append,
        feedAll_of_carries hpiece]
      congr 1
      funext next
      exact ih next

/--
**All ways to feed a machine agree, and bytes are all or nothing.**

However words are cut into pieces, and in whichever way each piece is handed over, the machine
ends where one run of all the words ends, with the same fault or none. Bytes that stop inside a
word are refused with their length and what is left over, and a reader that breaks off is
reported in its own words; the machine is then as it was.
-/
theorem feeding_agrees_with_run (m : Machine) :
    (∀ (words : List Word) (pieces : List (List Word)) (calls : List (List Feed)),
      pieces.flatten = words → List.Forall₂ Feed.Carries calls pieces →
        m.feedAll calls.flatten = m.run words)
    ∧ (∀ bytes : List UInt8, bytes.length % 4 ≠ 0 →
        m.runBytes bytes = ⟨m, some (.truncatedStream bytes.length (bytes.length % 4))⟩
        ∧ ∀ reads, Read.Delivers reads bytes →
            m.runStream reads = ⟨m, some (.truncatedStream bytes.length (bytes.length % 4))⟩)
    ∧ ∀ (reads : List Read) (text : String), Read.BreaksOff reads text →
        m.runStream reads = ⟨m, some (.io text)⟩ := by
  refine ⟨?_, ?_, ?_⟩
  · rintro _ pieces calls rfl h
    exact feedAll_flatten h m
  · intro bytes h
    have hrefused := runBytes_truncated m h
    refine ⟨hrefused, ?_⟩
    intro reads hreads
    rw [runStream_of_delivers m hreads, hrefused]
  · intro reads text h
    exact runStream_of_breaksOff m h

/-- Four pieces in four ways, with an interruption and an unknown code; and a word with a byte
too many, at once, over a reader, and over one that breaks off. -/
theorem feeding_agrees_with_run_four_pieces :
    (fresh ⟨4, some 64⟩).feedAll [.word 1346,
        .stream [.bytes [187, 1, 0], .interrupted, .bytes [0, 66, 3, 0, 0]],
        .bytes [47, 1, 0, 0, 0, 1, 0, 0], .words [322]]
      = (fresh ⟨4, some 64⟩).run [1346, 443, 834, 303, 256, 322]
    ∧ ((fresh ⟨4, some 64⟩).run [1346, 443, 834, 303, 256, 322]).fault
      = some (.unknownOpcode 4 0 256)
    ∧ (fresh ⟨4, some 64⟩).runBytes [66, 5, 0, 0, 9]
      = ⟨fresh ⟨4, some 64⟩, some (.truncatedStream 5 1)⟩
    ∧ (fresh ⟨4, some 64⟩).runStream [.bytes [66, 5], .interrupted, .bytes [0, 0, 9]]
      = ⟨fresh ⟨4, some 64⟩, some (.truncatedStream 5 1)⟩
    ∧ (fresh ⟨4, some 64⟩).runStream [.bytes [66, 5, 0, 0], .failed "cut off"]
      = ⟨fresh ⟨4, some 64⟩, some (.io "cut off")⟩ := by
  obtain ⟨hpieces, htruncated, hbroken⟩ := feeding_agrees_with_run (fresh ⟨4, some 64⟩)
  have hstream : Read.Delivers [.bytes [187, 1, 0], .interrupted, .bytes [0, 66, 3, 0, 0]]
      (Program.toBytes ⟨[443, 834]⟩) := by
    have hbytes : Program.toBytes ⟨[443, 834]⟩ = [187, 1, 0] ++ ([0, 66, 3, 0, 0] ++ []) := by
      decide
    rw [hbytes]
    exact .piece (by decide) (.interrupted (.piece (by decide) .done))
  have hcalls : List.Forall₂ Feed.Carries
      [[.word 1346], [.stream [.bytes [187, 1, 0], .interrupted, .bytes [0, 66, 3, 0, 0]]],
        [.bytes [47, 1, 0, 0, 0, 1, 0, 0]], [.words [322]]]
      [[1346], [443, 834], [303, 256], [322]] :=
    .cons (.singly [1346]) (.cons (.stream hstream)
      (.cons (.bytes [303, 256]) (.cons (.words [322]) .nil)))
  obtain ⟨hbytes, hreads⟩ := htruncated [66, 5, 0, 0, 9] (by decide)
  refine ⟨hpieces _ _ _ rfl hcalls, by rfl, hbytes, ?_, ?_⟩
  · exact hreads _ (.piece (by decide) (.interrupted (.piece (by decide) .done)))
  · exact hbroken _ _ (.piece (by decide) (.failed "cut off" []))

end Machine

end AccumulatorMachine
