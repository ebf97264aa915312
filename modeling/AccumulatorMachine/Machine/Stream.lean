import AccumulatorMachine.Machine

/-!
# Byte streams

Bytes may arrive in pieces of any size. A stream is the list of answers that its reader
gives: some bytes, an interruption, which is tried again, or a failure. A read of no bytes
is the end of the stream, and so is the end of the list.

A stream is read to its end before anything runs, so what a machine makes of it depends
only on its bytes put together; after a failure nothing has run.
-/

namespace AccumulatorMachine

/-- What one attempt to read gives. -/
inductive Read where
  | bytes (piece : List UInt8)
  | interrupted
  | failed (text : String)
  deriving DecidableEq

/-- All bytes of a stream, or the text of its failure. -/
def Read.gather : List Read → Except String (List UInt8)
  | [] => .ok []
  | .interrupted :: rest => gather rest
  | .failed text :: _ => .error text
  | .bytes [] :: _ => .ok []
  | .bytes piece :: rest => (gather rest).map (piece ++ ·)

/-- The program in a stream, once all of it has been read. -/
def Machine.runStream (m : Machine) (stream : List Read) : Run :=
  match Read.gather stream with
  | .ok bytes => m.runBytes bytes
  | .error text => ⟨m, some (.io text)⟩

/-! ## Every way to feed a machine -/

/-- Words in one of the forms that a machine takes. -/
inductive Feed where
  | word (word : Word)
  | words (words : List Word)
  | program (p : Program)
  | bytes (bytes : List UInt8)
  | stream (reads : List Read)

namespace Machine

/-- One feed, in its own form. -/
def feed (m : Machine) : Feed → Run
  | .word word => match m.step word with
    | .ok next => ⟨next, none⟩
    | .error fault => ⟨m, some fault⟩
  | .words words => m.run words
  | .program p => m.runProgram p
  | .bytes bytes => m.runBytes bytes
  | .stream reads => m.runStream reads

/-- Feeds in order, up to the first that fails. -/
def feedAll (m : Machine) : List Feed → Run
  | [] => ⟨m, none⟩
  | f :: fs => (m.feed f).andThen fun next => next.feedAll fs

/-- Feeds in order, each on the machine that the last one left, failed or not. -/
def feedEach (m : Machine) (feeds : List Feed) : Machine :=
  feeds.foldl (fun before f => (before.feed f).machine) m

/-- The machines that feeding can lead to, successful or not, from a created one. -/
inductive Reachable : Machine → Prop
  | created {config : Config} {m : Machine} (made : create config = .ok m) : Reachable m
  | fed {m : Machine} (before : Reachable m) (f : Feed) : Reachable (m.feed f).machine

end Machine

end AccumulatorMachine
