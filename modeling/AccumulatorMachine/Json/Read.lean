import AccumulatorMachine.Json.Scan
import AccumulatorMachine.Json.Value

/-!
# Reading JSON values

Tokens are read from left to right with a stack of the arrays and objects that are still
open, so no bound on nesting is needed. Two functions take turns: one expects a value, the
other has just been given one and looks at what follows it.

A text is a value if all its tokens are, and what is left open or follows is an error.
-/

namespace AccumulatorMachine.Json

/-- An array or an object that is still open, with what it holds so far, last first. -/
inductive Frame where
  | array (items : List Value)
  /-- The key is that of the value to come. -/
  | object (fields : List (Option (List Char) × Value)) (key : Option (List Char))

mutual

/-- Expects a value inside the open frames. -/
def readValue (frames : List Frame) : List Token → Option Value
  | .null :: rest => readMore frames .null rest
  | .bool b :: rest => readMore frames (.bool b) rest
  | .number literal :: rest => readMore frames (.number literal) rest
  | .string text :: rest => readMore frames (.string text) rest
  | .openArray :: .closeArray :: rest => readMore frames (.array []) rest
  | .openArray :: rest => readValue (.array [] :: frames) rest
  | .openObject :: .closeObject :: rest => readMore frames (.object []) rest
  | .openObject :: .string key :: .colon :: rest => readValue (.object [] key :: frames) rest
  | _ => none

/-- Goes on after a value inside the open frames. -/
def readMore (frames : List Frame) (v : Value) : List Token → Option Value
  | [] =>
    match frames with
    | [] => some v
    | _ :: _ => none
  | .comma :: .string key :: .colon :: rest =>
    match frames with
    | .object fields last :: frames => readValue (.object ((last, v) :: fields) key :: frames) rest
    | _ => none
  | .comma :: rest =>
    match frames with
    | .array items :: frames => readValue (.array (v :: items) :: frames) rest
    | _ => none
  | .closeArray :: rest =>
    match frames with
    | .array items :: frames => readMore frames (.array (v :: items).reverse) rest
    | _ => none
  | .closeObject :: rest =>
    match frames with
    | .object fields last :: frames => readMore frames (.object ((last, v) :: fields).reverse) rest
    | _ => none
  | _ => none

end

def parse? (text : String) : Option Value := (scan text.toList).bind (readValue [])

/-- What a text says, in a form that a reader of values knows. -/
def readAs {α : Type} (ofJson? : Value → Option α) (text : String) : Option α :=
  (parse? text).bind ofJson?

end AccumulatorMachine.Json
