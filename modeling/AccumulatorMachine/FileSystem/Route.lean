import AccumulatorMachine.FileSystem.Access

/-!
# Paths and routes

A place has one path, the names from the current folder to it. Places outside the current
folder have paths too: one above it begins with `..`, as often as it takes to get there, and
one that is given from the root begins with `/`. No file has either of these names, so what
is outside is never taken for something inside. A name is a text here; names that are no
UTF-8 are left out.

The text of a path is a route to a place, and many routes lead to the same one. A route is
followed name by name, and every name but the last has to lead to a folder, even where a
later `..` goes back again. Slashes between names count once however many they are. Slashes
after the last name ask for a folder, and so they are remembered.
-/

namespace AccumulatorMachine.FileSystem

/-- The names on the way from the current folder. -/
abbrev Path := List String

namespace Path

/-- The root of all folders. -/
def root : Path := ["/"]

/-- The folder above; there is none above the root. -/
def parent (path : Path) : Path :=
  match path.getLast? with
  | none | some ".." => path ++ [".."]
  | some "/" => path
  | some _ => path.dropLast

end Path

/-- The pieces of a text between its slashes. -/
def pieces : List Char → List (List Char)
  | [] => [[]]
  | '/' :: rest => [] :: pieces rest
  | c :: rest =>
    match pieces rest with
    | [] => [[c]]
    | piece :: more => (c :: piece) :: more

/-- The names in the text of a path. -/
def names (text : String) : List String := ((pieces text.toList).filter (!·.isEmpty)).map String.ofList

/-- A way to a place. -/
structure Route where
  origin : Path
  folders : List String
  /-- The name of the place in the last folder. -/
  last : String
  /-- Whether the place has to be a folder. -/
  toFolder : Bool
  deriving DecidableEq

/-- The most bytes that the text of a path can have. -/
def maxTextBytes : Nat := 4095

/-- The most bytes that a name can have. -/
def maxNameBytes : Nat := 255

/-- The route that a text describes. No text describes none, and slashes alone describe the root. -/
def route (text : String) : Except FileFault Route :=
  if text.isEmpty then .error .notFound
  else if maxTextBytes < text.utf8ByteSize then .error .nameTooLong
  else
    .ok {
      origin := if text.toList.head? = some '/' then Path.root else []
      folders := (names text).dropLast
      last := (names text).getLastD "."
      toFolder := text.toList.getLast? = some '/' }

end AccumulatorMachine.FileSystem
