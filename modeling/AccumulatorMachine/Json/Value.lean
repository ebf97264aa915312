import AccumulatorMachine.Json.Token

/-!
# JSON values

A value is known by its tokens, and there are two ways to set those out: compactly, one
right after the other, and on lines of their own with an indent of four spaces a level.
Both write the same tokens in the same order, so they differ by white space alone.

The fields of an object are kept in order and may repeat; what repetition means is for
whoever reads the object to say.
-/

namespace AccumulatorMachine.Json

inductive Value where
  | null
  | bool (value : Bool)
  | number (literal : List Char)
  /-- The text that a string spells, if it spells one. -/
  | string (text : Option (List Char))
  | array (items : List Value)
  | object (fields : List (Option (List Char) × Value))

namespace Value

def natural (n : Nat) : Value := .number (Numeral.decimal n)

def text (s : String) : Value := .string (some s.toList)

/-- The number that a literal without sign, fraction and exponent stands for. -/
def natural? : Value → Option Nat
  | .number literal => if isNatural literal then some (Numeral.ofDecimal literal) else none
  | _ => none

def text? : Value → Option String
  | .string (some chars) => some (.ofList chars)
  | _ => none

def naturals (ns : List Nat) : Value := .array (ns.map natural)

/-- The numbers in an array that holds nothing else. -/
def naturals? : Value → Option (List Nat)
  | .array items => items.mapM natural?
  | _ => none

/-! ## Tokens -/

mutual

def tokens : Value → List Token
  | .null => [.null]
  | .bool b => [.bool b]
  | .number literal => [.number literal]
  | .string text => [.string text]
  | .array [] => [.openArray, .closeArray]
  | .array (item :: items) => .openArray :: item.tokens ++ itemTokens items ++ [.closeArray]
  | .object [] => [.openObject, .closeObject]
  | .object ((key, value) :: fields) =>
    .openObject :: .string key :: .colon :: value.tokens ++ fieldTokens fields ++ [.closeObject]

def itemTokens : List Value → List Token
  | [] => []
  | item :: items => .comma :: item.tokens ++ itemTokens items

def fieldTokens : List (Option (List Char) × Value) → List Token
  | [] => []
  | (key, value) :: fields => .comma :: .string key :: .colon :: value.tokens ++ fieldTokens fields

end

/-- A value on one line, without white space. -/
def compact (v : Value) : String := .ofList (v.tokens.flatMap Token.render)

/-! ## Layout -/

/-- A line feed and the indent of a level. -/
def newline (depth : Nat) : List Char := '\n' :: List.replicate (4 * depth) ' '

mutual

/-- The tokens of a value at a given depth, each with the white space before it; `before` stands
before the first. -/
def laidOut (depth : Nat) (before : List Char) : Value → List (List Char × Token)
  | .null => [(before, .null)]
  | .bool b => [(before, .bool b)]
  | .number literal => [(before, .number literal)]
  | .string text => [(before, .string text)]
  | .array [] => [(before, .openArray), ([], .closeArray)]
  | .array (item :: items) =>
    (before, .openArray) :: item.laidOut (depth + 1) (newline (depth + 1))
      ++ itemsLaidOut (depth + 1) items ++ [(newline depth, .closeArray)]
  | .object [] => [(before, .openObject), ([], .closeObject)]
  | .object ((key, value) :: fields) =>
    (before, .openObject) :: (newline (depth + 1), .string key) :: ([], .colon)
      :: value.laidOut (depth + 1) [' ']
      ++ fieldsLaidOut (depth + 1) fields ++ [(newline depth, .closeObject)]

def itemsLaidOut (depth : Nat) : List Value → List (List Char × Token)
  | [] => []
  | item :: items => ([], .comma) :: item.laidOut depth (newline depth) ++ itemsLaidOut depth items

def fieldsLaidOut (depth : Nat) : List (Option (List Char) × Value) → List (List Char × Token)
  | [] => []
  | (key, value) :: fields =>
    ([], .comma) :: (newline depth, .string key) :: ([], .colon) :: value.laidOut depth [' ']
      ++ fieldsLaidOut depth fields

end

/-- A value over several lines, with an indent of four spaces a level. -/
def pretty (v : Value) : String :=
  .ofList ((v.laidOut 0 []).flatMap fun (space, token) => space ++ token.render)

end Value

end AccumulatorMachine.Json
