import AccumulatorMachine.Numeral

/-!
# JSON tokens

The tokens of JSON text and how each is written. A number keeps the text of its literal,
so that its value is exact whatever its size.

A string literal can escape half of a surrogate pair. Such a literal is well formed, but
there is no text that it spells; its token holds none. Strings are written with the short
escapes where JSON has them, control characters without one as `\u00xx`, and everything
else as it is.
-/

namespace AccumulatorMachine.Json

inductive Token where
  | openArray
  | closeArray
  | openObject
  | closeObject
  | comma
  | colon
  | null
  | bool (value : Bool)
  | number (literal : List Char)
  /-- The text that a literal spells, if it spells one. -/
  | string (text : Option (List Char))
  deriving DecidableEq

/-- A character inside a string literal. -/
def escape (c : Char) : List Char :=
  if c = '"' then ['\\', '"']
  else if c = '\\' then ['\\', '\\']
  else if c = '\x08' then ['\\', 'b']
  else if c = '\x0c' then ['\\', 'f']
  else if c = '\n' then ['\\', 'n']
  else if c = '\r' then ['\\', 'r']
  else if c = '\t' then ['\\', 't']
  else if c.toNat < 32 then '\\' :: 'u' :: Numeral.hexadecimal 4 c.toNat
  else [c]

/-- A string literal; one that spells no text is half a surrogate pair. -/
def quoted : Option (List Char) → List Char
  | some text => '"' :: text.flatMap escape ++ ['"']
  | none => "\"\\ud800\"".toList

def Token.render : Token → List Char
  | openArray => ['[']
  | closeArray => [']']
  | openObject => ['\x7b']
  | closeObject => ['\x7d']
  | comma => [',']
  | colon => [':']
  | null => "null".toList
  | bool true => "true".toList
  | bool false => "false".toList
  | number literal => literal
  | string text => quoted text

/-! ## Number literals -/

/-- Digits without a leading zero, or one zero. -/
def isNatural : List Char → Bool
  | [] => false
  | ['0'] => true
  | c :: rest => c != '0' && (c :: rest).all Char.isDigit

/-- At least one digit, and nothing else. -/
def isDigits (text : List Char) : Bool := !text.isEmpty && text.all Char.isDigit

/-- Nothing, or an exponent with an optional sign. -/
def isExponent : List Char → Bool
  | [] => true
  | c :: rest =>
    (c == 'e' || c == 'E') &&
      match rest with
      | '+' :: digits | '-' :: digits => isDigits digits
      | digits => isDigits digits

/-- What may follow the whole part of a number: a fraction, an exponent, both or neither. -/
def isFraction : List Char → Bool
  | '.' :: rest => isDigits (rest.takeWhile Char.isDigit) && isExponent (rest.dropWhile Char.isDigit)
  | rest => isExponent rest

def isNumber (literal : List Char) : Bool :=
  let unsigned := match literal with
    | '-' :: rest => rest
    | rest => rest
  isNatural (unsigned.takeWhile Char.isDigit) && isFraction (unsigned.dropWhile Char.isDigit)

end AccumulatorMachine.Json
