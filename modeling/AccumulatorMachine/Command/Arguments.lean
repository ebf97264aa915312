import AccumulatorMachine.Numeral

/-!
# Command-line arguments

Arguments are taken from left to right, and the first that decides the outcome does: a
mistake, or a request for help or for the version, whatever comes after it. An argument is
a text here; arguments that are no UTF-8 are left out.

An argument that begins with two hyphens names a long option, whose value is the rest of
the argument after `=` or the argument that follows. One hyphen begins a cluster of short
flags. Two hyphens alone make everything after them positional, and one hyphen alone is
positional itself. Where a signed number is expected next, a hyphen followed by digits is
that number and no flag.

An option stands at most once, and every value is checked where it stands.
-/

namespace AccumulatorMachine.Command

/-- Why there is nothing to run. -/
inductive Refusal where
  | usage
  | help
  | version
  deriving DecidableEq

/-! ## Numbers in arguments -/

/-- Decimal digits and nothing else. -/
def digits? (text : List Char) : Option Nat :=
  if !text.isEmpty && text.all Char.isDigit then some (Numeral.ofDecimal text) else none

/-- A number of 64 bits, with an optional plus sign. -/
def unsigned? (text : String) : Option Nat :=
  let number := match text.toList with
    | '+' :: rest => digits? rest
    | rest => digits? rest
  number.filter (· < UInt64.size)

/-- A signed number of 64 bits, with an optional sign. -/
def signed? (text : String) : Option Int :=
  let number : Option Int := match text.toList with
    | '+' :: rest => (digits? rest).map Int.ofNat
    | '-' :: rest => (digits? rest).map fun n => -(n : Int)
    | rest => (digits? rest).map Int.ofNat
  number.filter fun n => Int64.minValue.toInt ≤ n ∧ n ≤ Int64.maxValue.toInt

/-! ## Shapes -/

/-- What the text of a value has to be. -/
inductive ValueKind where
  | path
  | signed
  | unsigned
  deriving DecidableEq

def ValueKind.accepts : ValueKind → String → Bool
  | path, text => !text.isEmpty
  | signed, text => (signed? text).isSome
  | unsigned, text => (unsigned? text).isSome

/-- What a program takes: long options with a value, by name, and positional values in order. Every
program also takes the flags for details, for help and for its version. -/
structure Shape where
  options : List (String × ValueKind)
  positionals : List ValueKind

/-- What has been taken so far; the lists are in the order of the command line. -/
structure Taken where
  verbose : Bool := false
  options : List (String × String) := []
  positionals : List String := []

namespace Taken

def option? (taken : Taken) (name : String) : Option String := taken.options.lookup name

/-- Takes a positional value, if one is still expected and this can be it. -/
def addPositional (shape : Shape) (taken : Taken) (text : String) : Except Refusal Taken :=
  match shape.positionals[taken.positionals.length]? with
  | some kind =>
    if kind.accepts text then .ok { taken with positionals := taken.positionals ++ [text] } else .error .usage
  | none => .error .usage

/-- Takes the value of an option that has none yet. -/
def addOption (taken : Taken) (name : String) (kind : ValueKind) (text : String) : Except Refusal Taken :=
  if (taken.option? name).isNone && kind.accepts text then
    .ok { taken with options := taken.options ++ [(name, text)] }
  else .error .usage

def addVerbose (taken : Taken) : Except Refusal Taken :=
  if taken.verbose then .error .usage else .ok { taken with verbose := true }

def addShort (taken : Taken) : List Char → Except Refusal Taken
  | [] => .ok taken
  | 'v' :: rest => taken.addVerbose >>= fun taken => taken.addShort rest
  | 'h' :: _ => .error .help
  | 'V' :: _ => .error .version
  | _ => .error .usage

end Taken

/-- Whether a text is a hyphen followed by digits and the value expected next is a signed number. -/
def isNegativeNumber (shape : Shape) (taken : Taken) (text : List Char) : Bool :=
  shape.positionals[taken.positionals.length]? = some .signed &&
    match text with
    | '-' :: rest => (digits? rest).isSome
    | _ => false

def takePositionals (shape : Shape) (taken : Taken) : List String → Except Refusal Taken
  | [] => .ok taken
  | arg :: args => taken.addPositional shape arg >>= fun taken => takePositionals shape taken args

def take (shape : Shape) (taken : Taken) : List String → Except Refusal Taken
  | [] => .ok taken
  | arg :: args =>
    match arg.toList with
    | ['-', '-'] => takePositionals shape taken args
    | '-' :: '-' :: long =>
      let name : String := .ofList (long.takeWhile (· != '='))
      match shape.options.lookup name, long.dropWhile (· != '=') with
      | some kind, '=' :: value => taken.addOption name kind (.ofList value) >>= fun taken => take shape taken args
      | some kind, _ =>
        match args with
        | value :: args => taken.addOption name kind value >>= fun taken => take shape taken args
        | [] => .error .usage
      | none, [] =>
        if name = "verbose" then taken.addVerbose >>= fun taken => take shape taken args
        else if name = "help" then .error .help
        else if name = "version" then .error .version
        else .error .usage
      | none, _ => .error .usage
    | '-' :: c :: short =>
      if isNegativeNumber shape taken ('-' :: c :: short) then
        taken.addPositional shape arg >>= fun taken => take shape taken args
      else taken.addShort (c :: short) >>= fun taken => take shape taken args
    | _ => taken.addPositional shape arg >>= fun taken => take shape taken args

/-- The arguments of a program, with a value for each of its positionals. -/
def parse (shape : Shape) (args : List String) : Except Refusal Taken := do
  let taken ← take shape {} args
  if taken.positionals.length = shape.positionals.length then .ok taken else .error .usage

end AccumulatorMachine.Command
