import AccumulatorMachine.Json.Value

/-!
# Records in JSON

A record is a list of named fields. It is written as an object, and read from an object
with its fields in any order: each name exactly once, other fields ignored. It is also
read from an array with exactly the values of the fields, in order.

A key that spells no text cannot be compared with a name, so an object with such a key is
no record.
-/

namespace AccumulatorMachine.Json.Value

def record (fields : List (String × Value)) : Value :=
  .object (fields.map fun (name, value) => (some name.toList, value))

/-- The value of the only field with a given name. -/
def only? (fields : List (Option (List Char) × Value)) (name : String) : Option Value :=
  match fields.filter (·.1 == some name.toList) with
  | [(_, value)] => some value
  | _ => none

/-- The values of the named fields of a record, in the order of the names. -/
def record? (names : List String) : Value → Option (List Value)
  | .array items => if items.length = names.length then some items else none
  | .object fields => if fields.all (·.1.isSome) then names.mapM (only? fields) else none
  | _ => none

/-- A natural number below a bound. -/
def naturalBelow? (bound : Nat) (v : Value) : Option Nat :=
  match v.natural? with
  | some n => if n < bound then some n else none
  | none => none

end AccumulatorMachine.Json.Value
