import LoraSchedule.Json.Value

/-!
# Reading records

How records are read from written values.  A record is an object with named fields, where names it
does not know are passed over and names it knows may stand only once, or an array with the values
of its first fields in their order.  A field that is not written is `none` here; whether it has a
default is for the record to say.
-/

namespace LoraSchedule.Json.Written

open LoraSchedule.Number (Double)

/-- The value of a named field: `none` if it stands twice, `some none` if it is not written. -/
def uniqueField? (name : String) (fields : List (String × Written)) : Option (Option Written) :=
  match fields.filter fun field => field.1 = name with
  | [] => some none
  | [field] => some (some field.2)
  | _ => none

/-- The values of a record's fields, in the order of their names. -/
def record? (names : List String) : Written → Option (List (Option Written))
  | .object fields => do
    let fields ← fields.mapM fun field => field.1.map fun key => (key, field.2)
    names.mapM fun name => uniqueField? name fields
  | .array items =>
    if items.length ≤ names.length then
      some (items.map some ++ List.replicate (names.length - items.length) none)
    else none
  | _ => none

def string? : Written → Option String
  | .string s => s
  | _ => none

def bool? : Written → Option Bool
  | .bool b => some b
  | _ => none

def natural? : Written → Option Nat
  | .number (some (.natural n)) => some n
  | _ => none

def double? : Written → Option Double
  | .number n => n.map Numeral.toDouble
  | _ => none

/-- A list, each item read alike. -/
def list? {α : Type} (item? : Written → Option α) : Written → Option (List α)
  | .array items => items.mapM item?
  | _ => none

/-- A dictionary, each value read alike; every value has to be readable, also one that a later
field of the same name replaces. -/
def dict? {α : Type} (value? : Written → Option α) : Written → Option (Dict α)
  | .object fields => do
    let entries ← fields.mapM fun field => do return (← field.1, ← value? field.2)
    return Dict.ofList entries
  | _ => none

/-- A value that may be `null`. -/
def optional? {α : Type} (value? : Written → Option α) : Written → Option (Option α)
  | .null => some none
  | written => (value? written).map some

/-- One of several names, written as a string or as an object with that one field, which is
`null`. -/
def name? : Written → Option String
  | .string s => s
  | .object [(key, .null)] => key
  | _ => none

/-- A field that has to be written. -/
def required {α : Type} (value? : Written → Option α) (field : Option Written) : Option α :=
  field >>= value?

/-- A field with a default. -/
def orDefault {α : Type} (value : α) (value? : Written → Option α) (field : Option Written) :
    Option α :=
  match field with
  | none => some value
  | some written => value? written

end LoraSchedule.Json.Written
