import LoraSchedule.Dict
import LoraSchedule.Json.Written

/-!
# JSON documents

A document is a value with all its meaning: every number and string has a value, no two fields of
an object share a name, and fields stand in the order of their names.  Of repeated fields a text
keeps the last.
-/

namespace LoraSchedule.Json

open LoraSchedule.Number (Double)

inductive Value
  | null
  | bool (value : Bool)
  | number (value : Numeral)
  | string (value : String)
  | array (items : List Value)
  | object (fields : List (String × Value))
deriving Inhabited

namespace Value

mutual

/-- The document that a written value means. -/
def ofWritten? : Written → Option Value
  | .null => some .null
  | .bool b => some (.bool b)
  | .number n => n.map .number
  | .string s => s.map .string
  | .array items => (ofItems? items).map .array
  | .object fields => (ofFields? fields).map fun entries => .object (Dict.ofList entries).toList

def ofItems? : List Written → Option (List Value)
  | [] => some []
  | item :: rest => do return (← ofWritten? item) :: (← ofItems? rest)

def ofFields? : List (Option String × Written) → Option (List (String × Value))
  | [] => some []
  | (key, value) :: rest => do return (← key, ← ofWritten? value) :: (← ofFields? rest)

end

/-- How deep containers may be nested in a text. -/
def depthLimit : Nat := 127

/-- The document that a value means when it stands inside `outer` containers. -/
def ofNested? (outer : Nat) (value : Written) : Option Value :=
  if outer + value.depth ≤ depthLimit then ofWritten? value else none

/-- The document that a text means. -/
def ofText? (text : List Char) : Option Value := Written.ofText? text >>= ofNested? 0

/-! ## Access -/

def array? : Value → Option (List Value)
  | .array items => some items
  | _ => none

def object? : Value → Option (List (String × Value))
  | .object fields => some fields
  | _ => none

def string? : Value → Option String
  | .string s => some s
  | _ => none

def natural? : Value → Option Nat
  | .number (.natural n) => some n
  | _ => none

/-- The value of a field, if there is one; other values than objects have no fields. -/
def field? (value : Value) (name : String) : Option Value :=
  value.object? >>= List.lookup name

/-! ## Construction -/

def ofNat (n : Nat) : Value := .number (.natural n)

def ofDouble (x : Double) : Value := .number (.float x)

/-- An object with the fields of a dictionary. -/
def ofDict (d : Dict Value) : Value := .object d.toList

mutual

/-- A document with the fields of all its objects in the order of their names. -/
def sortFields : Value → Value
  | .array items => .array (sortItems items)
  | .object fields => .object (Dict.ofList (sortEach fields)).toList
  | value => value

def sortItems : List Value → List Value
  | [] => []
  | item :: rest => item.sortFields :: sortItems rest

def sortEach : List (String × Value) → List (String × Value)
  | [] => []
  | (key, value) :: rest => (key, value.sortFields) :: sortEach rest

end

mutual

/-- A document written out, each field once. -/
def toWritten : Value → Written
  | .null => .null
  | .bool b => .bool b
  | .number n => .number (some n)
  | .string s => .string (some s)
  | .array items => .array (itemsToWritten items)
  | .object fields => .object (fieldsToWritten fields)

def itemsToWritten : List Value → List Written
  | [] => []
  | item :: rest => item.toWritten :: itemsToWritten rest

def fieldsToWritten : List (String × Value) → List (Option String × Written)
  | [] => []
  | (key, value) :: rest => (some key, value.toWritten) :: fieldsToWritten rest

end

end Value

end LoraSchedule.Json
