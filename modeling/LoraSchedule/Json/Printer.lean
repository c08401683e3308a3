import LoraSchedule.Number.Printing
import LoraSchedule.Json.Value

/-!
# Writing JSON

Documents are written compactly, or over several lines with two blanks of indentation for each
container.  Fields are written in the order in which they stand.
-/

namespace LoraSchedule.Json

open LoraSchedule.Number (digits)

/-- A number; infinities and NaN have no form of their own and are written `null`. -/
def Numeral.render : Numeral → List Char
  | .natural n => digits n
  | .negative n => '-' :: digits n
  | .float x => if x.isFinite then x.toScientific else "null".toList

/-- The hexadecimal digit of a number below sixteen. -/
def hexDigit (n : Nat) : Char := Nat.digitChar n

/-- A character inside a string. -/
def escapeChar (c : Char) : List Char :=
  if c = '"' then ['\\', '"']
  else if c = '\\' then ['\\', '\\']
  else if c = '\x08' then ['\\', 'b']
  else if c = '\x0c' then ['\\', 'f']
  else if c = '\n' then ['\\', 'n']
  else if c = '\r' then ['\\', 'r']
  else if c = '\t' then ['\\', 't']
  else if c.toNat < 0x20 then
    ['\\', 'u', '0', '0', hexDigit (c.toNat / 16), hexDigit (c.toNat % 16)]
  else [c]

def renderString (s : String) : List Char := '"' :: (s.toList.flatMap escapeChar ++ ['"'])

namespace Value

mutual

/-- A document without blanks. -/
def compact : Value → List Char
  | .null => "null".toList
  | .bool b => if b then "true".toList else "false".toList
  | .number n => n.render
  | .string s => renderString s
  | .array items => '[' :: (compactItems items ++ [']'])
  | .object fields => '\x7b' :: (compactFields fields ++ ['\x7d'])

def compactItems : List Value → List Char
  | [] => []
  | [item] => item.compact
  | item :: rest => item.compact ++ ',' :: compactItems rest

def compactFields : List (String × Value) → List Char
  | [] => []
  | [(key, value)] => renderString key ++ ':' :: value.compact
  | (key, value) :: rest => renderString key ++ ':' :: (value.compact ++ ',' :: compactFields rest)

end

/-- The start of a line inside `depth` containers. -/
def newLine (depth : Nat) : List Char := '\n' :: List.replicate (2 * depth) ' '

mutual

/-- A document over several lines, inside `depth` containers; empty containers stay on one. -/
def pretty (depth : Nat) : Value → List Char
  | .array [] => ['[', ']']
  | .array items => '[' :: (prettyItems (depth + 1) items ++ newLine depth ++ [']'])
  | .object [] => ['\x7b', '\x7d']
  | .object fields => '\x7b' :: (prettyFields (depth + 1) fields ++ newLine depth ++ ['\x7d'])
  | .null => "null".toList
  | .bool b => if b then "true".toList else "false".toList
  | .number n => n.render
  | .string s => renderString s

def prettyItems (depth : Nat) : List Value → List Char
  | [] => []
  | [item] => newLine depth ++ item.pretty depth
  | item :: rest => newLine depth ++ item.pretty depth ++ ',' :: prettyItems depth rest

def prettyFields (depth : Nat) : List (String × Value) → List Char
  | [] => []
  | [(key, value)] => newLine depth ++ renderString key ++ ':' :: ' ' :: value.pretty depth
  | (key, value) :: rest =>
    newLine depth ++ renderString key ++ ':' :: ' ' ::
      (value.pretty depth ++ ',' :: prettyFields depth rest)

end

/-- A document over several lines. -/
def render (value : Value) : List Char := value.pretty 0

end Value

end LoraSchedule.Json
