import LoraSchedule.Json.Token

/-!
# JSON values as written

The tree of a JSON text before anything in it is given a meaning: fields stand in the order of the
text, repeated ones included, and numbers and strings may be without a value.  Documents
(`Json.Value`) and records are both read from it.

The tokens are read by one pass of `Reading.step`, which keeps the containers that are still open.
-/

namespace LoraSchedule.Json

inductive Written
  | null
  | bool (value : Bool)
  | number (value : Option Numeral)
  | string (value : Option String)
  | array (items : List Written)
  | object (fields : List (Option String × Written))

/-- A container that is still open, with what it holds so far in reverse. -/
inductive Frame
  | array (items : List Written)
  /-- An object that waits for the value of a field. -/
  | object (fields : List (Option String × Written)) (key : Option String)

/-- What has been read of a text, by what may come next. -/
inductive Reading
  | value (outer : List Frame)
  | itemOrEnd (outer : List Frame)
  | keyOrEnd (outer : List Frame)
  | nextKey (fields : List (Option String × Written)) (outer : List Frame)
  | beforeColon (fields : List (Option String × Written)) (key : Option String) (outer : List Frame)
  | afterItem (items : List Written) (outer : List Frame)
  | afterField (fields : List (Option String × Written)) (outer : List Frame)
  | complete (value : Written)

namespace Reading

/-- A value is complete: it goes into the innermost open container. -/
def close (value : Written) : List Frame → Reading
  | [] => .complete value
  | .array items :: outer => .afterItem (value :: items) outer
  | .object fields key :: outer => .afterField ((key, value) :: fields) outer

/-- The first token of a value. -/
def start? (outer : List Frame) : Token → Option Reading
  | .null => some (close .null outer)
  | .bool b => some (close (.bool b) outer)
  | .number n => some (close (.number n) outer)
  | .string s => some (close (.string s) outer)
  | .openArray => some (.itemOrEnd outer)
  | .openObject => some (.keyOrEnd outer)
  | _ => none

/-- Reads one token. -/
def step : Reading → Token → Option Reading
  | .value outer, token => start? outer token
  | .itemOrEnd outer, .closeArray => some (close (.array []) outer)
  | .itemOrEnd outer, token => start? (.array [] :: outer) token
  | .keyOrEnd outer, .closeObject => some (close (.object []) outer)
  | .keyOrEnd outer, .string key => some (.beforeColon [] key outer)
  | .nextKey fields outer, .string key => some (.beforeColon fields key outer)
  | .beforeColon fields key outer, .colon => some (.value (.object fields key :: outer))
  | .afterItem items outer, .comma => some (.value (.array items :: outer))
  | .afterItem items outer, .closeArray => some (close (.array items.reverse) outer)
  | .afterField fields outer, .comma => some (.nextKey fields outer)
  | .afterField fields outer, .closeObject => some (close (.object fields.reverse) outer)
  | _, _ => none

end Reading

namespace Written

/-- The value that a list of tokens spells. -/
def ofTokens? (tokens : List Token) : Option Written :=
  match tokens.foldlM Reading.step (.value []) with
  | some (.complete value) => some value
  | _ => none

/-- The value that a text spells, if it is one. -/
def ofText? (text : List Char) : Option Written := tokens? text >>= ofTokens?

mutual

/-- How many containers lie around the innermost one, itself counted. -/
def depth : Written → Nat
  | .array items => 1 + itemsDepth items
  | .object fields => 1 + fieldsDepth fields
  | _ => 0

def itemsDepth : List Written → Nat
  | [] => 0
  | item :: rest => max item.depth (itemsDepth rest)

def fieldsDepth : List (Option String × Written) → Nat
  | [] => 0
  | (_, value) :: rest => max value.depth (fieldsDepth rest)

end

end Written

end LoraSchedule.Json
