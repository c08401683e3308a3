import LoraSchedule.Number.Decimal
import LoraSchedule.Text.Basic
import LoraSchedule.Text.DecimalDigit

/-!
# Patterns in tensor names and block ids

Tensor names number their blocks: a word such as `layers`, a point or underscore, and digits.
-/

namespace LoraSchedule.Block

open LoraSchedule.Text

/-! ## Letters of either case -/

/-- Whether a character is a small letter of a pattern, or another form of that letter: besides
the capitals these are the long s and the Kelvin sign. -/
def isFormOf (letter c : Char) : Bool :=
  c.toLower = letter || (letter = 's' && c = 'ſ') || (letter = 'k' && c = '\u212a')

/-- The rest of a text after a word whose letters may have another form there. -/
def afterWord? : (word text : List Char) → Option (List Char)
  | [], text => some text
  | _ :: _, [] => none
  | letter :: word, c :: text => if isFormOf letter c then afterWord? word text else none

/-- Whether a text contains a word in letters of any form. -/
def containsWord (word : List Char) : List Char → Bool
  | [] => word.isEmpty
  | text@(_ :: rest) => (afterWord? word text).isSome || containsWord word rest

/-! ## Numbers -/

/-- The first run of decimal digits of a text. -/
def firstDigits? (text : List Char) : Option (List Char) :=
  match (text.dropWhile fun c => !isDecimalDigit c).takeWhile isDecimalDigit with
  | [] => none
  | digits => some digits

/-- The digits right at the start of a text, after a point or underscore. -/
def separatedDigits? : List Char → Option (List Char)
  | c :: rest =>
    if c = '.' ∨ c = '_' then
      match rest.takeWhile isDecimalDigit with
      | [] => none
      | digits => some digits
    else none
  | [] => none

/-- The digits after the first occurrence of one of several words that is numbered.  The words are
given by the function that reads one from the start of a text. -/
def numberAfter? (afterOne? : List Char → Option (List Char)) : List Char → Option (List Char)
  | [] => none
  | text@(_ :: rest) =>
    match afterOne? text >>= separatedDigits? with
    | some digits => some digits
    | none => numberAfter? afterOne? rest

/-- The number that digits spell, if they are the digits `0` to `9` and it is below two to the
power of sixty-four. -/
def wordValue? (digits : List Char) : Option Nat :=
  if digits.all Char.isDigit then
    let n := Number.ofDigits digits
    if n < Nat.pow 2 64 then some n else none
  else none

end LoraSchedule.Block
