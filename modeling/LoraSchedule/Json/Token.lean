import LoraSchedule.Number.Decimal

/-!
# Tokens of JSON text

A text is first cut into tokens.  A token keeps what was written even where it has no meaning: a
number beyond the range of the format, or a string with half of a surrogate pair, is a token without
a value.  Only a reader that uses the value has to refuse it.
-/

namespace LoraSchedule.Json

open LoraSchedule.Number (Decimal Double Binary)

/-- A JSON number: a whole number of sixty-four bits where the text has neither point nor power of
ten and is in range, else the nearest floating-point number. -/
inductive Numeral
  | natural (value : Nat)
  /-- Minus a positive number. -/
  | negative (magnitude : Nat)
  | float (value : Double)
deriving DecidableEq

/-- A number as floating-point number. -/
def Numeral.toDouble : Numeral → Double
  | .natural n => Binary.ofNat n
  | .negative n => (Binary.ofNat n).neg
  | .float x => x

inductive Token
  | openArray
  | closeArray
  | openObject
  | closeObject
  | comma
  | colon
  | null
  | bool (value : Bool)
  | number (value : Option Numeral)
  | string (value : Option String)
deriving DecidableEq

/-! ## Numbers -/

/-- The meaning of a number without point and power of ten. -/
def wholeNumeral (negative : Bool) (n : Nat) : Option Numeral :=
  let float : Double := Binary.ofDecimal ⟨negative, n, 0⟩
  if !negative && n < Nat.pow 2 64 then some (.natural n)
  else if negative && 0 < n && n ≤ Nat.pow 2 63 then some (.negative n)
  else if float.isFinite then some (.float float) else none

/-- The meaning of any other number.  It is rounded once, so that what is printed reads back
exactly; a reader that computes a quotient of floating-point numbers may miss the last bit. -/
def floatNumeral (d : Decimal) : Option Numeral :=
  let float : Double := Binary.ofDecimal d
  if float.isFinite then some (.float float) else none

/-- Reads the digits after a decimal point; there must be some. -/
def takeFraction? : List Char → Option (List Char × List Char)
  | '.' :: rest =>
    let digits := rest.takeWhile Char.isDigit
    if digits = [] then none else some (digits, rest.dropWhile Char.isDigit)
  | text => some ([], text)

/-- Reads a power of ten, if one is written. -/
def takeExponent? : List Char → Option (Option Int × List Char)
  | [] => some (none, [])
  | c :: rest =>
    if c = 'e' ∨ c = 'E' then
      let (negative, unsigned) := Decimal.takeSign rest
      let digits := unsigned.takeWhile Char.isDigit
      let n : Int := Number.ofDigits digits
      if digits = [] then none
      else some (some (if negative then -n else n), unsigned.dropWhile Char.isDigit)
    else some (none, c :: rest)

/-- Reads a number from the start of a text.  No digit may follow a leading zero. -/
def takeNumber? (text : List Char) : Option (Token × List Char) := do
  let (negative, unsigned) :=
    match text with
    | '-' :: rest => (true, rest)
    | rest => (false, rest)
  let whole := unsigned.takeWhile Char.isDigit
  guard (whole ≠ [] ∧ (whole.head? = some '0' → whole.length = 1))
  let (fraction, rest) ← takeFraction? (unsigned.dropWhile Char.isDigit)
  let (exponent, rest) ← takeExponent? rest
  let coefficient := Number.ofDigits (whole ++ fraction)
  let value :=
    if fraction = [] ∧ exponent = none then wholeNumeral negative coefficient
    else floatNumeral ⟨negative, coefficient, exponent.getD 0 - fraction.length⟩
  return (.number value, rest)

/-! ## Strings -/

/-- A part of a string: a character, or a sixteen-bit unit written in hexadecimal. -/
inductive Piece
  | char (c : Char)
  | unit (n : Nat)
deriving DecidableEq

/-- The value of a hexadecimal digit. -/
def hexValue? (c : Char) : Option Nat :=
  if c.isDigit then some (c.toNat - '0'.toNat)
  else if 'a' ≤ c ∧ c ≤ 'f' then some (c.toNat - 'a'.toNat + 10)
  else if 'A' ≤ c ∧ c ≤ 'F' then some (c.toNat - 'A'.toNat + 10)
  else none

/-- The unit written with four hexadecimal digits. -/
def hexUnit? (a b c d : Char) : Option Nat := do
  return (((← hexValue? a) * 16 + (← hexValue? b)) * 16 + (← hexValue? c)) * 16 + (← hexValue? d)

/-- The character that a backslash and this character stand for. -/
def simpleEscape? : Char → Option Char
  | '"' => some '"'
  | '\\' => some '\\'
  | '/' => some '/'
  | 'b' => some '\x08'
  | 'f' => some '\x0c'
  | 'n' => some '\n'
  | 'r' => some '\r'
  | 't' => some '\t'
  | _ => none

/-- Reads a string up to the closing quote; control characters have to be escaped. -/
def takePieces? : List Char → Option (List Piece × List Char)
  | [] => none
  | '"' :: rest => some ([], rest)
  | '\\' :: 'u' :: a :: b :: c :: d :: rest => do
    let unit ← hexUnit? a b c d
    let (pieces, rest) ← takePieces? rest
    return (.unit unit :: pieces, rest)
  | '\\' :: c :: rest => do
    let escaped ← simpleEscape? c
    let (pieces, rest) ← takePieces? rest
    return (.char escaped :: pieces, rest)
  | c :: rest => do
    guard (c ≠ '\\' ∧ 0x20 ≤ c.toNat)
    let (pieces, rest) ← takePieces? rest
    return (.char c :: pieces, rest)

/-- The text of a string: two units that form a surrogate pair are one character, any other
surrogate has no meaning. -/
def joinPieces? : List Piece → Option (List Char)
  | [] => some []
  | .char c :: rest => (joinPieces? rest).map (c :: ·)
  | .unit high :: .unit low :: rest =>
    if 0xD800 ≤ high ∧ high < 0xDC00 then
      -- Only the second half of a pair may follow the first.
      if 0xDC00 ≤ low ∧ low < 0xE000 then
        (joinPieces? rest).map
          (Char.ofNat (0x10000 + (high - 0xD800) * 0x400 + (low - 0xDC00)) :: ·)
      else none
    else if 0xDC00 ≤ high ∧ high < 0xE000 then none
    else (joinPieces? (.unit low :: rest)).map (Char.ofNat high :: ·)
  | .unit n :: rest =>
    if 0xD800 ≤ n ∧ n < 0xE000 then none else (joinPieces? rest).map (Char.ofNat n :: ·)

/-! ## Texts -/

/-- The four characters that may stand between tokens. -/
def isSpace (c : Char) : Bool := c = ' ' || c = '\t' || c = '\n' || c = '\r'

/-- Reads a token that starts with the given character. -/
def takeToken? (first : Char) (rest : List Char) : Option (Token × List Char) :=
  match first, rest with
  | '[', rest => some (.openArray, rest)
  | ']', rest => some (.closeArray, rest)
  | '{', rest => some (.openObject, rest)
  | '}', rest => some (.closeObject, rest)
  | ',', rest => some (.comma, rest)
  | ':', rest => some (.colon, rest)
  | 'n', 'u' :: 'l' :: 'l' :: rest => some (.null, rest)
  | 't', 'r' :: 'u' :: 'e' :: rest => some (.bool true, rest)
  | 'f', 'a' :: 'l' :: 's' :: 'e' :: rest => some (.bool false, rest)
  | '"', rest => do
    let (pieces, rest) ← takePieces? rest
    return (.string ((joinPieces? pieces).map String.ofList), rest)
  | c, rest => takeNumber? (c :: rest)

/-- The tokens of a text, at most as many as `fuel`. -/
def tokensWithin? : (fuel : Nat) → List Char → Option (List Token)
  | 0, text => if text.all isSpace then some [] else none
  | fuel + 1, text =>
    match text.dropWhile isSpace with
    | [] => some []
    | c :: rest => do
      let (token, rest) ← takeToken? c rest
      return token :: (← tokensWithin? fuel rest)

/-- The tokens of a text: never more than it has characters. -/
def tokens? (text : List Char) : Option (List Token) := tokensWithin? text.length text

end LoraSchedule.Json
