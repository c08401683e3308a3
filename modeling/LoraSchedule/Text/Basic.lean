/-!
# Text operations

Texts are taken apart as lists of characters.  Besides what the standard library gives for lists
(splitting at a character, say), this holds the operations that schedules, paths and markers need.
-/

namespace LoraSchedule.Text

/-! ## Blanks -/

/-- The characters with the Unicode property `White_Space`. -/
def isBlank (c : Char) : Bool :=
  let n := c.toNat
  (9 ≤ n && n ≤ 13) || n = 0x20 || n = 0x85 || n = 0xA0 || n = 0x1680 ||
    (0x2000 ≤ n && n ≤ 0x200A) || n = 0x2028 || n = 0x2029 || n = 0x202F || n = 0x205F || n = 0x3000

/-- The text without its last characters as long as a condition holds for them. -/
def dropEndWhile (p : Char → Bool) (text : List Char) : List Char :=
  (text.reverse.dropWhile p).reverse

/-- The text without the blanks around it. -/
def trim (text : List Char) : List Char := dropEndWhile isBlank (text.dropWhile isBlank)

/-! ## Parts -/

/-- The rest of a text after a given beginning. -/
def afterPrefix? : (beginning text : List Char) → Option (List Char)
  | [], text => some text
  | _ :: _, [] => none
  | c :: beginning, d :: text => if c = d then afterPrefix? beginning text else none

/-- The part of a text before a given end. -/
def beforeSuffix? (ending text : List Char) : Option (List Char) :=
  (afterPrefix? ending.reverse text.reverse).map List.reverse

/-- Whether a text contains another as consecutive characters. -/
def containsText (needle : List Char) : List Char → Bool
  | [] => needle.isEmpty
  | text@(_ :: rest) => needle.isPrefixOf text || containsText needle rest

section Splitting

variable {α : Type} [DecidableEq α]

/-- The parts of a text before and after the first occurrence of a character. -/
def splitOnce? (separator : α) : List α → Option (List α × List α)
  | [] => none
  | c :: rest =>
    if c = separator then some ([], rest)
    else (splitOnce? separator rest).map fun parts => (c :: parts.1, parts.2)

/-- The parts of a text before and after the last occurrence of a character. -/
def splitLast? (separator : α) (text : List α) : Option (List α × List α) :=
  (splitOnce? separator text.reverse).map fun parts => (parts.2.reverse, parts.1.reverse)

/-- A file name cut at its last point; a point at its start does not count. -/
def splitName (point : α) (name : List α) : List α × Option (List α) :=
  match splitLast? point name with
  | some (stem, ending) => if stem = [] then (name, none) else (stem, some ending)
  | none => (name, none)

end Splitting

/-- A line without the carriage return at its end. -/
def dropCarriageReturn (line : List Char) : List Char := (beforeSuffix? ['\r'] line).getD line

/-- The lines of a text: each ends with a line feed, perhaps after a carriage return, and what
follows the last line feed is a line unless it is empty. -/
def lines (text : List Char) : List (List Char) :=
  let parts := text.splitOn '\n'
  parts.dropLast.map dropCarriageReturn ++ parts.getLast?.toList.filter (· ≠ [])

/-- Texts put in a row with a separator between them. -/
def joinWith {α : Type} (separator : List α) : List (List α) → List α
  | [] => []
  | [text] => text
  | text :: rest => text ++ separator ++ joinWith separator rest

/-! ## Letters of either case -/

/-- Whether two texts are equal, `A` to `Z` taken as `a` to `z`. -/
def equalIgnoringCase (a b : List Char) : Bool := a.map Char.toLower = b.map Char.toLower

end LoraSchedule.Text
