import LoraSchedule.Text.CaseTable

/-!
# Lower case

The full lower-case mapping of a text.  It acts character by character, with one exception: a
capital sigma becomes a final sigma at the end of a word, that is after a cased letter and not
before one, where characters without influence on case are passed over.
-/

namespace LoraSchedule.Text

/-- The lower-case form of a character on its own.  The dotted capital I is the only one with a
form of two characters. -/
def lowercaseChar (c : Char) : List Char :=
  if c.toNat < 0x80 then [c.toLower]
  else if c.toNat = 0x130 then ['i', '\u0307']
  else
    match lowercaseRuns.find? (·.covers c.toNat) with
    | some run => [Char.ofNat (c.toNat + run.offset).toNat]
    | none => [c]

/-- Whether the first character that matters for case is a cased letter. -/
def startsCased (text : List Char) : Bool :=
  match text.dropWhile fun c => inRanges caseIgnorableRanges c.toNat with
  | [] => false
  | c :: _ => inRanges casedRanges c.toNat

/-- The lower-case form of a text. -/
def lowercase (text : List Char) : List Char :=
  convert [] text
where
  /-- Reads on after the reversed characters `before`. -/
  convert (before : List Char) : List Char → List Char
    | [] => []
    | c :: rest =>
      let form :=
        if c = 'Σ' then [if startsCased before && !startsCased rest then 'ς' else 'σ']
        else lowercaseChar c
      form ++ convert (c :: before) rest

/-- The lower-case form of a string. -/
def lowercaseString (text : String) : String := String.ofList (lowercase text.toList)

end LoraSchedule.Text
