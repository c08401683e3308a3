/-!
# Texts as bytes

Each character of a text is written in one to four bytes.  Read one by one, bytes give a character
as soon as it is complete.  Bytes that start a character and do not go on show as one replacement
character, and so does each byte that starts none.
-/

namespace LoraSchedule

/-- The contents of a file, or a name as the file system has it. -/
abbrev Bytes := List UInt8

namespace Utf8

/-! ## Writing -/

/-- The bytes of a character. -/
def encodeChar (c : Char) : Bytes :=
  let n := c.toNat
  let tail (bits : Nat) : UInt8 := UInt8.ofNat (0x80 + bits % 64)
  if n < 0x80 then [UInt8.ofNat n]
  else if n < 0x800 then [UInt8.ofNat (0xC0 + n / 64), tail n]
  else if n < 0x10000 then [UInt8.ofNat (0xE0 + n / 4096), tail (n / 64), tail n]
  else [UInt8.ofNat (0xF0 + n / 262144), tail (n / 4096), tail (n / 64), tail n]

def encode (text : List Char) : Bytes := text.flatMap encodeChar

/-! ## Reading -/

/-- What stands for bytes that are no character. -/
def replacement : Char := '\ufffd'

/-- How far a character has been read. -/
inductive State
  /-- The next byte starts a character. -/
  | start
  /-- The code is known up to six bits for each byte that is to come: the next one, whose bits lie
  in a range, and this many more. -/
  | within (code more low high : Nat)

/-- The character of a code that takes more than one byte. -/
def wideChar (code : Nat) : Char :=
  if 0x80 ≤ code ∧ code.isValidChar then Char.ofNat code else replacement

/-- Reads a byte that starts a character. -/
def first (byte : Nat) : List Char × State :=
  if byte < 0x80 then ([Char.ofNat byte], .start)
  else if 0xC2 ≤ byte ∧ byte ≤ 0xDF then ([], .within (byte - 0xC0) 0 0x00 0x3F)
  else if byte = 0xE0 then ([], .within 0x0 1 0x20 0x3F)
  else if byte = 0xED then ([], .within 0xD 1 0x00 0x1F)
  else if 0xE1 ≤ byte ∧ byte ≤ 0xEF then ([], .within (byte - 0xE0) 1 0x00 0x3F)
  else if byte = 0xF0 then ([], .within 0x0 2 0x10 0x3F)
  else if byte = 0xF4 then ([], .within 0x4 2 0x00 0x0F)
  else if 0xF1 ≤ byte ∧ byte ≤ 0xF3 then ([], .within (byte - 0xF0) 2 0x00 0x3F)
  else ([replacement], .start)

/-- Reads a byte: the characters that show by then, and the next state. -/
def step : State → Nat → List Char × State
  | .start, byte => first byte
  | .within code more low high, byte =>
    if 0x80 + low ≤ byte ∧ byte ≤ 0x80 + high then
      let code := code * 64 + (byte - 0x80)
      match more with
      | 0 => ([wideChar code], .start)
      | more + 1 => ([], .within code more 0x00 0x3F)
    else (replacement :: (first byte).1, (first byte).2)

/-- The characters of bytes from a state on. -/
def read : State → Bytes → List Char
  | .start, [] => []
  | .within .., [] => [replacement]
  | state, byte :: rest => (step state byte.toNat).1 ++ read (step state byte.toNat).2 rest

/-- The text that bytes show. -/
def decode (bytes : Bytes) : List Char := read .start bytes

/-- The text that bytes are, if there is nothing else in them. -/
def text? (bytes : Bytes) : Option (List Char) :=
  if encode (decode bytes) = bytes then some (decode bytes) else none

end Utf8

/-- A text stands for its bytes. -/
instance : Coe String Bytes := ⟨fun text => Utf8.encode text.toList⟩

instance : Coe (List String) (List Bytes) := ⟨List.map fun text => text⟩

/-- Bytes stand for the text that they show. -/
instance : Coe Bytes (List Char) := ⟨Utf8.decode⟩

end LoraSchedule
