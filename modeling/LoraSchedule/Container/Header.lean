import LoraSchedule.Files.Tree
import LoraSchedule.Json.Value

/-!
# Container headers

A container starts with the length of its header, in eight bytes from the lowest, followed by the
header: a JSON object that lists the tensors by name and may hold free metadata under a reserved
name.  This reader looks at nothing after the header and asks little of what is in it.
-/

namespace LoraSchedule

open LoraSchedule.Json (Value)

/-- The number that bytes spell, the lowest first. -/
def littleEndian : Bytes → Nat
  | [] => 0
  | byte :: rest => byte.toNat + 256 * littleEndian rest

namespace Container

/-- The name of the metadata among the tensors. -/
def metadataKey : String := "__metadata__"

/-- Longer headers are taken for corrupt. -/
def maxHeaderLength : Nat := 100000000

/-- What a header says of a tensor. -/
structure TensorRecord where
  dtype : String
  shape : List Nat
deriving DecidableEq

structure Header where
  metadata : List (String × Value)
  tensors : Dict TensorRecord

inductive HeaderError
  | unreadable
  | truncated (expected : Nat)
  | tooLarge (length : Nat)
  | malformed
  | notAnObject
deriving DecidableEq

/-- The text of an error, for those that have one of their own. -/
def HeaderError.message? : HeaderError → Option String
  | unreadable => none
  | truncated expected => some ("Truncated header: expected " ++ expected.repr ++ " bytes")
  | tooLarge length => some ("Header too large: " ++ length.repr ++ " bytes")
  | malformed => none
  | notAnObject => some "Header is not a JSON object"

namespace Header

/-- The record of a tensor; whatever is missing or of another kind is left empty. -/
def recordOf (entry : Value) : TensorRecord :=
  { dtype := (entry.field? "dtype" >>= Value.string?).getD ""
    shape := ((entry.field? "shape" >>= Value.array?).getD []).filterMap Value.natural? }

/-- The header that a document means. -/
def ofFields (fields : List (String × Value)) : Header :=
  { metadata := (fields.lookup metadataKey >>= Value.object?).getD []
    tensors := Dict.ofList ((fields.filter fun field => field.1 ≠ metadataKey).map
      fun field => (field.1, recordOf field.2)) }

/-- Reads the bytes of a header. -/
def parse (bytes : Bytes) : Except HeaderError Header :=
  match String.fromUTF8? ⟨bytes.toArray⟩ >>= fun text => Value.ofText? text.toList with
  | none => .error .malformed
  | some (.object fields) => .ok (ofFields fields)
  | some _ => .error .notAnObject

/-- Reads the header at the start of a container. -/
def ofContainer (bytes : Bytes) : Except HeaderError Header :=
  if bytes.length < 8 then .error (.truncated 8)
  else
    let length := littleEndian (bytes.take 8)
    if maxHeaderLength < length then .error (.tooLarge length)
    else if bytes.length - 8 < length then .error (.truncated length)
    else parse ((bytes.drop 8).take length)

/-- Reads the header of a file.  A directory can be opened, but holds no bytes. -/
def read (t : FileTree) (p : Path) : Except HeaderError Header :=
  match t.node? p with
  | some (.file contents) => ofContainer contents
  | some .directory => .error (.truncated 8)
  | _ => .error .unreadable

/-- A metadata value, if it is a text. -/
def metadataText? (h : Header) (key : String) : Option String :=
  h.metadata.lookup key >>= Value.string?

end Header

end Container

end LoraSchedule
