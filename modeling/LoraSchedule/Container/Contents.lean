import LoraSchedule.Container.Header
import LoraSchedule.Container.Tensor
import LoraSchedule.Json.Record

/-!
# Container contents

The strict reader of containers.  Here a header has to describe its tensors completely: the type of
the elements, the shape, and the range of bytes after the header that holds them.  The ranges have
to follow one another without gap or overlap up to the end, each of the size that its shape
demands.
-/

namespace LoraSchedule.Container

open LoraSchedule.Json (Written Value)
open LoraSchedule.Number (Binary Single Format)

/-! ## Element types -/

/-- The types of elements that a container may hold. -/
inductive ElementType
  | bool
  | u8
  | i8
  | f8e5m2
  | f8e4m3
  | i16
  | u16
  | f16
  | bf16
  | i32
  | u32
  | f32
  | f64
  | i64
  | u64
deriving DecidableEq

namespace ElementType

def all : List ElementType :=
  [bool, u8, i8, f8e5m2, f8e4m3, i16, u16, f16, bf16, i32, u32, f32, f64, i64, u64]

def name : ElementType → String
  | bool => "BOOL"
  | u8 => "U8"
  | i8 => "I8"
  | f8e5m2 => "F8_E5M2"
  | f8e4m3 => "F8_E4M3"
  | i16 => "I16"
  | u16 => "U16"
  | f16 => "F16"
  | bf16 => "BF16"
  | i32 => "I32"
  | u32 => "U32"
  | f32 => "F32"
  | f64 => "F64"
  | i64 => "I64"
  | u64 => "U64"

def ofName? (text : String) : Option ElementType := all.find? fun e => e.name = text

/-- The number of bytes of an element. -/
def size : ElementType → Nat
  | bool | u8 | i8 | f8e5m2 | f8e4m3 => 1
  | i16 | u16 | f16 | bf16 => 2
  | i32 | u32 | f32 => 4
  | f64 | i64 | u64 => 8

end ElementType

/-! ## Descriptions of tensors -/

/-- A tensor as its header describes it. -/
structure Description where
  name : String
  element : ElementType
  shape : List Nat
  /-- Where its bytes start after the header, and where they end. -/
  start : Nat
  stop : Nat
deriving DecidableEq

/-- The pair of offsets of a tensor. -/
def offsets? : Written → Option (Nat × Nat)
  | .array [first, last] => do return (← first.natural?, ← last.natural?)
  | _ => none

/-- An element type by its written name; an object in place of the name may hold nothing but null. -/
def elementType? (written : Written) : Option ElementType :=
  written.name? >>= ElementType.ofName?

def describe? (name : String) (entry : Written) : Option Description := do
  let [element, shape, range] ← entry.record? ["dtype", "shape", "data_offsets"] | none
  let element ← Written.required elementType? element
  let shape ← Written.required (Written.list? Written.natural?) shape
  let (start, stop) ← Written.required offsets? range
  return ⟨name, element, shape, start, stop⟩

/-- The metadata of a container has to be a dictionary of texts, and may stand only once. -/
def acceptsMetadata (fields : List (String × Written)) : Bool :=
  match fields.filter fun field => field.1 = metadataKey with
  | [] => true
  | [field] => (Written.optional? (Written.dict? Written.string?) field.2).isSome
  | _ => false

/-- The tensors that a header describes, by name; of several with one name, the last. -/
def descriptions? : Written → Option (List Description)
  | .object fields => do
    let fields ← fields.mapM fun field => field.1.map fun key => (key, field.2)
    guard (acceptsMetadata fields)
    let tensors ← (fields.filter fun field => field.1 ≠ metadataKey).mapM fun field => do
      return (field.1, ← describe? field.1 field.2)
    return (Dict.ofList tensors).values
  | _ => none

/-! ## The data after the header -/

/-- The product of a list of sizes, unless it or a step on the way to it leaves sixty-four bits. -/
def checkedProduct? (sizes : List Nat) : Option Nat :=
  sizes.foldlM (fun product size =>
    if product * size < Nat.pow 2 64 then some (product * size) else none) 1

/-- Whether tensors in the order of their ranges fill the bytes from `start` to `stop`. -/
def tile (start stop : Nat) : List Description → Bool
  | [] => start = stop
  | d :: rest =>
    d.start = start && d.start ≤ d.stop &&
      checkedProduct? (d.shape ++ [d.element.size]) = some (d.stop - d.start) &&
      tile d.stop stop rest

/-- The order of ranges. -/
def rangeAtMost (a b : Description) : Bool :=
  a.start < b.start || (a.start = b.start && a.stop ≤ b.stop)

/-- The tensors of a container in the order of their names, with the data that their ranges cut
out of. -/
def contents? (bytes : Bytes) : Option (List Description × Bytes) := do
  guard (8 ≤ bytes.length)
  let length := littleEndian (bytes.take 8)
  guard (length ≤ maxHeaderLength ∧ 8 + length ≤ bytes.length)
  let text ← String.fromUTF8? ⟨((bytes.drop 8).take length).toArray⟩
  let header ← Written.ofText? text.toList
  -- What the descriptions pass over has to have a meaning, too.
  let _ ← Value.ofNested? 0 header
  let tensors ← descriptions? header
  let data := bytes.drop (8 + length)
  guard (tile 0 data.length (tensors.mergeSort rangeAtMost))
  return (tensors, data)

/-! ## Elements -/

/-- The bytes of each of a row of elements of the same size. -/
def chunks (size : Nat) : (count : Nat) → Bytes → List Bytes
  | 0, _ => []
  | count + 1, bytes => bytes.take size :: chunks size count (bytes.drop size)

/-- The number stored in some bytes, in the format of the element type, as a single. -/
def decodeElement? : ElementType → Option (Bytes → Single)
  | .f32 => some fun bytes => Binary.ofBits (littleEndian bytes)
  | .f16 => some fun bytes => (Binary.ofBits (littleEndian bytes) : Binary .half).convert .single
  | .bf16 => some fun bytes => (Binary.ofBits (littleEndian bytes) : Binary .brain).convert .single
  | .f64 => some fun bytes => (Binary.ofBits (littleEndian bytes) : Binary .double).convert .single
  | _ => none

/-- The numbers in the data of a tensor, as many as its bytes make up; `none` for elements that are
not floating-point numbers. -/
def numbers? (data : Bytes) (d : Description) : Option (List Single) :=
  (decodeElement? d.element).map fun decode =>
    let bytes := (data.drop d.start).take (d.stop - d.start)
    (chunks d.element.size (bytes.length / d.element.size) bytes).map decode

end LoraSchedule.Container
