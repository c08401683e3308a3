import LoraSchedule.Container.Contents

/-!
# Loading tensors

A loader reads the tensors of a file.  A file that cannot be read, or is no container, fails as a
whole; a tensor with elements that cannot be decoded fails alone.
-/

namespace LoraSchedule.Container

/-- Why a file or a tensor cannot be loaded. -/
inductive LoadError
  | notFound (path : Path)
  | tooLarge (size limit : Nat)
  | unsupportedFormat (path : Path)
  | unsupportedElement (tensor : String) (element : ElementType)
  | malformed
  | unreadable
deriving DecidableEq

/-- The text of an error, for those that have one of their own. -/
def LoadError.message? : LoadError → Option String
  | notFound path => some ("File not found: " ++ path.text)
  | tooLarge size limit => some ("File too large: " ++ size.repr ++ " > " ++ limit.repr)
  | unsupportedFormat path => some ("Unsupported container format: " ++ path.text)
  | unsupportedElement tensor element =>
    some ("Unsupported dtype " ++ element.name ++ " for tensor " ++ tensor)
  | malformed => none
  | unreadable => none

/-- Whether a path has the extension of containers. -/
def isContainerPath (p : Path) : Bool :=
  match p.extension? >>= Utf8.text? with
  | some ending => Text.equalIgnoringCase ending "safetensors".toList
  | none => false

/-- A loader for files up to a size. -/
structure Loader where
  maxFileSize : Nat
deriving DecidableEq

namespace Loader

def default : Loader := ⟨2 * 1024 * 1024 * 1024⟩

/-- The contents of a file that may be loaded. -/
def readBytes (l : Loader) (t : FileTree) (p : Path) : Except LoadError Bytes :=
  match t.node? p with
  | none => .error (.notFound p)
  | some node =>
    if !isContainerPath p then .error (.unsupportedFormat p)
    else
      match node with
      | .file contents =>
        if l.maxFileSize < contents.length then
          .error (.tooLarge contents.length l.maxFileSize)
        else .ok contents
      | _ => .error .unreadable

/-- The tensor of a description, or why there is none.  Its numbers have to be as many as its shape
demands. -/
def decode (data : Bytes) (d : Description) : Except LoadError Tensor :=
  match numbers? data d with
  | none => .error (.unsupportedElement d.name d.element)
  | some numbers =>
    if numbers.length = d.shape.foldl (· * ·) 1 then .ok ⟨d.shape, numbers⟩
    else .error .malformed

/-- Hands the tensors of a file to a visitor in the order of their names, those that cannot be
decoded included.  The visitor changes a state that is handed on. -/
def scan {σ : Type} (l : Loader) (t : FileTree) (p : Path)
    (visitor : String → Except LoadError Tensor → σ → σ) (s : σ) : Except LoadError Unit × σ :=
  match l.readBytes t p with
  | .error error => (.error error, s)
  | .ok bytes =>
    match contents? bytes with
    | none => (.error .malformed, s)
    | some (tensors, data) =>
      (.ok (), tensors.foldl (fun s d => visitor d.name (decode data d) s) s)

/-- All that a scan of a file meets. -/
def visit (l : Loader) (t : FileTree) (p : Path) :
    Except LoadError (List (String × Except LoadError Tensor)) :=
  let (result, visited) := l.scan t p (fun name tensor visited => (name, tensor) :: visited) []
  result.map fun _ => visited.reverse

/-- Keeps a tensor that could be decoded. -/
def keep (name : String) (tensor : Except LoadError Tensor) (tensors : TensorDict) : TensorDict :=
  match tensor with
  | .ok value => tensors.insert name value
  | .error _ => tensors

/-- The tensors of a file that can be decoded. -/
def load (l : Loader) (t : FileTree) (p : Path) : Except LoadError TensorDict :=
  let (result, tensors) := l.scan t p keep ∅
  result.map fun _ => tensors

end Loader

end LoraSchedule.Container
