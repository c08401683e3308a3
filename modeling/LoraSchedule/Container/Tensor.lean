import LoraSchedule.Dict
import LoraSchedule.Number.Scalar

/-!
# Tensors

Tensors are held in single precision, whatever they were stored in.
-/

namespace LoraSchedule

open LoraSchedule.Number (Scalar Single Double Binary Format)

structure Tensor where
  shape : List Nat
  values : List Single
deriving DecidableEq

/-- The tensors of a file, by name. -/
abbrev TensorDict := Dict Tensor

namespace Tensor

def rank (t : Tensor) : Nat := t.shape.length

/-- The Euclidean norm, summed up in double precision. -/
def norm (t : Tensor) : Double :=
  let wide : List Double := t.values.map (Binary.convert Format.double)
  (Scalar.sum (wide.map fun v => v * v)).sqrt

/-- Every value multiplied by a factor. -/
def scale (t : Tensor) (factor : Single) : Tensor := { t with values := t.values.map (· * factor) }

end Tensor

end LoraSchedule
