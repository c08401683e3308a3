import LoraSchedule.Container.Loader
import Mathlib.Algebra.BigOperators.Group.List.Basic

/-!
# Sizes of tensors

The ranges of the tensors of a container fill its data one after another, so each
lies in the data, and each is as long as its shape and its elements demand
(`Fits`).  Cut into elements it gives as many numbers as the shape has places, and
no tensor of a container is refused for their count (`decode_of_fits`).
-/

namespace LoraSchedule.Container

/-! ## Products -/

/-- Where each step multiplies and stays in range, so does the whole product. -/
theorem eq_mul_prod_of_foldlM {multiply? : Nat → Nat → Option Nat} {bound : Nat}
    (hstep : ∀ a b c, multiply? a b = some c → c = a * b ∧ c < bound) {sizes : List Nat}
    {start product : Nat} (hstart : start < bound)
    (h : sizes.foldlM multiply? start = some product) :
    product = start * sizes.prod ∧ product < bound := by
  induction sizes generalizing start with
  | nil =>
      obtain rfl : start = product := Option.some.inj h
      exact ⟨(mul_one start).symm, hstart⟩
  | cons size rest ih =>
      rw [List.foldlM_cons] at h
      obtain ⟨next, hnext, h⟩ := Option.bind_eq_some_iff.mp h
      obtain ⟨rfl, hbound⟩ := hstep _ _ _ hnext
      rw [List.prod_cons, ← mul_assoc]
      exact ih hbound h

/-- The number of places of a shape is in range, where the number of bytes is
checked to be. -/
theorem checkedProduct?_concat {shape : List Nat} {size product : Nat}
    (h : checkedProduct? (shape ++ [size]) = some product) :
    product = shape.prod * size ∧ shape.prod < 2 ^ 64 := by
  have hstep (a b c : Nat) (h : (if a * b < Nat.pow 2 64 then some (a * b) else none) = some c) :
      c = a * b ∧ c < Nat.pow 2 64 := by
    split at h
    case isTrue hbound =>
      obtain rfl := Option.some.inj h
      exact ⟨rfl, hbound⟩
    case isFalse => cases h
  rw [checkedProduct?, List.foldlM_append] at h
  obtain ⟨places, hplaces, h⟩ := Option.bind_eq_some_iff.mp h
  obtain ⟨rfl, hbound⟩ := eq_mul_prod_of_foldlM hstep (by decide) hplaces
  obtain ⟨rfl, -⟩ := eq_mul_prod_of_foldlM hstep hbound h
  rw [one_mul] at hbound ⊢
  rw [List.prod_singleton]
  exact ⟨rfl, hbound⟩

/-! ## Ranges -/

/-- A tensor whose range lies in data of a length and is as long as its shape and
its elements demand. -/
structure Fits (length : Nat) (d : Description) : Prop where
  start_le_stop : d.start ≤ d.stop
  stop_le : d.stop ≤ length
  bytes : d.stop - d.start = d.shape.prod * d.element.size
  /-- Its places can be counted with sixty-four bits. -/
  places : d.shape.prod < 2 ^ 64

/-- **Tensors that fill the data fit into it.** -/
theorem fits_of_tile {start stop : Nat} {tensors : List Description}
    (h : tile start stop tensors = true) : start ≤ stop ∧ ∀ d ∈ tensors, Fits stop d := by
  induction tensors generalizing start with
  | nil =>
      obtain rfl : start = stop := by simpa [tile] using h
      exact ⟨Nat.le_refl _, fun d hd => absurd hd List.not_mem_nil⟩
  | cons d rest ih =>
      simp only [tile, Bool.and_eq_true, decide_eq_true_eq] at h
      obtain ⟨⟨⟨rfl, horder⟩, hproduct⟩, hrest⟩ := h
      obtain ⟨hstop, hfits⟩ := ih hrest
      obtain ⟨hbytes, hplaces⟩ := checkedProduct?_concat hproduct
      exact ⟨Nat.le_trans horder hstop, List.forall_mem_cons.mpr
        ⟨⟨horder, hstop, hbytes, hplaces⟩, hfits⟩⟩

/-! ## Elements -/

theorem ElementType.size_pos (e : ElementType) : 0 < e.size := by
  cases e <;> decide

/-- The types of elements that are floating-point numbers. -/
def ElementType.floats : List ElementType := [.f32, .f16, .bf16, .f64]

theorem isSome_decodeElement?_iff {e : ElementType} :
    (decodeElement? e).isSome ↔ e ∈ ElementType.floats := by
  cases e <;> decide

@[simp] theorem length_chunks (size count : Nat) (bytes : Bytes) :
    (chunks size count bytes).length = count := by
  induction count generalizing bytes with
  | zero => rfl
  | succ count ih => rw [chunks, List.length_cons, ih]

/-- **A range makes up as many numbers as the shape has places.** -/
theorem length_numbers {data : Bytes} {d : Description} (hfits : Fits data.length d)
    {numbers : List Number.Single} (h : numbers? data d = some numbers) :
    numbers.length = d.shape.prod := by
  obtain ⟨decode, -, rfl⟩ := Option.map_eq_some_iff.mp h
  have hbytes : ((data.drop d.start).take (d.stop - d.start)).length =
      d.shape.prod * d.element.size := by
    have hstop := hfits.stop_le
    rw [List.length_take, List.length_drop, ← hfits.bytes]
    omega
  rw [List.length_map, length_chunks, hbytes, Nat.mul_div_cancel _ d.element.size_pos]

namespace Loader

/-- What decoding a tensor gives: a tensor of the described shape with a value for
each place, or, for elements that are no floating-point numbers, an error that
names their type. -/
def DecodesTo (d : Description) (result : Except LoadError Tensor) : Prop :=
  if d.element ∈ ElementType.floats then
    ∃ tensor, result = .ok tensor ∧ tensor.shape = d.shape ∧ tensor.values.length = d.shape.prod
  else result = .error (.unsupportedElement d.name d.element)

theorem DecodesTo.ne_malformed {d : Description} {result : Except LoadError Tensor}
    (h : DecodesTo d result) : result ≠ .error .malformed := by
  unfold DecodesTo at h
  split at h
  case isTrue =>
    obtain ⟨tensor, rfl, -⟩ := h
    exact nofun
  case isFalse =>
    rw [h]
    exact nofun

/-- **A tensor that fits is decoded, or its elements are no floating-point numbers.** -/
theorem decode_of_fits {data : Bytes} {d : Description} (hfits : Fits data.length d) :
    DecodesTo d (decode data d) := by
  unfold DecodesTo
  split
  case isTrue hfloat =>
    obtain ⟨number, hnumber⟩ := Option.isSome_iff_exists.mp (isSome_decodeElement?_iff.mpr hfloat)
    obtain ⟨numbers, hnumbers⟩ : ∃ numbers, numbers? data d = some numbers :=
      ⟨_, congrArg (Option.map _) hnumber⟩
    have hlength := length_numbers hfits hnumbers
    rw [decode, hnumbers, ← List.prod_eq_foldl]
    exact ⟨⟨d.shape, numbers⟩, if_pos hlength, rfl, hlength⟩
  case isFalse hother =>
    have hnone : decodeElement? d.element = none := by
      rwa [← isSome_decodeElement?_iff, Option.not_isSome_iff_eq_none] at hother
    rw [decode, numbers?, hnone, Option.map_none]

end Loader

end LoraSchedule.Container
