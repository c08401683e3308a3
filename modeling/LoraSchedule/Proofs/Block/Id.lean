import LoraSchedule.Block.Basic
import LoraSchedule.Proofs.Number.Numeral

/-!
# Ids of blocks

Tensors are grouped under the ids of their blocks, and everything that is known
about a block is looked up by its id.  Nothing is lost by that: two blocks with
one id are the same block (`id_injective`), so in one file they have the same
role.
-/

namespace LoraSchedule.Block

open LoraSchedule.Number (digits ofDigits ofDigits_digits)

/-- The first six letters of an id, one row for each kind of block, in their order. -/
def idStarts : List (List Char) :=
  ["clip_e".toList, "clip_l".toList, "specia".toList, "input_".toList, "middle".toList,
    "output".toList, "double".toList, "single".toList, "joint_".toList, "layers".toList,
    "misc".toList]

theorem toList_numbered (word : String) (n : Nat) :
    (numbered word n).toList = word.toList ++ '_' :: digits n := by
  have hunder : "_".toList = ['_'] := rfl
  rw [numbered, String.toList_append, String.toList_append, hunder, List.append_assoc, Nat.repr,
    String.toList_ofList, digits, List.singleton_append]

theorem toList_id_clipLayer (text : List Char) :
    (clipLayer text).id.toList = "clip_layer_".toList ++ text := by
  rw [id, String.toList_append, @String.toList_ofList text]

/-- The start of an id tells what kind of block it is. -/
theorem idxOf_take_toList_id (b : Block) : idStarts.idxOf (b.id.toList.take 6) = b.ctorIdx := by
  cases b with
  | clipEncoder => rfl
  | clipLayer text =>
      rw [toList_id_clipLayer]
      rfl
  | embeddings => rfl
  | middle => rfl
  | other => rfl
  | _ n =>
      rw [id, toList_numbered]
      rfl

theorem numbered_injective (word : String) : Function.Injective (numbered word) := by
  intro m n h
  have hchars := congrArg String.toList h
  rw [toList_numbered, toList_numbered] at hchars
  have hdigits : digits m = digits n := (List.cons.inj (List.append_cancel_left hchars)).2
  calc
    m = ofDigits (digits m) := (ofDigits_digits m).symm
    _ = ofDigits (digits n) := by rw [hdigits]
    _ = n := ofDigits_digits n

/-- **Blocks with one id are the same block.** -/
theorem id_injective : Function.Injective id := by
  intro a b h
  have hkind : a.ctorIdx = b.ctorIdx := by
    rw [← idxOf_take_toList_id, ← idxOf_take_toList_id, h]
  cases a with
  | clipLayer first =>
      cases b with
      | clipLayer second =>
          have hchars := congrArg String.toList h
          rw [toList_id_clipLayer, toList_id_clipLayer] at hchars
          rw [List.append_cancel_left hchars]
      | _ => simp [Block.ctorIdx] at hkind
  | _ =>
      cases b <;> first
        | rfl
        | exact congrArg _ (numbered_injective _ h)
        | simp [Block.ctorIdx] at hkind

end LoraSchedule.Block
