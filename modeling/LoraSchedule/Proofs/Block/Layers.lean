import LoraSchedule.Proofs.Block.LetterCase
import LoraSchedule.Proofs.Block.Reread
import LoraSchedule.Proofs.Number.Quotients
import Mathlib.Data.List.Sublists

/-!
# The layers of a file

The number of layers is one more than the highest layer number among the names of a
file, as they are written; only after the last number of 64 bits it starts again
from zero, which stands for an unknown number.  The blocks of these names are found
in lower case, and have the same numbers: so every layer lies below the number of
layers (`lt_layerCount`), and the number is the same for names in lower case
(`layerCount_lowercase`).

Roles follow the course of a model.  From one number to a higher one after the same
word, a block may only come to a later role (`noLater_role`).
-/

namespace LoraSchedule

/-- The roles of the blocks that an image passes through, from the first ones to the last. -/
def Role.course : List Role := [.pose, .identity, .style, .details]

/-- A role is the same as another, or comes before it on the course. -/
def Role.NoLater (first second : Role) : Prop := first = second ∨ [first, second].Sublist course

instance (first second : Role) : Decidable (first.NoLater second) :=
  inferInstanceAs (Decidable (_ ∨ _))

namespace Block

open LoraSchedule.Text
open LoraSchedule.Number (Binary Double digits digits_ne_nil isDigit_of_mem_digits)
open LoraSchedule.Statistics (blockOf)

/-! ## The number of layers -/

section Count

variable {keys : List String}

theorem lt_of_layerIndex? {text : List Char} {n : Nat} (h : layerIndex? text = some n) :
    n < 2 ^ 64 := by
  obtain ⟨number, -, hvalue⟩ := Option.bind_eq_some_iff.mp h
  exact lt_of_wordValue? hvalue

/-- The number of layers is a number of sixty-four bits, like the layer numbers. -/
theorem layerCount_lt (keys : List String) : layerCount keys < 2 ^ 64 := Nat.mod_lt _ (by decide)

/-- It is one more than the highest layer number, unless this is the last of these numbers. -/
theorem layerCount_eq (hkeys : ∀ key ∈ keys, layerIndex? key.toList ≠ some (2 ^ 64 - 1)) :
    layerCount keys = (keys.filterMap fun key => layerIndex? key.toList).max?.getD 0 + 1 := by
  rw [layerCount, List.foldl_max, Nat.zero_max, Nat.mod_eq_of_lt]
  show _ < 2 ^ 64
  cases hmax : (keys.filterMap fun key => layerIndex? key.toList).max? with
  | none => decide
  | some n =>
      obtain ⟨key, hkey, hindex⟩ := List.mem_filterMap.mp (List.max?_mem hmax)
      have hrange : n < 2 ^ 64 := lt_of_layerIndex? hindex
      have hne : n ≠ 2 ^ 64 - 1 := by
        rintro rfl
        exact hkeys key hkey hindex
      rw [Option.getD_some]
      omega

/-- **A layer number in a name is below the number of layers.** -/
theorem lt_layerCount (hkeys : ∀ key ∈ keys, layerIndex? key.toList ≠ some (2 ^ 64 - 1))
    {key : String} {n : Nat} (hkey : key ∈ keys) (hindex : layerIndex? key.toList = some n) :
    n < layerCount keys := by
  rw [layerCount_eq hkeys, Nat.lt_succ_iff]
  apply List.le_max?_getD_of_mem
  exact List.mem_filterMap.mpr ⟨key, hkey, hindex⟩

/-- **Names may be written in lower case.** -/
theorem layerCount_lowercase {written : List String}
    (h : List.Forall₂ (fun key other => other = key ∨ other = lowercaseString key) keys written) :
    layerCount written = layerCount keys := by
  have hindices : (written.filterMap fun key => layerIndex? key.toList) =
      keys.filterMap fun key => layerIndex? key.toList := by
    induction h with
    | nil => rfl
    | @cons key other keys written hother _ ih =>
        have hindex : layerIndex? other.toList = layerIndex? key.toList := by
          rcases hother with rfl | rfl
          · rfl
          · rw [lowercaseString, String.toList_ofList, layerIndex?_lowercase]
        rw [List.filterMap_cons, List.filterMap_cons, hindex, ih]
  rw [layerCount, layerCount, hindices]

/-- The number of a layer is one that is found in the name. -/
theorem layerIndex?_of_ofKey {layout : BlockLayout} {name : String} {n : Nat}
    (h : ofKey layout name = layer n) : layerIndex? name.toList = some n := by
  rw [← layerIndex?_lowercase]
  unfold ofKey at h
  dsimp only at h
  split at h
  · split at h <;> cases h
  · split at h
    · cases h
    · split at h
      case h_1 b hown =>
        have hshared := not_isShared_of_ofLayout? hown
        rw [h] at hshared
        cases hshared
      case h_2 =>
        split at h
        case h_1 index hindex =>
          obtain rfl : index = n := by injection h
          exact hindex
        case h_2 => cases h

end Count

/-! ## Words and numbers of ids -/

/-- An id tells its word and its number, if the word has no underscore. -/
theorem numbered_eq_iff {word other : String} {m n : Nat} (hword : '_' ∉ word.toList) :
    numbered word m = numbered other n ↔ word = other ∧ m = n := by
  constructor
  · intro h
    have hdigits : '_' ∉ digits m := fun hmem => absurd (isDigit_of_mem_digits hmem) (by decide)
    have hchars := congrArg String.toList h
    rw [toList_numbered, toList_numbered, List.append_cons_inj_of_notMem hword hdigits] at hchars
    obtain rfl := String.toList_inj.mp hchars.1
    exact ⟨rfl, numbered_injective word h⟩
  · rintro ⟨rfl, rfl⟩
    rfl

/-- The block that has a number after a word; there is but one in the middle. -/
def ofNumber? (word : String) (n : Nat) : Option Block :=
  match word with
  | "input" => some (input n)
  | "middle" => some middle
  | "output" => some (output n)
  | "double" => some (double n)
  | "single" => some (single n)
  | "joint" => some (joint n)
  | "layers" => some (layer n)
  | _ => none

/-- An id that ends in a word and a number is of a layer of the text encoder, or of the block that
has the number. -/
theorem cases_of_id_eq_numbered {b : Block} {word : String} {n : Nat}
    (h : b.id = numbered word n) : (∃ text, b = clipLayer text) ∨ ofNumber? word n = some b := by
  have hlast : ∀ c ∈ b.id.toList.getLast?, c.isDigit = true := by
    intro c hc
    rw [h, toList_numbered, List.getLast?_append_of_ne_nil _ (List.cons_ne_nil _ _),
      List.getLast?_cons_of_ne_nil (digits_ne_nil n)] at hc
    exact isDigit_of_mem_digits (List.mem_of_getLast? hc)
  cases b with
  | clipLayer text => exact Or.inl ⟨text, rfl⟩
  | clipEncoder => exact absurd (hlast 'r' (by decide)) (by decide)
  | embeddings => exact absurd (hlast 's' (by decide)) (by decide)
  | other => exact absurd (hlast 'c' (by decide)) (by decide)
  | middle =>
      have hmiddle : numbered "middle" 0 = numbered word n := h
      obtain ⟨rfl, -⟩ := (numbered_eq_iff (by decide)).mp hmiddle
      exact Or.inr rfl
  | _ index =>
      obtain ⟨rfl, rfl⟩ := (numbered_eq_iff (by decide)).mp h
      exact Or.inr rfl

/-- The words of other blocks do not start like those of the text encoder. -/
theorem ofNumber?_of_id_clipLayer {text : List Char} {word : String} {m : Nat}
    (h : (clipLayer text).id = numbered word m) (n : Nat) : ofNumber? word n = none := by
  have hhead : word.toList.head? = some 'c' := by
    have hchars := congrArg String.toList h
    rw [toList_id_clipLayer, toList_numbered] at hchars
    cases hword : word.toList with
    | nil => simp [hword] at hchars
    | cons c rest =>
        rw [hword] at hchars
        exact congrArg some (List.cons.inj hchars).1.symm
  unfold ofNumber?
  split
  case h_8 => rfl
  all_goals exact absurd hhead (by decide)

/-! ## The order of roles -/

theorem noLater_refl (r : Role) : r.NoLater r := Or.inl rfl

/-- Of two roles that hang on a condition, the first is no later if it holds where it holds for the
second, and there is no way back from one case to the other. -/
theorem noLater_ite {p p' : Prop} [Decidable p] [Decidable p'] {r s r' s' : Role} (hp : p' → p)
    (hr : r.NoLater r') (hs : s.NoLater s') (hcross : r.NoLater s') :
    Role.NoLater (if p then r else s) (if p' then r' else s') := by
  by_cases hholds : p
  · rw [if_pos hholds]
    split_ifs
    · exact hr
    · exact hcross
  · rw [if_neg hholds, if_neg (mt hp hholds)]
    exact hs

/-- A role that is told by three bounds. -/
theorem noLater_ladder {p q r p' q' r' : Prop} [Decidable p] [Decidable q] [Decidable r]
    [Decidable p'] [Decidable q'] [Decidable r'] (hp : p' → p) (hq : q' → q) (hr : r' → r) :
    Role.NoLater (if p then .pose else if q then .identity else if r then .style else .details)
      (if p' then .pose else if q' then .identity else if r' then .style else .details) := by
  apply noLater_ite hp (noLater_refl _)
  · apply noLater_ite hq (noLater_refl _)
    · exact noLater_ite hr (noLater_refl _) (noLater_refl _) (by decide)
    · split_ifs <;> decide
  · split_ifs <;> decide

variable {layout : BlockLayout} {count m n : Nat}

/-- **A later layer has no earlier role.** -/
theorem noLater_layerRole (h : m ≤ n) : (layerRole count m).NoLater (layerRole count n) := by
  have hcount : 0 < (if 0 < count then count else defaultLayerCount) := by
    split_ifs with hpos
    · exact hpos
    · decide
  unfold layerRole
  apply noLater_ladder
  · exact Binary.less_ofNat_div hcount h
  · exact Binary.less_ofNat_div hcount h
  · exact Binary.less_ofNat_div hcount h

theorem noLater_roleUpTo {pose identity style : Nat} (h : m ≤ n) :
    (roleUpTo pose identity style m).NoLater (roleUpTo pose identity style n) :=
  noLater_ladder h.trans h.trans h.trans

/-- A block with a number after a word has no later role than one with a higher number. -/
theorem noLater_role_ofNumber? {word : String} {b c : Block} (hb : ofNumber? word m = some b)
    (hc : ofNumber? word n = some c) (h : m ≤ n) :
    (b.role layout count).NoLater (c.role layout count) := by
  unfold ofNumber? at hb
  split at hb <;> cases hb <;> cases hc <;> dsimp only [role]
  case h_1 =>
    -- the condition is that of the later role
    rw [← ite_not (layout = .legacyUnet ∧ 8 < m), ← ite_not (layout = .legacyUnet ∧ 8 < n)]
    apply noLater_ite _ (noLater_refl _) (noLater_refl _) (by decide)
    exact fun hbound hpast => hbound ⟨hpast.1, hpast.2.trans_le h⟩
  case h_2 => exact noLater_refl _
  case h_3 =>
    apply noLater_ite h.trans (noLater_refl _)
    · exact noLater_ite h.trans (noLater_refl _) (noLater_refl _) (by decide)
    · split_ifs <;> decide
  case h_4 => exact noLater_ite h.trans (noLater_refl _) (noLater_refl _) (by decide)
  case h_5 => exact noLater_ite h.trans (noLater_refl _) (noLater_refl _) (by decide)
  case h_6 => exact noLater_roleUpTo h
  case h_7 => exact noLater_layerRole h

/-- **From a number to a higher one after the same word, roles do not go back.** -/
theorem noLater_role {word : String} {b c : Block} (hb : b.id = numbered word m)
    (hc : c.id = numbered word n) (h : m ≤ n) :
    (b.role layout count).NoLater (c.role layout count) := by
  rcases cases_of_id_eq_numbered hb with ⟨text, rfl⟩ | hfirst
  · rcases cases_of_id_eq_numbered hc with ⟨other, rfl⟩ | hsecond
    · exact noLater_refl _
    · rw [ofNumber?_of_id_clipLayer hb] at hsecond
      cases hsecond
  · rcases cases_of_id_eq_numbered hc with ⟨other, rfl⟩ | hsecond
    · rw [ofNumber?_of_id_clipLayer hc] at hfirst
      cases hfirst
    · exact noLater_role_ofNumber? hfirst hsecond h

/-! ## Layers -/

/-- **The number of layers bounds the layers.**  It is a number of sixty-four bits, and unless a
layer has the last of these numbers, each block of a file that is told by a layer number lies at a
share of it from zero to below one.  It does not depend on how the names of the file are
capitalized.  In a layout with a number of layers, a block whose id has a higher number after the
same word has no earlier role; all layers of the text encoder have one role. -/
theorem layerCount_bounds :
    (∀ keys : List String, (∀ key ∈ keys, layerIndex? key.toList ≠ some (2 ^ 64 - 1)) →
      layerCount keys < 2 ^ 64 ∧
        ∀ (a : Architecture), ∀ key ∈ keys, ∀ n : Nat,
          (blockOf a (layerCount keys) key).1 = numbered "layers" n →
            n < layerCount keys ∧ 0 ≤ (n : ℚ) / layerCount keys ∧
              (n : ℚ) / layerCount keys < 1) ∧
      (∀ keys written : List String,
        List.Forall₂ (fun key other => other = key ∨ other = lowercaseString key) keys written →
          layerCount written = layerCount keys) ∧
      ∀ (a : Architecture) (count : Nat) (word : String) (m n : Nat) (first second : String),
        (blockOf a count first).1 = numbered word m →
          (blockOf a count second).1 = numbered word n → m ≤ n →
            (blockOf a count first).2.role.NoLater (blockOf a count second).2.role := by
  refine ⟨fun keys hkeys => ⟨layerCount_lt keys, fun a key hkey n hid => ?_⟩,
    fun _ _ => layerCount_lowercase, fun a count word m n first second => noLater_role⟩
  have hblock : ofKey a.layout key = layer n := id_injective hid
  have hlt : n < layerCount keys := lt_layerCount hkeys hkey (layerIndex?_of_ofKey hblock)
  have hlt' : (n : ℚ) < layerCount keys := by exact_mod_cast hlt
  have hpos : (0 : ℚ) < layerCount keys := (Nat.cast_nonneg n).trans_lt hlt'
  exact ⟨hlt, div_nonneg (Nat.cast_nonneg n) hpos.le, (div_lt_one hpos).mpr hlt'⟩

/-- Three names, of which the second is capitalized and has a Kelvin sign and the last a number out
of range. -/
theorem layerCount_bounds_capitals :
    let first := "lora_unet_layers_3_attn"
    let second := "BLOC\u212aS.12.H.99.weight"
    let third := "layers.18446744073709551616"
    layerCount [first, second, third] = 13 ∧
      (blockOf .qwen 13 first).1 = numbered "layers" 3 ∧
      (blockOf .qwen 13 second).1 = numbered "layers" 12 ∧
      (0 ≤ (12 : ℚ) / 13 ∧ (12 : ℚ) / 13 < 1) ∧
      layerCount [first, lowercaseString second, third] = 13 ∧
      (blockOf .qwen 13 first).2.role = .pose ∧ (blockOf .qwen 13 second).2.role = .details ∧
      (blockOf .qwen 13 first).2.role.NoLater (blockOf .qwen 13 second).2.role := by
  intro first second third
  have hcount : layerCount [first, second, third] = 13 := by decide +kernel
  have hkeys : ∀ key ∈ [first, second, third], layerIndex? key.toList ≠ some (2 ^ 64 - 1) := by
    decide +kernel
  have hfirst : (blockOf .qwen 13 first).1 = numbered "layers" 3 := by decide +kernel
  have hsecond : (blockOf .qwen 13 second).1 = numbered "layers" 12 := by decide +kernel
  obtain ⟨hbounds, hlower, horder⟩ := layerCount_bounds
  obtain ⟨-, hlayers⟩ := hbounds _ hkeys
  have hposition := hlayers .qwen second (by simp) 12 (by rw [hcount]; exact hsecond)
  rw [hcount] at hposition
  have hwritten := hlower [first, second, third] [first, lowercaseString second, third]
    (.cons (Or.inl rfl) (.cons (Or.inr rfl) (.cons (Or.inl rfl) .nil)))
  refine ⟨hcount, hfirst, hsecond, ?_, hwritten.trans hcount, by decide +kernel, by decide +kernel,
    horder .qwen 13 "layers" 3 12 first second hfirst hsecond (by decide)⟩
  exact_mod_cast hposition.2

end Block

end LoraSchedule
