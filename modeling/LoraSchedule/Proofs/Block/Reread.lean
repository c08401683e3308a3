import LoraSchedule.Proofs.Block.Forms
import LoraSchedule.Proofs.Text.Lowercase

/-!
# Ids read as names

Where nothing is recorded about a block, its id is read as if it were the name of a
tensor.  The ids of blocks that every layout may have still tell their role then
(`role_ofKey_id`), up to the number of layers, which an id does not tell.
-/

namespace LoraSchedule.Text

/-! ## Parts of texts -/

theorem containsText_iff {needle text : List Char} :
    containsText needle text = true ↔ needle <:+: text := by
  induction text with
  | nil => simp [containsText]
  | cons c rest ih =>
      rw [containsText, Bool.or_eq_true, ih, List.isPrefixOf_iff_prefix, List.infix_cons_iff]

theorem containsText_eq_false {needle text : List Char} {c : Char} (hneedle : c ∈ needle)
    (htext : c ∉ text) : containsText needle text = false := by
  rw [← Bool.not_eq_true, containsText_iff]
  intro hpart
  exact htext (hpart.subset hneedle)

/-! ## Digits in lower case -/

theorem lowercaseChar_of_isDigit {c : Char} (h : c.isDigit = true) : lowercaseChar c = [c] := by
  have hascii : c.toNat < 0x80 := by
    have hnine : c.val ≤ '9'.val := of_decide_eq_true (Bool.and_eq_true_iff.mp h).2
    exact Nat.lt_of_le_of_lt hnine (by decide)
  rw [lowercaseChar, if_pos hascii, Block.toLower_of_isDigit h]

theorem lowercase_of_isDigit {text : List Char} (h : ∀ c ∈ text, c.isDigit = true) :
    lowercase text = text := by
  have hsigma : 'Σ' ∉ text := fun hmem => absurd (h 'Σ' hmem) (by decide)
  rw [lowercase, lowercase.convert_eq_flatMap hsigma]
  have hsame : ∀ c ∈ text, lowercaseChar c = [c] := fun c hc => lowercaseChar_of_isDigit (h c hc)
  calc text.flatMap lowercaseChar
      = text.flatMap fun c => [c] := List.flatMap_congr hsame
    _ = text := List.flatMap_singleton' text

end LoraSchedule.Text

namespace LoraSchedule.Block

open LoraSchedule.Text
open LoraSchedule.Number (digits isDigit_of_mem_digits digits_ne_nil ofDigits_digits)

/-- The blocks that every layout may have. -/
def isShared : Block → Bool
  | clipEncoder | clipLayer _ | embeddings | layer _ | other => true
  | input _ | middle | output _ | double _ | single _ | joint _ => false

/-- The blocks that names are read as: numbers in names of text encoder layers are kept as
they are written, those of other layers are in range, and the rest is up to the layout. -/
inductive FromName : Block → Prop
  | clipEncoder : FromName clipEncoder
  | clipLayer {number : List Char} (hnumber : ∀ c ∈ number, isDecimalDigit c = true) :
      FromName (clipLayer number)
  | embeddings : FromName embeddings
  | layer {n : Nat} (hrange : n < 2 ^ 64) : FromName (layer n)
  | other : FromName other
  | ofLayout {b : Block} (hown : b.isShared = false) : FromName b

theorem not_isShared_of_ofLayout? {layout : BlockLayout} {key : List Char} {b : Block}
    (h : ofLayout? layout key = some b) : b.isShared = false := by
  unfold ofLayout? at h
  cases layout with
  | sdxlUnet | legacyUnet | fluxStream | jointBlocks =>
      dsimp only at h
      split_ifs at h
      all_goals exact Option.some.inj h ▸ rfl
  | numberedLayers => cases h

theorem lt_of_wordValue? {number : List Char} {n : Nat} (h : wordValue? number = some n) :
    n < 2 ^ 64 := by
  simp only [wordValue?, Option.ite_none_right_eq_some] at h
  obtain ⟨-, hrange, hvalue⟩ := h
  exact Option.some.inj hvalue ▸ hrange

theorem fromName_ofKey (layout : BlockLayout) (name : String) : FromName (ofKey layout name) := by
  unfold ofKey
  dsimp only
  split
  · split
    case h_1 number hnumber => exact .clipLayer (isDecimalDigit_of_numberAfter? hnumber).2
    case h_2 => exact .clipEncoder
  · split
    · exact .embeddings
    · split
      case h_1 b hown => exact .ofLayout (not_isShared_of_ofLayout? hown)
      case h_2 =>
        split
        case h_1 n hindex =>
          obtain ⟨number, -, hvalue⟩ := Option.bind_eq_some_iff.mp hindex
          exact .layer (lt_of_wordValue? hvalue)
        case h_2 => exact .other

/-- A layout without words of its own has shared blocks only. -/
theorem isShared_ofKey_numberedLayers (name : String) :
    (ofKey .numberedLayers name).isShared = true := by
  unfold ofKey
  dsimp only [ofLayout?]
  split
  · split <;> rfl
  · split
    · rfl
    · split <;> rfl

/-! ## Numbers of layers -/

/-- If the number of layers is not known, the default is assumed. -/
theorem role_defaultLayerCount (layout : BlockLayout) (b : Block) :
    b.role layout defaultLayerCount = b.role layout 0 := by
  cases b <;> rfl

/-- Roles other than those of layers do not depend on the number of layers. -/
theorem role_congr {layout : BlockLayout} {b : Block} {count other : Nat}
    (h : ∀ n, b = layer n → layerRole count n = layerRole other n) :
    b.role layout count = b.role layout other := by
  cases b with
  | layer n => exact h n rfl
  | _ => rfl

/-! ## Ids of text encoders -/

theorem role_ofKey_of_hasMarker {layout : BlockLayout} {name : String} (count : Nat)
    (h : hasMarker clipMarkers (lowercase name.toList) = true) :
    (ofKey layout name).role layout count = .clip := by
  unfold ofKey
  simp only [h, if_true]
  split <;> rfl

theorem hasMarker_id_clipLayer {number : List Char}
    (hnumber : ∀ c ∈ number, isDecimalDigit c = true) :
    hasMarker clipMarkers (lowercase (clipLayer number).id.toList) = true := by
  have hsigma : 'Σ' ∉ number := fun hmem => absurd (hnumber 'Σ' hmem) (by decide +kernel)
  have hhead : lowercase "clip_layer_".toList = "clip_l".toList ++ "ayer_".toList := by decide
  have hmarker : containsText "clip_l".toList (lowercase (clipLayer number).id.toList) = true := by
    rw [toList_id_clipLayer, lowercase_append (by decide) hsigma, hhead, List.append_assoc,
      containsText_iff]
    exact List.infix_append_left
  exact List.any_eq_true.mpr ⟨"clip_l", by decide, hmarker⟩

/-! ## Ids of layers -/

variable {head number : List Char}

/-- Whether a word has a letter, not a digit, that a text does not have. -/
def hasLetterOutside (text word : List Char) : Bool :=
  word.any fun c => !text.contains c && !c.isDigit

theorem containsText_append_digits {word : List Char} (hletter : hasLetterOutside head word = true)
    (hnumber : ∀ c ∈ number, c.isDigit = true) : containsText word (head ++ number) = false := by
  obtain ⟨c, hword, houtside⟩ := List.any_eq_true.mp hletter
  obtain ⟨hhead, hdigit⟩ : c ∉ head ∧ c.isDigit = false := by simpa using houtside
  refine containsText_eq_false hword ?_
  rw [List.mem_append, not_or]
  refine ⟨hhead, fun hmem => ?_⟩
  rw [hnumber c hmem] at hdigit
  cases hdigit

theorem hasMarker_append_digits {markers : List String}
    (hletters : ∀ marker ∈ markers, hasLetterOutside head marker.toList = true)
    (hnumber : ∀ c ∈ number, c.isDigit = true) : hasMarker markers (head ++ number) = false := by
  rw [hasMarker, List.any_eq_false]
  intro marker hmarker
  rw [containsText_append_digits (hletters marker hmarker) hnumber]
  exact Bool.false_ne_true

/-- The words that layouts have for their blocks. -/
def layoutWords : List String :=
  ["input_block", "middle_block", "output_block", "double_block", "single_block", "joint_block"]

theorem ofLayout?_append_digits (layout : BlockLayout)
    (hletters : ∀ word ∈ layoutWords, hasLetterOutside head word.toList = true)
    (hnumber : ∀ c ∈ number, c.isDigit = true) : ofLayout? layout (head ++ number) = none := by
  have hwords : ∀ word ∈ layoutWords, containsText word.toList (head ++ number) = false :=
    fun word hword => containsText_append_digits (hletters word hword) hnumber
  simp only [layoutWords, List.forall_mem_cons] at hwords
  obtain ⟨hinput, hmiddle, houtput, hdouble, hsingle, hjoint, -⟩ := hwords
  cases layout <;>
    simp only [ofLayout?, hinput, hmiddle, houtput, hdouble, hsingle, hjoint, Bool.false_eq_true,
      if_false]

theorem separatedDigits?_digits (n : Nat) :
    separatedDigits? ('_' :: digits n) = some (digits n) := by
  have hdecimal : (digits n).takeWhile isDecimalDigit = digits n := by
    rw [List.takeWhile_eq_self_iff]
    intro c hc
    rw [isDecimalDigit, isDigit_of_mem_digits hc, Bool.true_or]
  rw [separatedDigits?, if_pos (Or.inr rfl), hdecimal]
  split
  case h_1 hnil => exact absurd hnil (digits_ne_nil n)
  case h_2 => rfl

theorem wordValue?_digits {n : Nat} (hrange : n < 2 ^ 64) : wordValue? (digits n) = some n := by
  have hdigits : (digits n).all Char.isDigit = true :=
    List.all_eq_true.mpr fun c hc => isDigit_of_mem_digits hc
  rw [wordValue?, if_pos hdigits, ofDigits_digits]
  exact if_pos hrange

theorem layerIndex?_layers {n : Nat} (hrange : n < 2 ^ 64) :
    layerIndex? ("layers_".toList ++ digits n) = some n := by
  have hword : afterWord? "layers".toList ("layers_".toList ++ digits n) =
      some ('_' :: digits n) := rfl
  -- The word stands at the start, so no other place is tried.
  have hcons : "layers_".toList ++ digits n = 'l' :: ("ayers_".toList ++ digits n) := rfl
  rw [hcons] at hword ⊢
  rw [layerIndex?, numberAfter?, hword, Option.some_or, Option.some_or]
  simp only [Option.bind_eq_bind, Option.bind_some, separatedDigits?_digits,
    wordValue?_digits hrange]

theorem ofKey_id_layer (layout : BlockLayout) {n : Nat} (hrange : n < 2 ^ 64) :
    ofKey layout (layer n).id = layer n := by
  have hdigits : ∀ c ∈ digits n, c.isDigit = true := fun c => isDigit_of_mem_digits
  have hsigma : 'Σ' ∉ digits n := fun hmem => absurd (hdigits 'Σ' hmem) (by decide)
  have hlower : lowercase (layer n).id.toList = "layers_".toList ++ digits n := by
    rw [id, toList_numbered, List.append_cons, lowercase_append (by decide) hsigma,
      lowercase_of_isDigit hdigits]
    rfl
  -- All markers and words of layouts have a letter that is not found before the number.
  have hclip : hasMarker clipMarkers ("layers_".toList ++ digits n) = false :=
    hasMarker_append_digits (by decide) hdigits
  have hembeddings : hasMarker embeddingMarkers ("layers_".toList ++ digits n) = false :=
    hasMarker_append_digits (by decide) hdigits
  have hown : ofLayout? layout ("layers_".toList ++ digits n) = none :=
    ofLayout?_append_digits layout (by decide) hdigits
  simp only [ofKey, hlower, hclip, hembeddings, hown, layerIndex?_layers hrange,
    Bool.false_eq_true, if_false]

/-! ## All ids -/

/-- **The id of a shared block tells its role**, if the number of layers is left open. -/
theorem role_ofKey_id (layout : BlockLayout) {b : Block} (hname : FromName b)
    (hshared : b.isShared = true) :
    (ofKey layout b.id).role layout 0 = b.role layout 0 := by
  cases hname with
  | clipEncoder => cases layout <;> decide
  | clipLayer hnumber => exact role_ofKey_of_hasMarker 0 (hasMarker_id_clipLayer hnumber)
  | embeddings => cases layout <;> decide
  | layer hrange => rw [ofKey_id_layer layout hrange]
  | other => cases layout <;> decide
  | ofLayout hown => rw [hown] at hshared; cases hshared

end LoraSchedule.Block
