import LoraSchedule.Proofs.Block.Id
import LoraSchedule.Statistics.OfNorms

/-!
# Forms of block ids

Every tensor name is read as some block, so only ids of a few forms occur
(`HasForm`), and of those that name the parts of a model only the ones that its
layout has.

An id is all that later stages know of a block.  They read its group and its
place in the canonical order back off the id, by patterns that are written for
ids of foreign files too: no pattern catches an id of another group
(`ofId_id`), as the numbers in ids have no form of a letter in them.
-/

namespace LoraSchedule.Block

open LoraSchedule.Text
open LoraSchedule.Number (digits isDigit_of_mem_digits)
open LoraSchedule.Statistics (blockOf blockOrder idHead)

/-- The ids of blocks of a layout. -/
inductive HasForm (layout : BlockLayout) : String → Prop
  | clipEncoder : HasForm layout "clip_encoder"
  | clipLayer (number : List Char) (hne : number ≠ [])
      (hnumber : ∀ c ∈ number, isDecimalDigit c = true) :
      HasForm layout ("clip_layer_" ++ String.ofList number)
  | embeddings : HasForm layout "specialized_embeds"
  | input (n : Nat) (h : layout = .sdxlUnet ∨ layout = .legacyUnet) :
      HasForm layout ("input" ++ "_" ++ n.repr)
  | middle (h : layout = .sdxlUnet ∨ layout = .legacyUnet) : HasForm layout "middle_0"
  | output (n : Nat) (h : layout = .sdxlUnet ∨ layout = .legacyUnet) :
      HasForm layout ("output" ++ "_" ++ n.repr)
  | double (n : Nat) (h : layout = .fluxStream) : HasForm layout ("double" ++ "_" ++ n.repr)
  | single (n : Nat) (h : layout = .fluxStream) : HasForm layout ("single" ++ "_" ++ n.repr)
  | joint (n : Nat) (h : layout = .jointBlocks) : HasForm layout ("joint" ++ "_" ++ n.repr)
  | layer (n : Nat) : HasForm layout ("layers" ++ "_" ++ n.repr)
  | other : HasForm layout "misc"

/-! ## The forms that occur -/

theorem isDecimalDigit_of_separatedDigits? {text number : List Char}
    (h : separatedDigits? text = some number) :
    number ≠ [] ∧ ∀ c ∈ number, isDecimalDigit c = true := by
  cases text with
  | nil => cases h
  | cons separator rest =>
      rw [separatedDigits?] at h
      split at h
      · cases hrun : rest.takeWhile isDecimalDigit with
        | nil => simp [hrun] at h
        | cons c run =>
            rw [hrun] at h
            obtain rfl : c :: run = number := Option.some.inj h
            refine ⟨List.cons_ne_nil _ _, fun d hd => ?_⟩
            rw [← hrun] at hd
            exact List.mem_takeWhile_imp hd
      · cases h

theorem isDecimalDigit_of_numberAfter? {afterOne? : List Char → Option (List Char)}
    {text number : List Char} (h : numberAfter? afterOne? text = some number) :
    number ≠ [] ∧ ∀ c ∈ number, isDecimalDigit c = true := by
  induction text with
  | nil => cases h
  | cons c rest ih =>
      unfold numberAfter? at h
      split at h
      case h_1 found hfound =>
        obtain rfl : found = number := Option.some.inj h
        obtain ⟨after, -, hafter⟩ := Option.bind_eq_some_iff.mp hfound
        exact isDecimalDigit_of_separatedDigits? hafter
      case h_2 => exact ih h

theorem hasForm_of_ofLayout? {layout : BlockLayout} {key : List Char} {block : Block}
    (h : ofLayout? layout key = some block) : HasForm layout block.id := by
  unfold ofLayout? at h
  cases layout with
  | sdxlUnet | legacyUnet =>
      dsimp only at h
      split_ifs at h
      · obtain rfl := Option.some.inj h
        exact .input _ (by simp)
      · obtain rfl := Option.some.inj h
        exact .middle (by simp)
      · obtain rfl := Option.some.inj h
        exact .output _ (by simp)
  | fluxStream =>
      dsimp only at h
      split_ifs at h
      · obtain rfl := Option.some.inj h
        exact .double _ rfl
      · obtain rfl := Option.some.inj h
        exact .single _ rfl
  | jointBlocks =>
      dsimp only at h
      split_ifs at h
      obtain rfl := Option.some.inj h
      exact .joint _ rfl
  | numberedLayers => cases h

/-- Every name is read as a block whose id has one of the forms. -/
theorem hasForm_ofKey (layout : BlockLayout) (name : String) :
    HasForm layout (ofKey layout name).id := by
  unfold ofKey
  dsimp only
  split
  · split
    case h_1 number hnumber =>
      obtain ⟨hne, hdigits⟩ := isDecimalDigit_of_numberAfter? hnumber
      exact .clipLayer number hne hdigits
    case h_2 => exact .clipEncoder
  · split
    · exact .embeddings
    · split
      case h_1 block hblock => exact hasForm_of_ofLayout? hblock
      case h_2 =>
        split
        · exact .layer _
        · exact .other

/-! ## Patterns and numbers -/

theorem toLower_of_isDigit {c : Char} (h : c.isDigit = true) : c.toLower = c := by
  have hnine : c.val ≤ '9'.val := of_decide_eq_true (Bool.and_eq_true_iff.mp h).2
  exact dif_neg fun hcapital => absurd (UInt32.le_trans hcapital.1 hnine) (by decide)

/-- A digit is no form of a letter. -/
theorem isFormOf_digit {letter c : Char} (hletter : letter.isDigit = false)
    (hc : c.isDigit = true) : isFormOf letter c = false := by
  have hlower : c.toLower = c := toLower_of_isDigit hc
  have hother : c ≠ letter := fun h => by simp [h, hletter] at hc
  have hlong : c ≠ 'ſ' := fun h => absurd (h ▸ hc) (by decide)
  have hkelvin : c ≠ '\u212a' := fun h => absurd (h ▸ hc) (by decide)
  simp [isFormOf, hlower, hother, hlong, hkelvin]

variable {word start number : List Char}

theorem afterWord?_append_digits (hword : ∀ letter ∈ word, letter.isDigit = false)
    (hnumber : ∀ c ∈ number, c.isDigit = true) :
    (afterWord? word (start ++ number)).isSome = (afterWord? word start).isSome := by
  induction word generalizing start with
  | nil => rfl
  | cons letter word ih =>
      have hrest : ∀ other ∈ word, other.isDigit = false := fun other hother =>
        hword other (List.mem_cons_of_mem _ hother)
      cases start with
      | nil =>
          cases number with
          | nil => rfl
          | cons c number =>
              have hform := isFormOf_digit (hword letter (List.mem_cons_self ..))
                (hnumber c (List.mem_cons_self ..))
              simp [afterWord?, hform]
      | cons c start =>
          rw [List.cons_append, afterWord?, afterWord?]
          split
          · exact ih hrest
          · rfl

theorem containsWord_cons (word : List Char) (c : Char) (rest : List Char) :
    containsWord word (c :: rest) =
      ((afterWord? word (c :: rest)).isSome || containsWord word rest) := rfl

theorem containsWord_append_digits (hword : ∀ letter ∈ word, letter.isDigit = false)
    (hnumber : ∀ c ∈ number, c.isDigit = true) :
    containsWord word (start ++ number) = containsWord word start := by
  induction start with
  | nil =>
      -- Nothing but an empty word is found in a number, and that is found everywhere.
      induction number with
      | nil => rfl
      | cons c rest ih =>
          have hafter : (afterWord? word ([] ++ c :: rest)).isSome = (afterWord? word []).isSome :=
            afterWord?_append_digits hword hnumber
          rw [List.nil_append] at hafter ih ⊢
          rw [containsWord_cons, hafter, ih fun d hd => hnumber d (List.mem_cons_of_mem _ hd)]
          cases word <;> rfl
  | cons c start ih =>
      have hafter : (afterWord? word ((c :: start) ++ number)).isSome =
          (afterWord? word (c :: start)).isSome := afterWord?_append_digits hword hnumber
      rw [List.cons_append] at hafter ⊢
      rw [containsWord_cons, containsWord_cons, hafter, ih]

theorem isDigit_eq_false_of_mem_words {group : BlockGroup} {word : String}
    (h : word ∈ group.words.1 ++ group.words.2) {letter : Char} (hletter : letter ∈ word.toList) :
    letter.isDigit = false := by
  have hall : ∀ group ∈ BlockGroup.all, ∀ word ∈ group.words.1 ++ group.words.2,
      (word.toList.all fun letter => !letter.isDigit) = true := by
    decide
  have hword := List.all_eq_true.mp (hall group (by cases group <;> decide) word h) letter hletter
  simpa using hword

theorem matchesId_append_digits (group : BlockGroup) (hnumber : ∀ c ∈ number, c.isDigit = true) :
    group.matchesId (start ++ number) = group.matchesId start := by
  rw [Bool.eq_iff_iff]
  simp only [BlockGroup.matchesId, Bool.or_eq_true, List.any_eq_true]
  apply or_congr
  · refine exists_congr fun word => and_congr_right fun hword => ?_
    rw [afterWord?_append_digits
      (fun _ => isDigit_eq_false_of_mem_words (List.mem_append_left _ hword)) hnumber]
  · refine exists_congr fun word => and_congr_right fun hword => ?_
    rw [containsWord_append_digits
      (fun _ => isDigit_eq_false_of_mem_words (List.mem_append_right _ hword)) hnumber]

/-! ## Groups -/

/-- The group of an id, by the word before its number. -/
def groupByHead (id : String) : BlockGroup :=
  let startsWith (word : String) : Bool := word.toList.isPrefixOf id.toList
  if startsWith "clip_" then .clip
  else if startsWith "input_" || startsWith "double_" then .input
  else if startsWith "middle_" || startsWith "joint_" then .middle
  else if startsWith "output_" || startsWith "single_" then .output
  else if startsWith "layers_" then .layers
  else .aux

theorem ofId_numbered (word : String) (n : Nat) :
    BlockGroup.ofId (numbered word n) =
      (BlockGroup.all.find? fun group => group.matchesId (word.toList ++ ['_'])).getD .aux := by
  have hsame (group : BlockGroup) : group.matchesId (numbered word n).toList =
      group.matchesId (word.toList ++ ['_']) := by
    rw [toList_numbered, List.append_cons]
    exact matchesId_append_digits group fun c => isDigit_of_mem_digits
  rw [BlockGroup.ofId, funext hsame]

theorem ofId_id (b : Block) : BlockGroup.ofId b.id = groupByHead b.id := by
  cases b with
  | clipEncoder => decide
  | clipLayer text =>
      rw [BlockGroup.ofId, groupByHead, toList_id_clipLayer]
      rfl
  | embeddings => decide
  | middle => decide
  | other => decide
  | _ n =>
      -- Up to the number the id is a fixed text, on which both sides can be evaluated.
      rw [id, ofId_numbered, groupByHead, toList_numbered]
      rfl

/-! ## Canonical order -/

theorem idHead_numbered {word : String} (h : '_' ∉ word.toList) (n : Nat) :
    idHead (numbered word n) = word.toList := by
  have hword : ∀ c ∈ word.toList, decide (c ≠ '_') = true := fun c hc =>
    decide_eq_true (ne_of_mem_of_not_mem hc h)
  rw [idHead, toList_numbered, List.takeWhile_append_of_pos hword,
    List.takeWhile_cons_of_neg (by simp), List.append_nil]

theorem exists_idHead_id {b : Block} (h : b ≠ other) :
    ∃ word ∈ blockOrder, idHead b.id = word.toList := by
  cases b with
  | clipEncoder => exact ⟨"clip", by decide, rfl⟩
  | clipLayer text =>
      refine ⟨"clip", by decide, ?_⟩
      rw [idHead, toList_id_clipLayer]
      rfl
  | embeddings => exact ⟨"specialized", by decide, rfl⟩
  | input n => exact ⟨"input", by decide, idHead_numbered (by decide) n⟩
  | middle => exact ⟨"middle", by decide, rfl⟩
  | output n => exact ⟨"output", by decide, idHead_numbered (by decide) n⟩
  | double n => exact ⟨"double", by decide, idHead_numbered (by decide) n⟩
  | single n => exact ⟨"single", by decide, idHead_numbered (by decide) n⟩
  | joint n => exact ⟨"joint", by decide, idHead_numbered (by decide) n⟩
  | layer n => exact ⟨"layers", by decide, idHead_numbered (by decide) n⟩
  | other => exact absurd rfl h

/-! ## What an id tells -/

/-- **An id tells everything about a block.**  It has one of the forms of its layout, does not
depend on how many layers the file has, comes with one role, is shown in the group that its first
word says, and has a place in the canonical order unless nothing is known of its block. -/
theorem blockOf_determined (a : Architecture) (count : Nat) (key : String) :
    HasForm a.layout (blockOf a count key).1 ∧
      (∀ otherCount, (blockOf a otherCount key).1 = (blockOf a count key).1) ∧
      (∀ otherKey, (blockOf a count otherKey).1 = (blockOf a count key).1 →
        (blockOf a count otherKey).2 = (blockOf a count key).2) ∧
      BlockGroup.ofId (blockOf a count key).1 = groupByHead (blockOf a count key).1 ∧
      ((blockOf a count key).1 ≠ "misc" →
        ∃ word ∈ blockOrder, idHead (blockOf a count key).1 = word.toList) := by
  refine ⟨hasForm_ofKey a.layout key, fun _ => rfl, fun otherKey hid => ?_, ofId_id _,
    fun hmisc => exists_idHead_id fun hother => hmisc ?_⟩
  · have hblock : ofKey a.layout otherKey = ofKey a.layout key := id_injective hid
    simp only [blockOf, hblock]
  · exact congrArg id hother

/-- Two tensors of the fifth input block. -/
theorem blockOf_determined_input :
    let first := "input_blocks.4.1.proj_in.weight"
    let second := "lora_unet_INPUT_BLOCKS_4_0"
    (blockOf .sd15 0 second).1 = (blockOf .sd15 0 first).1 ∧
      (blockOf .sd15 0 second).2 = (blockOf .sd15 0 first).2 ∧
      (blockOf .sd15 0 first).1 = "input_4" ∧
      ∃ word ∈ blockOrder, idHead (blockOf .sd15 0 first).1 = word.toList := by
  intro first second
  have hsame : (blockOf .sd15 0 second).1 = (blockOf .sd15 0 first).1 := by decide +kernel
  have hid : (blockOf .sd15 0 first).1 = "input_4" := by decide +kernel
  have hmisc : (blockOf .sd15 0 first).1 ≠ "misc" := by
    rw [hid]
    decide
  obtain ⟨-, -, hrecords, -, hordered⟩ := blockOf_determined .sd15 0 first
  exact ⟨hsame, hrecords second hsame, hid, hordered hmisc⟩

end LoraSchedule.Block
