import LoraSchedule.Block.Basic
import LoraSchedule.Proofs.Lists
import LoraSchedule.Proofs.Text.Lowercase

/-!
# Numbered layers in lower case

The number of a layer is looked for in a name as it is written, and the block of a
tensor in the name in lower case.  Both find the same number
(`layerIndex?_lowercase`).

Lower-casing does not change what the pattern sees of a character: which letter of
its words it is a form of, whether it is a separator, and whether it is a digit
(`Alike`).  The one character that becomes two, the dotted capital I, ends every
word and every number, and so do the two that it becomes.  So a name and its
lower-case form are read in step (`LowerForm`).
-/

namespace LoraSchedule.Block

open LoraSchedule.Text

/-! ## Single characters -/

/-- A letter of a pattern that stands at the same places of a text and of its lower-case form.  The
letter `i` is not one of them: it is in the lower-case form of the dotted capital, which is no form
of it. -/
structure IsPlain (letter : Char) : Prop where
  ascii : letter.toNat < 0x80
  ne : letter ≠ 'i'

/-- Patterns for layers do not tell the second character from the first. -/
structure Alike (c d : Char) : Prop where
  letter : ∀ letter, IsPlain letter → isFormOf letter d = isFormOf letter c
  separator : d = '.' ∨ d = '_' ↔ c = '.' ∨ c = '_'
  digit : isDecimalDigit d = isDecimalDigit c
  kept : isDecimalDigit c = true → d = c

theorem Alike.refl (c : Char) : Alike c c := ⟨fun _ _ => rfl, Iff.rfl, rfl, fun _ => rfl⟩

/-- A character that no pattern for layers has a use for. -/
structure IsForeign (c : Char) : Prop where
  notAscii : 0x80 ≤ c.toNat
  notLong : c ≠ 'ſ'
  notKelvin : c ≠ '\u212a'
  notDigit : isDecimalDigit c = false

theorem toLower_of_le {c : Char} (h : 0x80 ≤ c.toNat) : c.toLower = c := by
  have hlarge : 'Z'.val < c.val := by
    rw [UInt32.lt_iff_toNat_lt]
    exact Nat.lt_of_lt_of_le (by decide) h
  exact dif_neg fun hcapital => absurd hcapital.2 (UInt32.not_le.mpr hlarge)

theorem IsForeign.isFormOf_eq_false {c letter : Char} (hc : IsForeign c) (hletter : IsPlain letter) :
    isFormOf letter c = false := by
  have hne : c ≠ letter := by
    rintro rfl
    exact absurd hletter.ascii (Nat.not_lt.mpr hc.notAscii)
  simp [isFormOf, toLower_of_le hc.notAscii, hne, hc.notLong, hc.notKelvin]

theorem IsForeign.not_separator {c : Char} (hc : IsForeign c) : ¬(c = '.' ∨ c = '_') := by
  rintro (rfl | rfl) <;> exact absurd hc.notAscii (by decide)

/-- Characters that patterns have no use for look all the same to them. -/
theorem IsForeign.alike {c d : Char} (hc : IsForeign c) (hd : IsForeign d) : Alike c d where
  letter := fun _ hletter => by rw [hc.isFormOf_eq_false hletter, hd.isFormOf_eq_false hletter]
  separator := iff_of_false hd.not_separator hc.not_separator
  digit := by rw [hc.notDigit, hd.notDigit]
  kept := fun hdigit => absurd hdigit (by rw [hc.notDigit]; exact Bool.false_ne_true)

/-! ## Lower-case forms of characters -/

/-- Codes that are all of foreign characters. -/
def isForeignSpan (low high : Nat) : Bool :=
  0x80 ≤ low && (high < 0xD800 || 0xDFFF < low && high < 0x110000) &&
    (high < 0x17F || 0x17F < low) && (high < 0x212A || 0x212A < low) &&
    decimalDigitRanges.all fun range => high < range.1 || range.2 < low

/-- Only one letter outside of ASCII, the Kelvin sign, becomes a letter that patterns have a use
for. -/
theorem isForeignSpan_of_mem {run : CaseRun} (h : run ∈ lowercaseRuns) :
    run.last < 0x80 ∨
      (run.first = 0x212A ∧ run.last = 0x212A ∧ run.offset = 0x6B - 0x212A) ∨
      isForeignSpan run.first run.last = true ∧
        isForeignSpan (run.first + run.offset).toNat (run.last + run.offset).toNat = true := by
  have hall : ∀ run ∈ lowercaseRuns, run.last < 0x80 ∨
      (run.first = 0x212A ∧ run.last = 0x212A ∧ run.offset = 0x6B - 0x212A) ∨
      isForeignSpan run.first run.last = true ∧
        isForeignSpan (run.first + run.offset).toNat (run.last + run.offset).toNat = true := by
    decide +kernel
  exact hall run h

theorem isForeign_of_span {low high n : Nat} (h : isForeignSpan low high = true) (hlow : low ≤ n)
    (hhigh : n ≤ high) : IsForeign (Char.ofNat n) := by
  simp only [isForeignSpan, Bool.and_eq_true, Bool.or_eq_true, decide_eq_true_eq,
    List.all_eq_true] at h
  obtain ⟨⟨⟨⟨hascii, hvalid⟩, hlong⟩, hkelvin⟩, hdigits⟩ := h
  have hcode : (Char.ofNat n).toNat = n := by
    have hchar : n.isValidChar := by
      unfold Nat.isValidChar
      omega
    rw [Char.ofNat, dif_pos hchar]
    rfl
  have hne : ∀ c : Char, n ≠ c.toNat → Char.ofNat n ≠ c := by
    rintro c hn rfl
    exact hn hcode.symm
  refine ⟨by omega, hne 'ſ' ?_, hne '\u212a' ?_, ?_⟩
  · have hlongCode : 'ſ'.toNat = 0x17F := rfl
    omega
  · have hkelvinCode : '\u212a'.toNat = 0x212A := rfl
    omega
  · have hranges : inRanges decimalDigitRanges n = false := by
      rw [inRanges, List.any_eq_false]
      intro range hrange
      have houtside := hdigits range hrange
      simp only [Bool.and_eq_true, decide_eq_true_eq]
      omega
    have hsmall : (Char.ofNat n).isDigit = false := by
      rw [← Bool.not_eq_true]
      intro hdigit
      have hnine : (Char.ofNat n).toNat ≤ 57 := by
        simp only [Char.isDigit, Bool.and_eq_true, decide_eq_true_eq,
          UInt32.le_iff_toNat_le] at hdigit
        exact hdigit.2
      omega
    rw [isDecimalDigit, hsmall, hcode, hranges, Bool.and_false, Bool.or_false]

theorem isForeign_of_code {c : Char} (h : isForeignSpan c.toNat c.toNat = true) : IsForeign c := by
  rw [← Char.ofNat_toNat c]
  exact isForeign_of_span h (Nat.le_refl _) (Nat.le_refl _)

/-- ASCII letters and the Kelvin sign, as patterns see them. -/
theorem alike_toLower {n : Nat} (h : n < 0x80) : Alike (Char.ofNat n) (Char.ofNat n).toLower := by
  have hall : ∀ n < 0x80, (Char.ofNat n).toLower.toLower = (Char.ofNat n).toLower ∧
      (Char.ofNat n).toLower ≠ 'ſ' ∧ (Char.ofNat n).toLower ≠ '\u212a' ∧
      Char.ofNat n ≠ 'ſ' ∧ Char.ofNat n ≠ '\u212a' ∧
      ((Char.ofNat n).toLower = '.' ∨ (Char.ofNat n).toLower = '_' ↔
        Char.ofNat n = '.' ∨ Char.ofNat n = '_') ∧
      isDecimalDigit (Char.ofNat n).toLower = isDecimalDigit (Char.ofNat n) ∧
      (isDecimalDigit (Char.ofNat n) = true → (Char.ofNat n).toLower = Char.ofNat n) := by
    decide +kernel
  obtain ⟨htwice, hlong, hkelvin, hlong', hkelvin', hseparator, hdigit, hkept⟩ := hall n h
  refine ⟨fun letter _ => ?_, hseparator, hdigit, hkept⟩
  simp [isFormOf, htwice, hlong, hkelvin, hlong', hkelvin']

theorem alike_kelvin : Alike '\u212a' 'k' where
  letter := by
    intro letter hletter
    have hkelvin : '\u212a'.toLower = '\u212a' := rfl
    have hne : '\u212a' ≠ letter := by
      rintro rfl
      exact absurd hletter.ascii (by decide)
    have hk : 'k'.toLower = 'k' := rfl
    simp [isFormOf, hkelvin, hk, hne, eq_comm]
  separator := by decide
  digit := by decide +kernel
  kept := fun hdigit => absurd hdigit (by decide +kernel)

/-- A character becomes one that patterns take for it, unless it is the dotted capital I. -/
theorem lowercaseChar_cases (c : Char) :
    (∃ d, lowercaseChar c = [d] ∧ Alike c d) ∨
      c = 'İ' ∧ lowercaseChar c = ['i', '\u0307'] := by
  unfold lowercaseChar
  split_ifs with hascii hdotted
  · have halike := alike_toLower hascii
    rw [Char.ofNat_toNat] at halike
    exact Or.inl ⟨_, rfl, halike⟩
  · have hc : c = 'İ' := by
      rw [← Char.ofNat_toNat c, hdotted]
    exact Or.inr ⟨hc, rfl⟩
  · left
    split
    case h_1 run hrun =>
      refine ⟨_, rfl, ?_⟩
      have hcovers := List.find?_some hrun
      simp only [CaseRun.covers, Bool.and_eq_true, decide_eq_true_eq] at hcovers
      rcases isForeignSpan_of_mem (List.mem_of_find?_eq_some hrun) with
        hsmall | ⟨hfirst, hlast, hoffset⟩ | ⟨hspan, hspan'⟩
      · omega
      · have hc : c = '\u212a' := by
          rw [← Char.ofNat_toNat c, show c.toNat = 0x212A by omega]
        rw [hc, hoffset]
        exact alike_kelvin
      · have hforeign : IsForeign (Char.ofNat c.toNat) :=
          isForeign_of_span hspan (by omega) (by omega)
        rw [Char.ofNat_toNat] at hforeign
        exact hforeign.alike (isForeign_of_span hspan' (by omega) (by omega))
    case h_2 => exact ⟨c, rfl, Alike.refl c⟩

/-! ## Texts in step -/

/-- A text and its lower-case form, character by character. -/
inductive LowerForm : List Char → List Char → Prop
  | nil : LowerForm [] []
  | alike {c d : Char} {text lower : List Char} (h : Alike c d) (hrest : LowerForm text lower) :
      LowerForm (c :: text) (d :: lower)
  | dotted {text lower : List Char} (hrest : LowerForm text lower) :
      LowerForm ('İ' :: text) ('i' :: '\u0307' :: lower)

theorem alike_sigma : Alike 'Σ' 'σ' ∧ Alike 'Σ' 'ς' := by
  have hcapital : IsForeign 'Σ' := isForeign_of_code rfl
  exact ⟨hcapital.alike (isForeign_of_code rfl), hcapital.alike (isForeign_of_code rfl)⟩

theorem lowerForm_convert (before text : List Char) :
    LowerForm text (lowercase.convert before text) := by
  induction text generalizing before with
  | nil => exact .nil
  | cons c rest ih =>
      rw [lowercase.convert]
      split_ifs with hsigma hfinal
      · subst hsigma
        exact .alike alike_sigma.2 (ih _)
      · subst hsigma
        exact .alike alike_sigma.1 (ih _)
      · rcases lowercaseChar_cases c with ⟨d, hform, halike⟩ | ⟨rfl, hform⟩
        · rw [hform]
          exact .alike halike (ih _)
        · rw [hform]
          exact .dotted (ih _)

namespace LowerForm

variable {text lower : List Char}

/-- Digits are kept, and end where they end in the text. -/
theorem takeWhile_isDecimalDigit (h : LowerForm text lower) :
    lower.takeWhile isDecimalDigit = text.takeWhile isDecimalDigit := by
  induction h with
  | nil => rfl
  | @alike c d text lower halike _ ih =>
      by_cases hdigit : isDecimalDigit c = true
      · obtain rfl := halike.kept hdigit
        rw [List.takeWhile_cons_of_pos hdigit, List.takeWhile_cons_of_pos hdigit, ih]
      · have hdigit' : ¬isDecimalDigit d = true := by rwa [halike.digit]
        rw [List.takeWhile_cons_of_neg hdigit, List.takeWhile_cons_of_neg hdigit']
  | dotted _ _ =>
      rw [List.takeWhile_cons_of_neg (by decide +kernel),
        List.takeWhile_cons_of_neg (by decide +kernel)]

theorem separatedDigits?_eq (h : LowerForm text lower) :
    separatedDigits? lower = separatedDigits? text := by
  cases h with
  | nil => rfl
  | alike halike hrest =>
      simp only [separatedDigits?, halike.separator, hrest.takeWhile_isDecimalDigit]
  | dotted _ => rfl

/-- A word is found at the start of both texts or of neither, and what follows it is in step. -/
theorem rel_afterWord? {word : List Char} (hword : ∀ letter ∈ word, IsPlain letter)
    (h : LowerForm text lower) :
    Option.Rel LowerForm (afterWord? word text) (afterWord? word lower) := by
  induction word generalizing text lower with
  | nil => exact .some h
  | cons letter word ih =>
      obtain ⟨hletter, hrest⟩ := List.forall_mem_cons.mp hword
      cases h with
      | nil => exact .none
      | alike halike hafter =>
          rw [afterWord?, afterWord?, halike.letter letter hletter]
          split
          · exact ih hrest hafter
          · exact .none
      | dotted _ =>
          have hcapital : IsForeign 'İ' := isForeign_of_code rfl
          have hsmall : isFormOf letter 'i' = false := by
            have hlower : 'i'.toLower = 'i' := rfl
            simp [isFormOf, hlower, hletter.ne.symm]
          rw [afterWord?, afterWord?, hcapital.isFormOf_eq_false hletter, hsmall]
          exact .none

end LowerForm

/-! ## Numbers of layers -/

/-- The words before the numbers of layers. -/
def layerWords : List String := ["layers", "blocks", "h"]

theorem isPlain_of_mem {word : String} (h : word ∈ layerWords) :
    ∀ letter ∈ word.toList, IsPlain letter := by
  have hall : (layerWords.all fun word =>
      word.toList.all fun letter => letter.toNat < 0x80 && letter != 'i') = true := rfl
  intro letter hmem
  have hletter := List.all_eq_true.mp (List.all_eq_true.mp hall word h) letter hmem
  rw [Bool.and_eq_true, decide_eq_true_eq, bne_iff_ne] at hletter
  exact ⟨hletter.1, hletter.2⟩

/-- What follows a word for layers at the start of a text. -/
def afterLayerWord? (text : List Char) : Option (List Char) :=
  ((afterWord? "layers".toList text).or (afterWord? "blocks".toList text)).or
    (afterWord? "h".toList text)

theorem layerIndex?_eq (text : List Char) :
    layerIndex? text = numberAfter? afterLayerWord? text >>= wordValue? := rfl

theorem rel_or {α β : Type} {R : α → β → Prop} {a a' : Option α} {b b' : Option β}
    (h : Option.Rel R a b) (h' : Option.Rel R a' b') : Option.Rel R (a.or a') (b.or b') := by
  cases h with
  | some hab => exact .some hab
  | none => exact h'

variable {text lower : List Char}

theorem rel_afterLayerWord? (h : LowerForm text lower) :
    Option.Rel LowerForm (afterLayerWord? text) (afterLayerWord? lower) := by
  have hword : ∀ word ∈ layerWords,
      Option.Rel LowerForm (afterWord? word.toList text) (afterWord? word.toList lower) :=
    fun word hmem => h.rel_afterWord? (isPlain_of_mem hmem)
  apply rel_or
  · exact rel_or (hword "layers" (by decide)) (hword "blocks" (by decide))
  · exact hword "h" (by decide)

/-- Right at the start the same number follows a word, if there is one. -/
theorem bind_separatedDigits?_eq (h : LowerForm text lower) :
    (afterLayerWord? lower >>= separatedDigits?) = (afterLayerWord? text >>= separatedDigits?) := by
  have hrel := rel_afterLayerWord? h
  generalize afterLayerWord? text = after, afterLayerWord? lower = after' at hrel
  cases hrel with
  | some hafter => exact hafter.separatedDigits?_eq
  | none => rfl

theorem numberAfter?_lowerForm (h : LowerForm text lower) :
    numberAfter? afterLayerWord? lower = numberAfter? afterLayerWord? text := by
  induction h with
  | nil => rfl
  | alike halike hrest ih =>
      rw [numberAfter?, numberAfter?, bind_separatedDigits?_eq (.alike halike hrest), ih]
  | dotted hrest ih =>
      -- no word starts at the dot above the letter, either
      rw [numberAfter?, numberAfter?, bind_separatedDigits?_eq (.dotted hrest), numberAfter?, ih]
      rfl

/-- **A name and its lower-case form have the same layer number.** -/
theorem layerIndex?_lowercase (text : List Char) :
    layerIndex? (lowercase text) = layerIndex? text := by
  have hform : LowerForm text (lowercase text) := lowerForm_convert [] text
  rw [layerIndex?_eq, layerIndex?_eq, numberAfter?_lowerForm hform]

end LoraSchedule.Block
