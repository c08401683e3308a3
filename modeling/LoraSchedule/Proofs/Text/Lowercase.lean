import LoraSchedule.Text.Lowercase
import Mathlib.Data.List.Basic

/-!
# Points in lower-case texts

Lower-casing neither makes nor loses a point, and it keeps the place of the
first character (`dot_mem_tail_lowercase_iff`).  In a text without a capital
sigma each character stands for itself, so there lower-casing goes through
appending (`lowercase_append`).
-/

namespace LoraSchedule.Text

/-! ## Single characters -/

theorem ofNat_ne_dot {n : Nat} (h : 0x2E < n) : Char.ofNat n ≠ '.' := by
  intro heq
  by_cases hvalid : n.isValidChar
  · have hcode : (Char.ofNatAux n hvalid).toNat = n := rfl
    rw [Char.ofNat, dif_pos hvalid] at heq
    rw [heq] at hcode
    exact absurd hcode (Nat.ne_of_lt h)
  · rw [Char.ofNat, dif_neg hvalid] at heq
    exact absurd heq (by decide)

/-- No letter outside of ASCII is lower-cased to one of the first codes. -/
theorem lt_of_covers {run : CaseRun} (hrun : run ∈ lowercaseRuns) {n : Nat} (hn : 0x80 ≤ n)
    (hcovers : run.covers n = true) : 0x2E < (n + run.offset).toNat := by
  have hall : ∀ run ∈ lowercaseRuns, run.last < 0x80 ∨ 0x2E < run.first + run.offset := by
    decide +kernel
  simp only [CaseRun.covers, Bool.and_eq_true, decide_eq_true_eq] at hcovers
  have := hall run hrun
  omega

/-- A character in lower case: a point is kept, and no point arises. -/
theorem lowercaseChar_eq_cons (c : Char) :
    ∃ first rest, lowercaseChar c = first :: rest ∧ (first = '.' ↔ c = '.') ∧ '.' ∉ rest := by
  unfold lowercaseChar
  split_ifs with hascii hdotted
  · -- the first codes are checked one by one
    have hall : ∀ n < 0x80, (Char.ofNat n).toLower = '.' ↔ Char.ofNat n = '.' := by decide
    have hc := hall c.toNat hascii
    rw [Char.ofNat_toNat] at hc
    exact ⟨_, _, rfl, hc, List.not_mem_nil⟩
  · refine ⟨'i', ['\u0307'], rfl, ?_, by decide⟩
    have hc : c ≠ '.' := by
      rintro rfl
      exact absurd hdotted (by decide)
    simpa using hc
  · split
    · rename_i run hrun
      refine ⟨_, _, rfl, ?_, List.not_mem_nil⟩
      have hc : c ≠ '.' := by
        rintro rfl
        exact hascii (by decide)
      have hcovers := List.find?_some hrun
      have hlt := lt_of_covers (List.mem_of_find?_eq_some hrun) (Nat.le_of_not_lt hascii) hcovers
      simpa [hc] using ofNat_ne_dot hlt
    · exact ⟨_, _, rfl, Iff.rfl, List.not_mem_nil⟩

/-! ## Texts -/

namespace lowercase

/-- The form of a character between the characters before it and those after it. -/
theorem convert_cons (before : List Char) (c : Char) (rest : List Char) :
    ∃ first others, convert before (c :: rest) = first :: (others ++ convert (c :: before) rest) ∧
      (first = '.' ↔ c = '.') ∧ '.' ∉ others := by
  rw [convert]
  by_cases hc : c = 'Σ'
  · subst hc
    by_cases hfinal : (startsCased before && !startsCased rest) = true
    · exact ⟨'ς', [], by simp [hfinal], by decide, List.not_mem_nil⟩
    · exact ⟨'σ', [], by simp [hfinal], by decide, List.not_mem_nil⟩
  · obtain ⟨first, others, hform, hfirst, hothers⟩ := lowercaseChar_eq_cons c
    exact ⟨first, others, by simp [hc, hform], hfirst, hothers⟩

theorem dot_mem_convert_iff {before text : List Char} :
    '.' ∈ convert before text ↔ '.' ∈ text := by
  induction text generalizing before with
  | nil => simp [convert]
  | cons c rest ih =>
      obtain ⟨first, others, hform, hfirst, hothers⟩ := convert_cons before c rest
      rw [hform, List.mem_cons, List.mem_append, ih, List.mem_cons, eq_comm, hfirst, eq_comm]
      simp [hothers]

/-- A character other than a capital sigma is read by itself. -/
theorem convert_eq_flatMap {before text : List Char} (h : 'Σ' ∉ text) :
    convert before text = text.flatMap lowercaseChar := by
  induction text generalizing before with
  | nil => rfl
  | cons c rest ih =>
      rw [List.mem_cons, not_or] at h
      rw [convert, if_neg (Ne.symm h.1), ih h.2, List.flatMap_cons]

end lowercase

@[simp] theorem dot_mem_lowercase_iff {text : List Char} : '.' ∈ lowercase text ↔ '.' ∈ text :=
  lowercase.dot_mem_convert_iff

/-- **Points after the first character are points after the first character.** -/
theorem dot_mem_tail_lowercase_iff {text : List Char} :
    '.' ∈ (lowercase text).tail ↔ '.' ∈ text.tail := by
  cases text with
  | nil => exact Iff.rfl
  | cons c rest =>
      obtain ⟨first, others, hform, -, hothers⟩ := lowercase.convert_cons [] c rest
      rw [lowercase, hform, List.tail_cons, List.mem_append, lowercase.dot_mem_convert_iff,
        List.tail_cons]
      exact or_iff_right hothers

@[simp] theorem lowercase_eq_nil_iff {text : List Char} : lowercase text = [] ↔ text = [] := by
  cases text with
  | nil => simp [lowercase, lowercase.convert]
  | cons c rest =>
      obtain ⟨first, others, hform, -, -⟩ := lowercase.convert_cons [] c rest
      rw [lowercase, hform]
      simp

theorem lowercase_append {first second : List Char} (hfirst : 'Σ' ∉ first)
    (hsecond : 'Σ' ∉ second) :
    lowercase (first ++ second) = lowercase first ++ lowercase second := by
  have happend : 'Σ' ∉ first ++ second := by simp [hfirst, hsecond]
  simp only [lowercase, lowercase.convert_eq_flatMap happend, lowercase.convert_eq_flatMap hfirst,
    lowercase.convert_eq_flatMap hsecond, List.flatMap_append]

/-- A text cut at a point, in lower case. -/
theorem lowercase_append_dot {before after : List Char} (hbefore : 'Σ' ∉ before)
    (hafter : 'Σ' ∉ after) :
    lowercase (before ++ '.' :: after) = lowercase before ++ '.' :: lowercase after := by
  have hdot : 'Σ' ∉ ['.'] := by decide
  have hcons : 'Σ' ∉ ['.'] ++ after := by simpa using hafter
  calc lowercase (before ++ (['.'] ++ after))
      = lowercase before ++ lowercase (['.'] ++ after) := lowercase_append hbefore hcons
    _ = lowercase before ++ (['.'] ++ lowercase after) := by
        rw [lowercase_append hdot hafter]
        rfl

end LoraSchedule.Text
