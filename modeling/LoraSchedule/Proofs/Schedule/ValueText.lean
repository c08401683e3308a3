import LoraSchedule.Proofs.Number.Numeral
import LoraSchedule.Proofs.Number.Sums
import LoraSchedule.Proofs.Text.Parts
import LoraSchedule.Schedule.Line

/-!
# The text of a number

A finite number is written with up to four decimals, and that text is read as
`Line.quantize` of the number.  So writing after reading gives the text again
(`formatValue_quantize`), and the number read is finite and keeps its place
among others (`totalAtMost_quantize`).  It is negligible as a strength just if
the text is that of a zero (`isNegligible_quantize_iff`).
-/

namespace LoraSchedule

open LoraSchedule.Number
open LoraSchedule.Text

namespace Line

variable {x y : Double}

theorem quantize_eq_toPlaces (hx : x.isFinite = true) : quantize x = x.toPlaces 4 := by
  rw [quantize, if_pos hx]
  rfl

theorem isFinite_quantize (hx : x.isFinite = true) : (quantize x).isFinite = true := by
  rw [quantize_eq_toPlaces hx]
  exact Binary.isFinite_toPlaces (by decide) hx

/-- **Rounding twice is rounding once.** -/
theorem quantize_quantize (hx : x.isFinite = true) : quantize (quantize x) = quantize x := by
  rw [quantize_eq_toPlaces (isFinite_quantize hx), quantize_eq_toPlaces hx, Binary.toPlaces,
    Binary.negative_toPlaces (by decide) hx, Binary.fixedUnits_toPlaces (by decide) hx]
  rfl

/-- Rounding does not change the order in which points are sorted. -/
theorem totalAtMost_quantize (hx : x.isFinite = true) (hy : y.isFinite = true)
    (h : x.totalAtMost y = true) : (quantize x).totalAtMost (quantize y) = true := by
  rw [quantize_eq_toPlaces hx, quantize_eq_toPlaces hy]
  simp only [Binary.totalAtMost, decide_eq_true_eq] at h ⊢
  exact Binary.totalRank_toPlaces_le (by decide) hx hy h

end Line

variable {x : Double}

/-! ## The text as a numeral -/

/-- Digits without the zeros at their end. -/
private theorem exists_append_zeros (digits : List Char) :
    ∃ fraction zeros, digits = fraction ++ zeros ∧ (∀ c ∈ zeros, c = '0') ∧
      ∀ c ∈ fraction.getLast?, c ≠ '0' := by
  refine ⟨digits.rdropWhile (· = '0'), digits.rtakeWhile (· = '0'), ?_, ?_, ?_⟩
  · exact (List.rdropWhile_append_rtakeWhile ..).symm
  · intro c hc
    simpa using List.mem_rtakeWhile_imp hc
  · intro c hc
    have hne : digits.rdropWhile (· = '0') ≠ [] := by
      intro hnil
      simp [hnil] at hc
    have hlast := List.rdropWhile_last_not (· = '0') digits hne
    rw [List.getLast?_eq_getLast_of_ne_nil hne, Option.mem_some_iff] at hc
    simpa [hc] using hlast

/-- Zeros after the point are left out, and the point, too, if nothing else
follows it. -/
private theorem dropEnds_eq {start fraction zeros : List Char}
    (hstart : ∀ c ∈ start.getLast?, c ≠ '.') (hfraction : ∀ c ∈ fraction, c.isDigit = true)
    (hlast : ∀ c ∈ fraction.getLast?, c ≠ '0') (hzeros : ∀ c ∈ zeros, c = '0') :
    dropEndWhile (· = '.') (dropEndWhile (· = '0') (start ++ '.' :: (fraction ++ zeros))) =
      start ++ (if fraction = [] then [] else '.' :: fraction) := by
  have hsplit : start ++ '.' :: (fraction ++ zeros) = start ++ '.' :: fraction ++ zeros := by simp
  rw [hsplit, dropEndWhile_append (by simpa using hzeros)]
  · by_cases hnil : fraction = []
    · rw [hnil, if_pos rfl, List.append_nil]
      exact dropEndWhile_append (by simp) (by simpa using hstart)
    · rw [if_neg hnil]
      have hdigit : ∀ c ∈ fraction.getLast?, c ≠ '.' := by
        rintro c hc rfl
        exact absurd (hfraction _ (List.mem_of_mem_getLast? hc)) (by decide)
      refine dropEndWhile_eq_self ?_
      rw [List.getLast?_append_of_ne_nil _ (by simp), List.getLast?_cons_of_ne_nil hnil]
      simpa using hdigit
  · by_cases hnil : fraction = []
    · simp [hnil]
    · rw [List.getLast?_append_of_ne_nil _ (by simp), List.getLast?_cons_of_ne_nil hnil]
      simpa using hlast

/-- The text of a finite number spells its decimal, without a zero at the end of the digits after
the point. -/
theorem formatValue_eq_numeral (hx : x.isFinite = true) :
    ∃ whole fraction, formatValue x = numeral x.negative whole fraction ∧ whole ≠ [] ∧
      (∀ c ∈ whole, c.isDigit = true) ∧ (∀ c ∈ fraction, c.isDigit = true) ∧
      fraction.length ≤ 4 ∧ (∀ c ∈ fraction.getLast?, c ≠ '0') ∧
      ofDigits (whole ++ fraction) * 10 ^ (4 - fraction.length) = x.fixedUnits 4 := by
  obtain ⟨whole, digits, htext, hne, hwhole, hdigits, hlength, hvalue⟩ :=
    Binary.toFixed_eq (by decide : 4 ≠ 0) hx
  obtain ⟨fraction, zeros, rfl, hzeros, hlast⟩ := exists_append_zeros digits
  have hfraction : ∀ c ∈ fraction, c.isDigit = true :=
    fun c hc => hdigits c (List.mem_append_left _ hc)
  rw [List.length_append] at hlength
  refine ⟨whole, fraction, ?_, hne, hwhole, hfraction, by omega, hlast, ?_⟩
  · have hpoint : '.' ∈ x.toFixed 4 := by simp [htext]
    have hstart : ∀ c ∈ (x.signText ++ whole).getLast?, c ≠ '.' := by
      rintro c hc rfl
      rw [List.getLast?_append_of_ne_nil _ hne] at hc
      exact absurd (hwhole _ (List.mem_of_mem_getLast? hc)) (by decide)
    simp only [formatValue, hpoint, if_true]
    rw [htext, dropEnds_eq hstart hfraction hlast hzeros]
    rfl
  · have hreplicate : zeros = List.replicate (4 - fraction.length) '0' :=
      List.eq_replicate_iff.mpr ⟨by omega, hzeros⟩
    rw [← hvalue, ← List.append_assoc, ofDigits_append _ zeros, hreplicate,
      ofDigits_replicate_zero, List.length_replicate, Nat.add_zero]

/-! ## Reading it back -/

theorem isBlank_of_isNumeralChar {c : Char} (h : isNumeralChar c = true) : isBlank c = false := by
  simp only [isNumeralChar, Bool.or_eq_true, decide_eq_true_eq] at h
  rcases h with (hdigit | rfl) | rfl
  · have hbounds : 48 ≤ c.toNat ∧ c.toNat ≤ 57 := by
      simpa [Char.isDigit, UInt32.le_iff_toNat_le] using hdigit
    simp [isBlank]
    omega
  · decide
  · decide

theorem isNumeralChar_of_mem_formatValue (hx : x.isFinite = true) {c : Char}
    (hc : c ∈ formatValue x) : isNumeralChar c = true := by
  obtain ⟨whole, fraction, htext, -, hwhole, hfraction, -⟩ := formatValue_eq_numeral hx
  rw [htext] at hc
  exact isNumeralChar_of_mem_numeral hwhole hfraction hc

/-- Characters that have a meaning of their own in a line do not stand in the
text of a number. -/
theorem not_mem_formatValue (hx : x.isFinite = true) {c : Char} (hc : isNumeralChar c = false) :
    c ∉ formatValue x :=
  fun hmem => Bool.false_ne_true (hc.symm.trans (isNumeralChar_of_mem_formatValue hx hmem))

/-- **The text of a finite number is read as the number rounded to four
decimals.** -/
theorem readNumber?_formatValue (hx : x.isFinite = true) :
    Line.readNumber? (formatValue x) = some (Line.quantize x) := by
  have htrimmed : Trimmed (formatValue x) :=
    trimmed_of_forall fun c hc =>
      isBlank_of_isNumeralChar (isNumeralChar_of_mem_formatValue hx hc)
  obtain ⟨whole, fraction, htext, hne, hwhole, hfraction, hlength, -, hvalue⟩ :=
    formatValue_eq_numeral hx
  have hplaces : -(fraction.length : Int) = -4 + ((4 - fraction.length : Nat) : Int) := by omega
  have hread : (Binary.ofDecimal ⟨x.negative, ofDigits (whole ++ fraction),
      -(fraction.length : Int)⟩ : Double) = Line.quantize x := by
    rw [hplaces, ← Binary.ofDecimal_mul_ten_pow, hvalue, Line.quantize, if_pos hx]
  rw [Line.readNumber?, trim_eq_self htrimmed, htext, readFinite?,
    read?_numeral _ hne hwhole hfraction, Option.map_some, hread, Option.filter_some,
    if_pos (Line.isFinite_quantize hx)]

/-- **A number read from its text is written as that text again.** -/
theorem formatValue_quantize (hx : x.isFinite = true) :
    formatValue (Line.quantize x) = formatValue x := by
  have hquantize := Line.isFinite_quantize hx
  have htoFixed : (Line.quantize x).toFixed 4 = x.toFixed 4 := by
    have hkind : ∀ {y : Double}, y.isFinite = true → y.isNaN = false ∧ y.isInfinite = false := by
      intro y hy
      simp only [Binary.isFinite, Binary.isNaN, Binary.isInfinite, decide_eq_true_eq,
        decide_eq_false_iff_not] at hy ⊢
      omega
    rw [Binary.toFixed, Binary.toFixed, (hkind hx).1, (hkind hx).2, (hkind hquantize).1,
      (hkind hquantize).2, Line.quantize_eq_toPlaces hx, Binary.signText, Binary.signText,
      Binary.negative_toPlaces (by decide) hx, Binary.fixedUnits_toPlaces (by decide) hx]
  rw [formatValue, htoFixed, formatValue]

/-! ## Texts of zero -/

/-- The text of a number is that of one of the zeros. -/
def ShowsZero (x : Double) : Prop := formatValue x = "0".toList ∨ formatValue x = "-0".toList

instance (x : Double) : Decidable (ShowsZero x) := inferInstanceAs (Decidable (_ ∨ _))

/-- Below what a strength is negligible. -/
def Entry.tolerance : Double := Binary.ofDecimal ⟨false, 1, -6⟩

/-- The tolerance is positive, and below the least number with four decimals. -/
theorem tolerance_spec : Entry.tolerance.isFinite = true ∧ 0 < Entry.tolerance.magnitude ∧
    Entry.tolerance.magnitude ≤ Format.double.nearest (1 * Format.double.unitsPerOne) (10 ^ 4) := by
  decide +kernel

theorem isNegligible_iff (hx : x.isFinite = true) :
    Entry.isNegligible x = true ↔ x.magnitude < Entry.tolerance.magnitude := by
  have hnan : x.abs.isNaN = false := Binary.isNaN_of_isFinite (x := x.abs) hx
  have hsign : Entry.tolerance.negative = false := by decide
  show x.abs.less Entry.tolerance = true ↔ _
  rw [Binary.less_iff_of_nonneg rfl hnan (Binary.isNaN_of_isFinite tolerance_spec.1)]
  simp only [Binary.totalRank, Binary.abs, hsign, Bool.false_eq_true, if_false]
  exact Int.ofNat_lt

theorem formatValue_zero (negative : Bool) :
    formatValue (Binary.zero negative) = if negative then "-0".toList else "0".toList := by
  cases negative <;> decide +kernel

theorem isNegligible_zero (negative : Bool) : Entry.isNegligible (Binary.zero negative) = true :=
  (isNegligible_iff (by cases negative <;> decide)).mpr tolerance_spec.2.1

/-- A strength that was rounded is negligible just if it was written as zero. -/
theorem isNegligible_quantize_iff (hx : x.isFinite = true) :
    Entry.isNegligible (Line.quantize x) = true ↔ ShowsZero x := by
  constructor
  · intro h
    rw [isNegligible_iff (Line.isFinite_quantize hx), Line.quantize_eq_toPlaces hx,
      Binary.toPlaces_eq (by decide) hx] at h
    have hunits : x.fixedUnits 4 = 0 := by
      by_contra hne
      have hle : 1 * Format.double.unitsPerOne ≤ x.fixedUnits 4 * Format.double.unitsPerOne :=
        Nat.mul_le_mul_right _ (Nat.one_le_iff_ne_zero.mpr hne)
      have hnearest : Format.double.nearest (1 * Format.double.unitsPerOne) (10 ^ 4) ≤
          Format.double.nearest (x.fixedUnits 4 * Format.double.unitsPerOne) (10 ^ 4) :=
        Format.double.nearest_mono (by decide) hle
      exact absurd h (not_lt.mpr (tolerance_spec.2.2.trans hnearest))
    have hzero : Line.quantize x = Binary.zero x.negative := by
      rw [Line.quantize, if_pos hx, hunits]
      rfl
    rw [ShowsZero, ← formatValue_quantize hx, hzero, formatValue_zero]
    cases x.negative
    · exact Or.inl rfl
    · exact Or.inr rfl
  · have hread := readNumber?_formatValue hx
    rintro (htext | htext)
    · have hzero : Line.readNumber? "0".toList = some (Binary.zero false) := by decide
      rw [htext, hzero] at hread
      rw [← Option.some.inj hread]
      exact isNegligible_zero _
    · have hzero : Line.readNumber? "-0".toList = some (Binary.zero true) := by decide
      rw [htext, hzero] at hread
      rw [← Option.some.inj hread]
      exact isNegligible_zero _

end LoraSchedule
