import LoraSchedule.Proofs.Number.Values
import LoraSchedule.Proofs.Schedule.ValueText

/-!
# One text for each rounded number

The text of a finite number is short: it has no more than four digits after a
point, and none that could be left out (`isShortNumeral_formatValue`).  What is
read from it has the same text and is not changed by rounding once more
(`Line.quantize_quantize`), so texts stand for rounded numbers one to one
(`formatValue_eq_iff`), and in their order (`Line.atMost_quantize`).
-/

namespace LoraSchedule

open LoraSchedule.Number
open LoraSchedule.Text

/-- A sign or none, digits, and nothing more or a point with one to four digits, the last of which
is not a zero. -/
def IsShortNumeral (text : List Char) : Prop :=
  ∃ negative whole fraction, text = numeral negative whole fraction ∧ whole ≠ [] ∧
    (∀ c ∈ whole, c.isDigit = true) ∧ (∀ c ∈ fraction, c.isDigit = true) ∧
    fraction.length ≤ 4 ∧ ∀ c ∈ fraction.getLast?, c ≠ '0'

variable {x y : Double}

theorem isShortNumeral_formatValue (hx : x.isFinite = true) : IsShortNumeral (formatValue x) := by
  obtain ⟨whole, fraction, htext, hne, hwhole, hfraction, hlength, hlast, -⟩ :=
    formatValue_eq_numeral hx
  exact ⟨x.negative, whole, fraction, htext, hne, hwhole, hfraction, hlength, hlast⟩

namespace Line

/-! ## Rounding -/

/-- To round a number is to write it with four decimals and to read that. -/
theorem readFinite?_toFixed (hx : x.isFinite = true) :
    readFinite? (x.toFixed 4) = some (quantize x) := by
  obtain ⟨whole, fraction, htext, hne, hwhole, hfraction, hlength, hvalue⟩ :=
    Binary.toFixed_eq (by decide : 4 ≠ 0) hx
  have hsome : fraction ≠ [] := by
    rintro rfl
    cases hlength
  have hnumeral : x.toFixed 4 = numeral x.negative whole fraction := by
    rw [htext, numeral, if_neg hsome, Binary.signText]
  have hread : (Binary.ofDecimal ⟨x.negative, ofDigits (whole ++ fraction),
      -(fraction.length : Int)⟩ : Double) = quantize x := by
    rw [hvalue, hlength, quantize, if_pos hx]
    rfl
  rw [readFinite?, hnumeral, read?_numeral _ hne hwhole hfraction, Option.map_some, hread,
    Option.filter_some, if_pos (isFinite_quantize hx)]

theorem quantize_zero (negative : Bool) :
    quantize (Binary.zero negative) = Binary.zero negative := by
  cases negative <;> decide +kernel

/-- **A number that is at most another is rounded to one that is at most the other's.** -/
theorem atMost_quantize (hx : x.isFinite = true) (hy : y.isFinite = true)
    (h : x.atMost y = true) : (quantize x).atMost (quantize y) = true := by
  by_cases hrank : x.totalRank ≤ y.totalRank
  · have hrounded := of_decide_eq_true (totalAtMost_quantize hx hy (decide_eq_true hrank))
    apply Binary.atMost_of_totalRank_le _ _ hrounded
    · exact Binary.isNaN_of_isFinite (isFinite_quantize hx)
    · exact Binary.isNaN_of_isFinite (isFinite_quantize hy)
  · -- The total order tells only the two zeros apart that are equal as numbers.
    obtain ⟨hxzero, hyzero⟩ : x.magnitude = 0 ∧ y.magnitude = 0 := by
      simp only [Binary.atMost, Bool.and_eq_true, decide_eq_true_eq] at h
      have hle := h.2
      unfold Binary.rank at hle
      unfold Binary.totalRank at hrank
      split_ifs at hle hrank <;> omega
    have hx' : x = Binary.zero x.negative := by rw [Binary.zero, ← hxzero]
    have hy' : y = Binary.zero y.negative := by rw [Binary.zero, ← hyzero]
    rw [hx', hy'] at h ⊢
    rwa [quantize_zero, quantize_zero]

end Line

/-! ## Texts -/

/-- **Numbers have the same text just if they are rounded alike.** -/
theorem formatValue_eq_iff (hx : x.isFinite = true) (hy : y.isFinite = true) :
    formatValue x = formatValue y ↔ Line.quantize x = Line.quantize y := by
  constructor
  · intro htext
    have hread := readNumber?_formatValue hx
    rw [htext, readNumber?_formatValue hy] at hread
    exact (Option.some.inj hread).symm
  · intro hrounded
    rw [← formatValue_quantize hx, hrounded, formatValue_quantize hy]

/-- **The text of a finite number is canonical.**  It is a short numeral.  What is read from it is
the number rounded to four decimals: it is finite, has that text, and is rounded to itself; and it
is at most what is read from the text of any finite number that is no smaller. -/
theorem formatValue_canonical (hx : x.isFinite = true) :
    IsShortNumeral (formatValue x) ∧
      (∃ read, Line.readNumber? (formatValue x) = some read ∧ read.isFinite = true ∧
        formatValue read = formatValue x ∧ Line.quantize read = read ∧
        ∀ y : Double, y.isFinite = true → x.atMost y = true →
          ∃ other, Line.readNumber? (formatValue y) = some other ∧ read.atMost other = true) ∧
      readFinite? (x.toFixed 4) = some (Line.quantize x) ∧
      formatValue (Line.quantize x) = formatValue x := by
  refine ⟨isShortNumeral_formatValue hx, ⟨Line.quantize x, readNumber?_formatValue hx,
    Line.isFinite_quantize hx, formatValue_quantize hx, Line.quantize_quantize hx, ?_⟩,
    Line.readFinite?_toFixed hx, formatValue_quantize hx⟩
  intro y hy hle
  exact ⟨Line.quantize y, readNumber?_formatValue hy, Line.atMost_quantize hx hy hle⟩

/-- A number that lies closer to zero than to the first decimal, and below a larger one. -/
theorem formatValue_canonical_small :
    let small : Double := Binary.ofDecimal ⟨true, 4, -5⟩
    let large : Double := Binary.ofDecimal ⟨false, 123456789, -5⟩
    formatValue small = "-0".toList ∧ formatValue large = "1234.5679".toList ∧
      IsShortNumeral (formatValue small) ∧
      ∃ read other, Line.readNumber? (formatValue small) = some read ∧
        Line.readNumber? (formatValue large) = some other ∧ read.atMost other = true := by
  intro small large
  have hsmall : small.isFinite = true := by decide +kernel
  have hlarge : large.isFinite = true := by decide +kernel
  have hle : small.atMost large = true := by decide +kernel
  obtain ⟨hform, ⟨read, hread, -, -, -, hmono⟩, -⟩ := formatValue_canonical hsmall
  obtain ⟨other, hother, hatMost⟩ := hmono large hlarge hle
  exact ⟨by decide +kernel, by decide +kernel, hform, read, other, hread, hother, hatMost⟩

end LoraSchedule
