import LoraSchedule.Proofs.Number.FixedPlaces
import Mathlib.Data.List.DropRight

/-!
# Written numerals

A numeral is a sign, at least one digit, and perhaps a point with more digits
after it.  `Decimal.read?` reads every such text as the decimal that it spells
(`read?_numeral`), and zeros at the end of the digits after the point do not
matter for the number read (`Binary.ofDecimal_mul_ten_pow`).
-/

namespace LoraSchedule.Number

/-! ## Digits -/

theorem ofDigits_eq_ofDigitChars (text : List Char) : ofDigits text = Nat.ofDigitChars 10 text 0 :=
  rfl

theorem ofDigits_append (first second : List Char) :
    ofDigits (first ++ second) = ofDigits first * 10 ^ second.length + ofDigits second := by
  simp only [ofDigits_eq_ofDigitChars]
  rw [Nat.ofDigitChars_append, Nat.ofDigitChars_eq_ofDigitChars_zero, Nat.mul_comm]

theorem ofDigits_replicate_zero (n : Nat) : ofDigits (List.replicate n '0') = 0 := by
  rw [ofDigits_eq_ofDigitChars, Nat.ofDigitChars_replicate_zero, Nat.mul_zero]

@[simp] theorem ofDigits_digits (n : Nat) : ofDigits (digits n) = n :=
  Nat.ofDigitChars_ten_toDigits

theorem isDigit_of_mem_digits {c : Char} {n : Nat} (h : c ∈ digits n) : c.isDigit = true :=
  Nat.isDigit_of_mem_toDigits (by decide) (by decide) h

theorem digits_ne_nil (n : Nat) : digits n ≠ [] := Nat.toDigits_ne_nil

theorem digits_mul_ten {n : Nat} (h : 0 < n) : digits (n * 10) = digits n ++ ['0'] := by
  have happend := Nat.toDigits_append_toDigits (by decide : 1 < 10) h (by decide : 0 < 10)
  rw [Nat.add_zero, Nat.mul_comm] at happend
  exact happend.symm

/-- A positive number has no leading zero. -/
theorem head?_digits_ne_zero {n : Nat} (h : 0 < n) : (digits n).head? ≠ some '0' := by
  induction n using Nat.strongRecOn with
  | ind n ih =>
      rw [digits, Nat.toDigits_eq_if (by decide)]
      split_ifs with hsmall
      · have hdigit : ∀ n < 10, 0 < n → some n.digitChar ≠ some '0' := by decide
        exact hdigit n hsmall h
      · have hrest := ih (n / 10) (by omega) (by omega)
        rw [digits] at hrest
        rwa [List.head?_append_of_ne_nil _ Nat.toDigits_ne_nil]

theorem isDigit_of_mem_replicate {c : Char} {count : Nat} (h : c ∈ List.replicate count '0') :
    c.isDigit = true :=
  (List.mem_replicate.mp h).2 ▸ rfl

@[simp] theorem ofDigits_paddedDigits (width n : Nat) : ofDigits (paddedDigits width n) = n := by
  rw [paddedDigits, ofDigits_append, ofDigits_replicate_zero, ofDigits_digits, Nat.zero_mul,
    Nat.zero_add]

theorem isDigit_of_mem_paddedDigits {c : Char} {width n : Nat} (h : c ∈ paddedDigits width n) :
    c.isDigit = true := by
  rcases List.mem_append.mp h with hzero | hdigit
  · exact isDigit_of_mem_replicate hzero
  · exact isDigit_of_mem_digits hdigit

theorem le_length_paddedDigits (width n : Nat) : width ≤ (paddedDigits width n).length := by
  rw [paddedDigits, List.length_append, List.length_replicate]
  omega

/-! ## Numerals -/

/-- The text of a sign, the digits before the point, and those after it. -/
def numeral (negative : Bool) (whole fraction : List Char) : List Char :=
  (if negative then ['-'] else []) ++ whole ++ (if fraction = [] then [] else '.' :: fraction)

/-- A character that may stand in a numeral. -/
def isNumeralChar (c : Char) : Bool := c.isDigit || c = '-' || c = '.'

theorem isNumeralChar_of_mem_numeral {negative : Bool} {whole fraction : List Char}
    (hwhole : ∀ c ∈ whole, c.isDigit = true) (hfraction : ∀ c ∈ fraction, c.isDigit = true)
    {c : Char} (h : c ∈ numeral negative whole fraction) : isNumeralChar c = true := by
  rw [numeral, List.mem_append, List.mem_append] at h
  rcases h with (hsign | hc) | hrest
  · split at hsign <;> simp at hsign
    simp [isNumeralChar, hsign]
  · simp [isNumeralChar, hwhole c hc]
  · split at hrest
    · simp at hrest
    · rcases List.mem_cons.mp hrest with rfl | hc
      · simp [isNumeralChar]
      · simp [isNumeralChar, hfraction c hc]

/-- A digit is not taken for a sign. -/
private theorem takeSign_of_isDigit {c : Char} (hc : c.isDigit = true) (rest : List Char) :
    Decimal.takeSign (c :: rest) = (false, c :: rest) := by
  unfold Decimal.takeSign
  split
  · rename_i heq
    simp [(List.cons.inj heq).1] at hc
  · rename_i heq
    simp [(List.cons.inj heq).1] at hc
  · rfl

private theorem takeSign_numeral (negative : Bool) {whole : List Char} (fraction : List Char)
    (hne : whole ≠ []) (hwhole : ∀ c ∈ whole, c.isDigit = true) :
    Decimal.takeSign (numeral negative whole fraction) =
      (negative, whole ++ (if fraction = [] then [] else '.' :: fraction)) := by
  cases negative with
  | true => rfl
  | false =>
      obtain ⟨c, rest, rfl⟩ := List.exists_cons_of_ne_nil hne
      exact takeSign_of_isDigit (hwhole c (List.mem_cons_self ..)) _

theorem takeWhile_isDigit_append {text rest : List Char}
    (htext : ∀ c ∈ text, c.isDigit = true) (hrest : ∀ c ∈ rest.head?, c.isDigit = false) :
    (text ++ rest).takeWhile Char.isDigit = text ∧
      (text ++ rest).dropWhile Char.isDigit = rest := by
  rw [List.takeWhile_append_of_pos htext, List.dropWhile_append_of_pos htext]
  cases rest with
  | nil => simp
  | cons c rest => simp [hrest c rfl]

/-- **A numeral is read as the decimal that it spells.** -/
theorem read?_numeral (negative : Bool) {whole fraction : List Char} (hne : whole ≠ [])
    (hwhole : ∀ c ∈ whole, c.isDigit = true) (hfraction : ∀ c ∈ fraction, c.isDigit = true) :
    Decimal.read? (numeral negative whole fraction) =
      some ⟨negative, ofDigits (whole ++ fraction), -(fraction.length : Int)⟩ := by
  unfold Decimal.read?
  rw [takeSign_numeral negative fraction hne hwhole]
  have hnothing : ∀ c ∈ ([] : List Char).head?, c.isDigit = false := by simp
  rcases eq_or_ne fraction [] with rfl | hfractionNe
  · obtain ⟨htake, hdrop⟩ := takeWhile_isDigit_append hwhole hnothing
    simp only [if_true, htake, hdrop]
    simp [hne, Decimal.readExponent?]
  · have hpoint : ∀ c ∈ ('.' :: fraction).head?, c.isDigit = false := by simp [Char.isDigit]
    obtain ⟨htake, hdrop⟩ := takeWhile_isDigit_append hwhole hpoint
    obtain ⟨htake', hdrop'⟩ := takeWhile_isDigit_append hfraction hnothing
    rw [List.append_nil] at htake' hdrop'
    simp only [hfractionNe, if_false, htake, hdrop, htake', hdrop']
    simp [hne, Decimal.readExponent?]

/-- The fixed-place form of a finite number spells its decimal. -/
theorem Binary.toFixed_eq {F : Format} {places : Nat} (hplaces : places ≠ 0) {x : Binary F}
    (hx : x.isFinite = true) :
    ∃ whole fraction, x.toFixed places = x.signText ++ whole ++ '.' :: fraction ∧ whole ≠ [] ∧
      (∀ c ∈ whole, c.isDigit = true) ∧ (∀ c ∈ fraction, c.isDigit = true) ∧
      fraction.length = places ∧ ofDigits (whole ++ fraction) = x.fixedUnits places := by
  have hmagnitude : x.magnitude < F.infinity := by simpa [isFinite] using hx
  have hnan : x.isNaN = false := by simpa [isNaN] using hmagnitude.le
  have hinfinite : x.isInfinite = false := by simpa [isInfinite] using hmagnitude.ne
  have hlength := le_length_paddedDigits (places + 1) (x.fixedUnits places)
  set text := paddedDigits (places + 1) (x.fixedUnits places) with htext
  refine ⟨text.take (text.length - places), text.drop (text.length - places), ?_, ?_, ?_, ?_, ?_,
    ?_⟩
  · simp only [toFixed, hnan, hinfinite, Bool.false_eq_true, if_false, hplaces, htext]
  · rw [ne_eq, List.take_eq_nil_iff]
    rintro (hzero | hnil)
    · omega
    · simp [hnil] at hlength
  · exact fun c hc => isDigit_of_mem_paddedDigits (List.mem_of_mem_take hc)
  · exact fun c hc => isDigit_of_mem_paddedDigits (List.mem_of_mem_drop hc)
  · rw [List.length_drop]
    omega
  · rw [List.take_append_drop, htext, ofDigits_paddedDigits]

/-! ## Zeros at the end -/

namespace Binary

/-- Ten to the power that is not multiplied out any more is out of range for any
coefficient. -/
theorem infinity_le_nearest {n : Nat} (h : 10 * 10 ^ 2048 ≤ n) :
    Format.double.infinity ≤ Format.double.nearest (n * Format.double.unitsPerOne) 1 := by
  have htop : Format.double.infinity ≤
      Format.double.nearest (10 * 10 ^ 2048 * Format.double.unitsPerOne) 1 := by
    decide +kernel
  exact htop.trans (Format.double.nearest_mono Nat.one_pos (Nat.mul_le_mul_right _ h))

/-- **A zero at the end of the coefficient is as good as one in the power of
ten.** -/
theorem ofDecimal_mul_ten (negative : Bool) (coefficient : Nat) (exponent : Int) :
    (ofDecimal ⟨negative, coefficient * 10, exponent⟩ : Double) =
      ofDecimal ⟨negative, coefficient, exponent + 1⟩ := by
  rcases Nat.eq_zero_or_pos coefficient with rfl | hpos
  · simp [ofDecimal]
  have hlength : (digits (coefficient * 10)).length = (digits coefficient).length + 1 := by
    rw [digits_mul_ten hpos, List.length_append, List.length_singleton]
  have hreach : ((2 ^ Format.double.exponentBits : Nat) : Int) = 2048 := by decide
  unfold ofDecimal
  simp only [Nat.pow_eq, hlength, hreach, if_neg hpos.ne',
    if_neg (show coefficient * 10 ≠ 0 by omega), Nat.cast_add, Nat.cast_one]
  by_cases hlarge : 2048 < exponent
  · rw [if_pos hlarge, if_pos (by omega)]
  rw [if_neg hlarge]
  by_cases htop : exponent = 2048
  · -- the one power at which only the second is not multiplied out
    have hinfinite : 10 * 10 ^ 2048 ≤ coefficient * 10 * 10 ^ (2048 : Nat) :=
      Nat.mul_le_mul_right _ (Nat.le_mul_of_pos_left 10 hpos)
    rw [htop, if_neg (by omega), if_pos (by decide), if_pos (by decide), ofUnits, infinite,
      show (2048 : Int).toNat = 2048 from rfl, min_eq_right (infinity_le_nearest hinfinite)]
  rw [if_neg (show ¬(2048 : Int) < exponent + 1 by omega)]
  by_cases hsmall : exponent + ((digits coefficient).length + 1) < -2048
  · rw [if_pos hsmall, if_pos (by omega)]
  rw [if_neg hsmall,
    if_neg (show ¬exponent + 1 + ((digits coefficient).length : Int) < -2048 by omega)]
  by_cases hwhole : 0 ≤ exponent
  · have hnext : (exponent + 1).toNat = exponent.toNat + 1 := by omega
    rw [if_pos hwhole, if_pos (by omega), hnext, Nat.pow_succ', Nat.mul_assoc coefficient]
  have hplaces : (-exponent).toNat = (-(exponent + 1)).toNat + 1 := by omega
  rw [if_neg hwhole, hplaces, Nat.pow_succ, Nat.mul_right_comm coefficient 10]
  split_ifs with hone
  · obtain rfl : exponent = -1 := by omega
    have hcommon := Format.double.nearest_mul_right (coefficient * Format.double.unitsPerOne) 1
      (show 0 < 10 by decide)
    simpa [ofUnits] using congrArg (fun m => min m Format.double.infinity) hcommon
  · simp only [ofUnits, Format.double.nearest_mul_right _ _ (show 0 < 10 by decide)]

theorem ofDecimal_mul_ten_pow (negative : Bool) (coefficient count : Nat) (exponent : Int) :
    (ofDecimal ⟨negative, coefficient * 10 ^ count, exponent⟩ : Double) =
      ofDecimal ⟨negative, coefficient, exponent + count⟩ := by
  induction count generalizing exponent with
  | zero => simp
  | succ count ih =>
      rw [Nat.pow_succ, ← Nat.mul_assoc, ofDecimal_mul_ten, ih]
      congr 2
      push_cast
      ring

end Binary

end LoraSchedule.Number
