import LoraSchedule.Proofs.Number.Numeral

/-!
# The shortest form of a number

The digits that `Binary.shortest` picks read back as the number
(`ofDecimal_shortest`): each choice of digits is tried before it is taken, all
the digits of the value would do if none was, and zeros at the end go over into
the power of ten (`ofDecimal_mul_ten_pow`).

The form of a number in a document spells these digits (`toScientific_eq`): as a
zero, as a whole number (`spelledAs_whole`), with the point among the digits or
before them (`spelledAs_positional`), or with a power of ten (`spelledAs_power`).
-/

namespace LoraSchedule.Number

namespace Binary

variable {x : Double}

/-! ## The shortest digits -/

/-- Moving the point past zeros does not change the number. -/
theorem ofDecimal_trimZeros (negative : Bool) (steps coefficient : Nat) (exponent : Int) :
    (ofDecimal ⟨negative, (trimZeros steps coefficient exponent).1,
        (trimZeros steps coefficient exponent).2⟩ : Double) =
      ofDecimal ⟨negative, coefficient, exponent⟩ := by
  induction steps generalizing coefficient exponent with
  | zero => rfl
  | succ steps ih =>
      unfold trimZeros
      split_ifs with hzero
      · have hcoefficient : coefficient / 10 * 10 = coefficient :=
          Nat.div_mul_cancel (Nat.dvd_of_mod_eq_zero hzero.1)
        rw [ih, ← ofDecimal_mul_ten, hcoefficient]
      · rfl

theorem ofDecimal_zero (negative : Bool) (exponent : Int) :
    (ofDecimal ⟨negative, 0, exponent⟩ : Double) = zero negative := by
  simp [ofDecimal]

/-- Digits are taken only if they read back. -/
theorem ofDecimal_of_withDigits? {ties : Tie} {count coefficient : Nat} {exponent : Int}
    (h : x.withDigits? ties count = some (coefficient, exponent)) :
    (ofDecimal ⟨x.negative, coefficient, exponent⟩ : Double) = x := by
  unfold withDigits? at h
  simp only at h
  split_ifs at h with hbelow habove
  · obtain ⟨rfl, rfl⟩ := Prod.mk.inj (Option.some.inj h)
    simp only [Bool.and_eq_true, decide_eq_true_eq] at hbelow
    exact hbelow.1
  · obtain ⟨rfl, rfl⟩ := Prod.mk.inj (Option.some.inj h)
    exact of_decide_eq_true habove

/-- All digits of the value read back, too. -/
theorem ofDecimal_units (hx : x.isFinite = true) :
    (ofDecimal ⟨x.negative, Format.double.units x.magnitude * 5 ^ Format.double.unitExponent,
      -(Format.double.unitExponent : Int)⟩ : Double) = x := by
  have hfinite : x.magnitude < Format.double.infinity := of_decide_eq_true hx
  have hten : 5 ^ Format.double.unitExponent * Format.double.unitsPerOne =
      10 ^ Format.double.unitExponent := by
    rw [Format.unitsPerOne, Nat.pow_eq, ← Nat.mul_pow]
  rw [ofDecimal_places _ _ (by decide), Nat.mul_assoc, hten, ofUnits,
    Format.double.nearest_units _ (by positivity), min_eq_left hfinite.le]

/-- **The shortest digits read back as the number.** -/
theorem ofDecimal_shortest (ties : Tie) (hx : x.isFinite = true) :
    (ofDecimal ⟨x.negative, (x.shortest ties).1, (x.shortest ties).2⟩ : Double) = x := by
  unfold shortest
  split_ifs with hzero
  · have hmagnitude : x.magnitude = 0 := of_decide_eq_true hzero
    rw [ofDecimal_zero, zero, ← hmagnitude]
  · simp only
    rw [ofDecimal_trimZeros]
    cases hshort : (List.range 17).findSome? fun count => x.withDigits? ties (count + 1) with
    | none => exact ofDecimal_units hx
    | some digits =>
        obtain ⟨count, -, hdigits⟩ := List.exists_of_findSome?_eq_some hshort
        exact ofDecimal_of_withDigits? hdigits

end Binary

/-! ## Spellings -/

/-- The text of a power of ten. -/
def exponentText : Option Int → List Char
  | none => []
  | some exponent => 'e' :: (if exponent < 0 then '-' else '+') :: digits exponent.natAbs

/-- A number as documents have it: digits before the point, digits after it and
a power of ten, the last two perhaps left out. -/
structure Spelling where
  negative : Bool
  whole : List Char
  fraction : List Char
  exponent : Option Int
  whole_ne_nil : whole ≠ []
  isDigit_whole : ∀ c ∈ whole, c.isDigit = true
  isDigit_fraction : ∀ c ∈ fraction, c.isDigit = true
  /-- No digit follows a leading zero. -/
  leading : whole.head? = some '0' → whole.length = 1

namespace Spelling

def text (s : Spelling) : List Char :=
  numeral s.negative s.whole s.fraction ++ exponentText s.exponent

/-- The decimal that is spelled. -/
def decimal (s : Spelling) : Decimal :=
  ⟨s.negative, ofDigits (s.whole ++ s.fraction), s.exponent.getD 0 - s.fraction.length⟩

/-- Whether there is neither point nor power of ten. -/
def IsWhole (s : Spelling) : Prop := s.fraction = [] ∧ s.exponent = none

instance (s : Spelling) : Decidable s.IsWhole := inferInstanceAs (Decidable (_ ∧ _))

/-- The digits of a whole number. -/
def ofNat (negative : Bool) (n : Nat) : Spelling where
  negative := negative
  whole := digits n
  fraction := []
  exponent := none
  whole_ne_nil := digits_ne_nil n
  isDigit_whole _ := isDigit_of_mem_digits
  isDigit_fraction _ hc := absurd hc List.not_mem_nil
  leading hzero := by
    rcases Nat.eq_zero_or_pos n with rfl | hpos
    · rfl
    · exact absurd hzero (head?_digits_ne_zero hpos)

theorem text_ofNat (negative : Bool) (n : Nat) :
    (ofNat negative n).text = (if negative then ['-'] else []) ++ digits n := by
  cases negative <;> simp [text, ofNat, numeral, exponentText]

end Spelling

/-! ## The form in a document -/

private theorem isDigit_zero : ∀ c ∈ ['0'], c.isDigit = true := List.forall_mem_singleton.mpr rfl

namespace Binary

/-- A text that spells a decimal, or one with the same value, and not as a whole number. -/
def SpelledAs (text : List Char) (d : Decimal) : Prop :=
  ∃ s : Spelling, text = s.text ∧ ¬s.IsWhole ∧ (ofDecimal s.decimal : Double) = ofDecimal d

section

variable (negative : Bool) {coefficient : Nat} {exponent : Int}

/-- The digits of a whole number, zeros, and a zero after the point. -/
theorem spelledAs_whole (hpos : 0 < coefficient) (hexponent : 0 ≤ exponent) :
    SpelledAs ((if negative then ['-'] else []) ++
        (positional (digits coefficient) ((digits coefficient).length + exponent) ++ ['.', '0']))
      ⟨negative, coefficient, exponent⟩ := by
  obtain ⟨count, rfl⟩ := Int.eq_ofNat_of_zero_le hexponent
  have hplaced : positional (digits coefficient) ((digits coefficient).length + (count : Int)) =
      digits coefficient ++ List.replicate count '0' := by
    have hlength := List.length_pos_iff.mpr (digits_ne_nil coefficient)
    rw [positional, if_neg (by omega), if_pos (by omega)]
    congr 2
    omega
  refine ⟨⟨negative, digits coefficient ++ List.replicate count '0', ['0'], none, ?_, ?_,
    isDigit_zero, ?_⟩, ?_, ?_, ?_⟩
  · simp [digits_ne_nil]
  · exact List.forall_mem_append.mpr
      ⟨fun c => isDigit_of_mem_digits, fun c => isDigit_of_mem_replicate⟩
  · rw [List.head?_append_of_ne_nil _ (digits_ne_nil _)]
    exact fun hzero => absurd hzero (head?_digits_ne_zero hpos)
  · rw [hplaced]
    simp [Spelling.text, numeral, exponentText]
  · simp [Spelling.IsWhole]
  · have hcoefficient : ofDigits (digits coefficient ++ List.replicate count '0' ++ ['0']) =
        coefficient * 10 ^ (count + 1) := by
      rw [List.append_assoc, ← List.replicate_succ', ofDigits_append, ofDigits_replicate_zero,
        ofDigits_digits, List.length_replicate, Nat.add_zero]
    rw [Spelling.decimal, hcoefficient, ofDecimal_mul_ten_pow]
    congr 2
    simp

/-- The point among the digits, or before them. -/
theorem spelledAs_positional (hpos : 0 < coefficient) (hexponent : exponent < 0) :
    SpelledAs ((if negative then ['-'] else []) ++
        positional (digits coefficient) ((digits coefficient).length + exponent))
      ⟨negative, coefficient, exponent⟩ := by
  have hdigit : ∀ c ∈ digits coefficient, c.isDigit = true := fun c => isDigit_of_mem_digits
  have hhead := head?_digits_ne_zero hpos
  have hne := digits_ne_nil coefficient
  have hvalue := ofDigits_digits coefficient
  generalize digits coefficient = text at *
  by_cases hbefore : (text.length : Int) + exponent ≤ 0
  · obtain ⟨gap, hgap⟩ : ∃ gap : Nat, -((text.length : Int) + exponent) = gap :=
      ⟨_, (Int.toNat_of_nonneg (by omega)).symm⟩
    rw [positional, if_pos hbefore, hgap, Int.toNat_natCast]
    refine ⟨⟨negative, ['0'], List.replicate gap '0' ++ text, none, by simp, isDigit_zero, ?_,
      fun _ => rfl⟩, ?_, ?_, ?_⟩
    · exact List.forall_mem_append.mpr
        ⟨fun c => isDigit_of_mem_replicate, hdigit⟩
    · simp [Spelling.text, numeral, exponentText, hne]
    · simp [Spelling.IsWhole, hne]
    · have hcoefficient : ofDigits (['0'] ++ (List.replicate gap '0' ++ text)) = coefficient := by
        rw [← List.append_assoc, ofDigits_append, ← List.replicate_one, ← List.replicate_add,
          ofDigits_replicate_zero, hvalue, Nat.zero_mul, Nat.zero_add]
      rw [Spelling.decimal, hcoefficient]
      congr 2
      simp
      omega
  · obtain ⟨place, hplace⟩ : ∃ place : Nat, (text.length : Int) + exponent = place :=
      ⟨_, (Int.toNat_of_nonneg (by omega)).symm⟩
    rw [positional, if_neg hbefore, hplace, Int.toNat_natCast,
      if_neg (show ¬text.length ≤ place by omega)]
    refine ⟨⟨negative, text.take place, text.drop place, none, ?_, ?_, ?_, ?_⟩, ?_, ?_, ?_⟩
    · rw [ne_eq, List.take_eq_nil_iff]
      rintro (rfl | rfl)
      · omega
      · simp at hplace
        omega
    · exact fun c hc => hdigit c (List.mem_of_mem_take hc)
    · exact fun c hc => hdigit c (List.mem_of_mem_drop hc)
    · rw [List.head?_take, if_neg (by omega)]
      exact fun hzero => absurd hzero hhead
    · have hrest : text.drop place ≠ [] := by
        rw [ne_eq, List.drop_eq_nil_iff]
        omega
      simp [Spelling.text, numeral, exponentText, hrest]
    · have hrest : place < text.length := by omega
      simp [Spelling.IsWhole, hrest]
    · rw [Spelling.decimal, List.take_append_drop, hvalue]
      congr 2
      simp
      omega

/-- One digit before the point, and a power of ten. -/
theorem spelledAs_power :
    SpelledAs ((if negative then ['-'] else []) ++
        match digits coefficient with
        | [] => []
        | [c] => c :: exponentText (some ((digits coefficient).length + exponent - 1))
        | c :: rest =>
          c :: '.' :: (rest ++ exponentText (some ((digits coefficient).length + exponent - 1))))
      ⟨negative, coefficient, exponent⟩ := by
  have hdigit : ∀ c ∈ digits coefficient, c.isDigit = true := fun c => isDigit_of_mem_digits
  have hne := digits_ne_nil coefficient
  have hvalue := ofDigits_digits coefficient
  generalize digits coefficient = text at *
  obtain ⟨c, rest, rfl⟩ := List.exists_cons_of_ne_nil hne
  obtain ⟨hfirst, hrest⟩ := List.forall_mem_cons.mp hdigit
  refine ⟨⟨negative, [c], rest, some ((rest.length + 1 : Nat) + exponent - 1), by simp,
    by simpa using hfirst, hrest, fun _ => rfl⟩, ?_, ?_, ?_⟩
  · cases rest <;> simp [Spelling.text, numeral]
  · simp [Spelling.IsWhole]
  · rw [Spelling.decimal, List.singleton_append, hvalue]
    congr 2
    simp
    omega

end

variable {x : Double}

/-- **The form of a finite number in a document spells it**, and not as a whole
number. -/
theorem toScientific_eq (hx : x.isFinite = true) :
    ∃ s : Spelling, x.toScientific = s.text ∧ ¬s.IsWhole ∧ (ofDecimal s.decimal : Double) = x := by
  have hread := ofDecimal_shortest .toEven hx
  unfold toScientific
  rcases hshort : x.shortest .toEven with ⟨coefficient, exponent⟩
  rw [hshort] at hread
  simp only at hread ⊢
  rw [signText]
  -- the layouts keep the value of the digits, which read back as the number
  suffices h : SpelledAs _ ⟨x.negative, coefficient, exponent⟩ by
    rwa [SpelledAs, hread] at h
  rcases Nat.eq_zero_or_pos coefficient with rfl | hpos
  · rw [if_pos rfl]
    refine ⟨⟨x.negative, ['0'], ['0'], none, by simp, isDigit_zero, isDigit_zero, fun _ => rfl⟩,
      ?_, ?_, ?_⟩
    · simp [Spelling.text, numeral, exponentText]
    · simp [Spelling.IsWhole]
    · exact (ofDecimal_zero ..).trans (ofDecimal_zero ..).symm
  rw [if_neg hpos.ne']
  by_cases hwhole : 0 ≤ exponent ∧ ((digits coefficient).length : Int) + exponent ≤ 16
  · rw [if_pos hwhole]
    exact spelledAs_whole x.negative hpos hwhole.1
  rw [if_neg hwhole]
  by_cases hpoint : -5 < ((digits coefficient).length : Int) + exponent ∧
      ((digits coefficient).length : Int) + exponent ≤ 16
  · rw [if_pos hpoint]
    exact spelledAs_positional x.negative hpos (by omega)
  rw [if_neg hpoint]
  exact spelledAs_power x.negative

end Binary

end LoraSchedule.Number
