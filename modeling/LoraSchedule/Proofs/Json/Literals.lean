import LoraSchedule.Json.Printer
import LoraSchedule.Proofs.Number.Scientific

/-!
# Numbers and strings of a document

What is printed for a number is read back as that number (`takeToken?_render`),
since it spells it; what is printed for a string is read back as that string
(`takeToken?_renderString`), since each character is written as one part.  Reading
stops right behind either.
-/

namespace LoraSchedule.Json

open LoraSchedule.Number

/-! ## Numbers -/

/-- The meaning of a spelling. -/
def ofSpelling? (s : Spelling) : Option Numeral :=
  if s.IsWhole then wholeNumeral s.negative s.decimal.coefficient else floatNumeral s.decimal

/-- A text that does not go on with a number. -/
def EndsNumber (rest : List Char) : Prop :=
  ∀ c ∈ rest.head?, c.isDigit = false ∧ c ≠ '.' ∧ c ≠ 'e' ∧ c ≠ 'E'

variable {rest : List Char}

theorem takeExponent?_text (hrest : EndsNumber rest) (exponent : Option Int) :
    takeExponent? (exponentText exponent ++ rest) = some (exponent, rest) := by
  cases exponent with
  | none =>
      cases rest with
      | nil => rfl
      | cons c rest =>
          obtain ⟨-, -, hlower, hupper⟩ := hrest c rfl
          simp [exponentText, takeExponent?, hlower, hupper]
  | some exponent =>
      have hdigit : ∀ c ∈ digits exponent.natAbs, c.isDigit = true :=
        fun c => isDigit_of_mem_digits
      obtain ⟨htake, hdrop⟩ := takeWhile_isDigit_append hdigit fun c hc => (hrest c hc).1
      have hsign : Decimal.takeSign ((if exponent < 0 then '-' else '+') ::
          (digits exponent.natAbs ++ rest)) =
            (decide (exponent < 0), digits exponent.natAbs ++ rest) := by
        split_ifs with hneg <;> simp [Decimal.takeSign, hneg]
      have hvalue : (if exponent < 0 then -(exponent.natAbs : Int) else exponent.natAbs) =
          exponent := by
        split_ifs <;> omega
      simpa [exponentText, takeExponent?, hsign, htake, hdrop, digits_ne_nil] using hvalue

theorem takeFraction?_text {fraction : List Char} (hdigit : ∀ c ∈ fraction, c.isDigit = true)
    (hrest : ∀ c ∈ rest.head?, c.isDigit = false ∧ c ≠ '.') :
    takeFraction? ((if fraction = [] then [] else '.' :: fraction) ++ rest) =
      some (fraction, rest) := by
  split_ifs with hnone
  · subst hnone
    cases rest with
    | nil => rfl
    | cons c rest =>
        unfold takeFraction?
        split
        case h_1 heq => exact absurd (List.cons.inj heq).1 (hrest c rfl).2
        case h_2 => rfl
  · obtain ⟨htake, hdrop⟩ := takeWhile_isDigit_append hdigit fun c hc => (hrest c hc).1
    simp [takeFraction?, htake, hdrop, hnone]

/-- A number without its sign. -/
def takeUnsigned? (negative : Bool) (unsigned : List Char) : Option (Token × List Char) := do
  let whole := unsigned.takeWhile Char.isDigit
  guard (whole ≠ [] ∧ (whole.head? = some '0' → whole.length = 1))
  let (fraction, rest) ← takeFraction? (unsigned.dropWhile Char.isDigit)
  let (exponent, rest) ← takeExponent? rest
  let coefficient := ofDigits (whole ++ fraction)
  let value :=
    if fraction = [] ∧ exponent = none then wholeNumeral negative coefficient
    else floatNumeral ⟨negative, coefficient, exponent.getD 0 - fraction.length⟩
  return (.number value, rest)

theorem takeNumber?_minus (unsigned : List Char) :
    takeNumber? ('-' :: unsigned) = takeUnsigned? true unsigned := rfl

theorem takeNumber?_of_head {text : List Char} (h : text.head? ≠ some '-') :
    takeNumber? text = takeUnsigned? false text := by
  unfold takeNumber?
  split
  rename_i hsign
  split at hsign
  · exact absurd rfl h
  · obtain ⟨rfl, rfl⟩ := Prod.mk.inj hsign
    rfl

/-- **A spelled number is read with the meaning of its spelling.** -/
theorem takeNumber?_text (s : Spelling) (hrest : EndsNumber rest) :
    takeNumber? (s.text ++ rest) = some (.number (ofSpelling? s), rest) := by
  have hafter : ∀ c ∈ (exponentText s.exponent ++ rest).head?, c.isDigit = false ∧ c ≠ '.' := by
    cases s.exponent with
    | none => exact fun c hc => ⟨(hrest c hc).1, (hrest c hc).2.1⟩
    | some exponent => simp [exponentText, Char.isDigit]
  set fraction := (if s.fraction = [] then [] else '.' :: s.fraction) ++
    (exponentText s.exponent ++ rest) with hfraction
  have hpoint : ∀ c ∈ fraction.head?, c.isDigit = false := by
    rw [hfraction]
    split_ifs with hnone
    · exact fun c hc => (hafter c hc).1
    · simp [Char.isDigit]
  obtain ⟨htake, hdrop⟩ := takeWhile_isDigit_append s.isDigit_whole hpoint
  have hunsigned : takeUnsigned? s.negative (s.whole ++ fraction) =
      some (.number (ofSpelling? s), rest) := by
    rw [takeUnsigned?]
    simp only [htake, hdrop]
    rw [hfraction, takeFraction?_text s.isDigit_fraction hafter]
    have hleading : s.whole.head? = some '0' → s.whole.length = 1 := s.leading
    simp [guard, s.whole_ne_nil, if_pos hleading, takeExponent?_text hrest, ofSpelling?,
      Spelling.decimal]
    rfl
  have hsplit : s.text ++ rest = (if s.negative then ['-'] else []) ++ (s.whole ++ fraction) := by
    simp [Spelling.text, numeral, hfraction]
  rw [hsplit]
  -- a digit is not taken for a sign
  cases hsign : s.negative with
  | true =>
      rw [hsign] at hunsigned
      exact (takeNumber?_minus _).trans hunsigned
  | false =>
      have hhead : (s.whole ++ fraction).head? ≠ some '-' := by
        obtain ⟨c, tail, hwhole⟩ := List.exists_cons_of_ne_nil s.whole_ne_nil
        have hdigit := s.isDigit_whole c (hwhole ▸ List.mem_cons_self ..)
        rw [hwhole, List.cons_append, List.head?_cons]
        rintro hminus
        simp [Option.some.inj hminus] at hdigit
      rw [hsign] at hunsigned
      exact (takeNumber?_of_head hhead).trans hunsigned

/-- A number that a text can mean. -/
def Numeral.Printable : Numeral → Prop
  | .natural n => n < 2 ^ 64
  | .negative n => 0 < n ∧ n ≤ 2 ^ 63
  | .float x => x.isFinite = true

/-- **A printed number spells itself.** -/
theorem Numeral.exists_spelling {n : Numeral} (hn : n.Printable) :
    ∃ s : Spelling, n.render = s.text ∧ ofSpelling? s = some n := by
  have hwhole : ∀ negative n, ofSpelling? (.ofNat negative n) = wholeNumeral negative n := by
    intro negative n
    simp [ofSpelling?, Spelling.IsWhole, Spelling.ofNat, Spelling.decimal]
  cases n with
  | natural n =>
      rw [Numeral.Printable] at hn
      refine ⟨.ofNat false n, by simp [Numeral.render, Spelling.text_ofNat], ?_⟩
      rw [hwhole, wholeNumeral, if_pos (by simpa using hn)]
  | negative n =>
      rw [Numeral.Printable] at hn
      refine ⟨.ofNat true n, by simp [Numeral.render, Spelling.text_ofNat], ?_⟩
      rw [hwhole, wholeNumeral, if_neg (by simp), if_pos (by simpa using hn)]
  | float x =>
      rw [Numeral.Printable] at hn
      obtain ⟨s, htext, hfraction, hvalue⟩ := Binary.toScientific_eq hn
      refine ⟨s, by rw [Numeral.render, if_pos hn, htext], ?_⟩
      rw [ofSpelling?, if_neg hfraction, floatNumeral]
      simp [hvalue, hn]

/-- A token that starts like a number is one. -/
theorem takeToken?_number {c : Char} (hc : c.isDigit = true ∨ c = '-') (text : List Char) :
    takeToken? c text = takeNumber? (c :: text) := by
  unfold takeToken?
  split
  case h_11 => rfl
  all_goals exact absurd hc (by decide)

theorem isSpace_number {c : Char} (hc : c.isDigit = true ∨ c = '-') : isSpace c = false := by
  rw [← Bool.not_eq_true, isSpace]
  simp only [Bool.or_eq_true, decide_eq_true_eq]
  rintro (((rfl | rfl) | rfl) | rfl) <;> exact absurd hc (by decide)

/-- **A printed number is read back.** -/
theorem takeToken?_render {n : Numeral} (hn : n.Printable) (hrest : EndsNumber rest) :
    ∃ c more, n.render = c :: more ∧ isSpace c = false ∧
      takeToken? c (more ++ rest) = some (.number (some n), rest) := by
  obtain ⟨s, htext, hvalue⟩ := n.exists_spelling hn
  have hread := takeNumber?_text s hrest
  obtain ⟨c, more, hsplit, hc⟩ : ∃ c more, s.text = c :: more ∧ (c.isDigit = true ∨ c = '-') := by
    obtain ⟨c, tail, hwhole⟩ := List.exists_cons_of_ne_nil s.whole_ne_nil
    have hdigit := s.isDigit_whole c (hwhole ▸ List.mem_cons_self ..)
    rw [Spelling.text, numeral, hwhole]
    cases s.negative with
    | true => exact ⟨'-', _, rfl, .inr rfl⟩
    | false => exact ⟨c, _, rfl, .inl hdigit⟩
  refine ⟨c, more, htext.trans hsplit, isSpace_number hc, ?_⟩
  rw [takeToken?_number hc, ← List.cons_append, ← hsplit, hread, hvalue]

/-! ## Strings -/

/-- The part of a string that a character is written as: control characters
without an escape of their own are written as units. -/
def pieceOf (c : Char) : Piece :=
  if c.toNat < 0x20 ∧ c ∉ ['\x08', '\x0c', '\n', '\r', '\t'] then .unit c.toNat else .char c

theorem hexUnit?_hexDigit : ∀ n < 0x20,
    hexUnit? '0' '0' (hexDigit (n / 16)) (hexDigit (n % 16)) = some n := by
  decide

/-- **What a character is written as is read as one part.** -/
theorem takePieces?_escapeChar (c : Char) {text : List Char} {pieces : List Piece}
    (h : takePieces? text = some (pieces, rest)) :
    takePieces? (escapeChar c ++ text) = some (pieceOf c :: pieces, rest) := by
  by_cases hsimple : c ∈ ['"', '\\', '\x08', '\x0c', '\n', '\r', '\t']
  · simp only [List.mem_cons, List.not_mem_nil, or_false] at hsimple
    rcases hsimple with rfl | rfl | rfl | rfl | rfl | rfl | rfl <;>
      simp [escapeChar, takePieces?, simpleEscape?, pieceOf, h]
  · simp only [List.mem_cons, List.not_mem_nil, or_false, not_or] at hsimple
    by_cases hcontrol : c.toNat < 0x20
    · simp [escapeChar, takePieces?, hexUnit?_hexDigit _ hcontrol, pieceOf, hsimple, hcontrol, h]
    · have hvisible : 0x20 ≤ c.toNat := by omega
      simp [escapeChar, takePieces?, pieceOf, guard, hsimple, hcontrol, hvisible, h]

theorem takePieces?_escape (text : List Char) :
    takePieces? (text.flatMap escapeChar ++ '"' :: rest) = some (text.map pieceOf, rest) := by
  induction text with
  | nil => simp [takePieces?]
  | cons c text ih =>
      rw [List.flatMap_cons, List.append_assoc, takePieces?_escapeChar c ih, List.map_cons]

/-- A unit of a control character is no half of a pair. -/
theorem joinPieces?_unit {n : Nat} (hn : n < 0x20) (pieces : List Piece) :
    joinPieces? (.unit n :: pieces) = (joinPieces? pieces).map (Char.ofNat n :: ·) := by
  have hhigh : ¬(0xD800 ≤ n) := by omega
  have hlow : ¬(0xDC00 ≤ n) := by omega
  match pieces with
  | [] | .char _ :: _ | .unit _ :: _ => simp [joinPieces?, hhigh, hlow]

theorem joinPieces?_pieceOf (text : List Char) : joinPieces? (text.map pieceOf) = some text := by
  induction text with
  | nil => rfl
  | cons c text ih =>
      rw [List.map_cons, pieceOf]
      split_ifs with hcontrol
      · rw [joinPieces?_unit hcontrol.1, ih, Option.map_some, Char.ofNat_toNat]
      · rw [joinPieces?, ih, Option.map_some]

/-- **A printed string is read back.** -/
theorem takeToken?_renderString (s : String) :
    takeToken? '"' (s.toList.flatMap escapeChar ++ '"' :: rest) =
      some (.string (some s), rest) := by
  simp [takeToken?, takePieces?_escape, joinPieces?_pieceOf]

end LoraSchedule.Json
