import LoraSchedule.Proofs.Json.Printed
import LoraSchedule.Proofs.Schedule.Rows

/-!
# Line ends in JSON

A text may end its lines with a line feed, or with a carriage return before it
(`Text.withReturns`).  In JSON both stand between tokens only, so the tokens are
the same (`tokens?_withReturns`), and so is the list that a text is, if it is one
(`Schedule.jsonItems?_withReturns`).

How many tokens a text may have is bounded by its length, which grows with the
carriage returns.  A higher bound changes nothing, for every token takes a
character (`tokensWithin?_of_le`).
-/

namespace LoraSchedule

namespace Text

/-- A text with a carriage return before each line feed. -/
def withReturns (text : List Char) : List Char :=
  text.flatMap fun c => if c = '\n' then ['\r', '\n'] else [c]

@[simp] theorem withReturns_nil : withReturns [] = [] := rfl

@[simp] theorem withReturns_lineFeed (text : List Char) :
    withReturns ('\n' :: text) = '\r' :: '\n' :: withReturns text :=
  rfl

theorem withReturns_cons {c : Char} (hc : c ≠ '\n') (text : List Char) :
    withReturns (c :: text) = c :: withReturns text := by
  simp [withReturns, hc]

/-- A beginning without line ends stands where it stood. -/
theorem eq_append_of_withReturns {beginning : List Char} (hbeginning : '\r' ∉ beginning)
    {text after : List Char} (h : withReturns text = beginning ++ after) :
    ∃ rest, text = beginning ++ rest := by
  induction beginning generalizing text with
  | nil => exact ⟨text, rfl⟩
  | cons c beginning ih =>
      rw [List.mem_cons, not_or] at hbeginning
      cases text with
      | nil => cases h
      | cons d text =>
          by_cases hd : d = '\n'
          · subst hd
            exact absurd (List.cons.inj h).1 hbeginning.1
          · rw [withReturns_cons hd] at h
            obtain ⟨rfl, htail⟩ := List.cons.inj h
            obtain ⟨rest, rfl⟩ := ih hbeginning.2 htail
            exact ⟨rest, rfl⟩

theorem withReturns_append (first second : List Char) :
    withReturns (first ++ second) = withReturns first ++ withReturns second :=
  List.flatMap_append

theorem withReturns_eq_self {text : List Char} (h : '\n' ∉ text) : withReturns text = text := by
  induction text with
  | nil => rfl
  | cons c rest ih =>
      rw [List.mem_cons, not_or] at h
      rw [withReturns_cons (Ne.symm h.1), ih h.2]

/-- A run of characters that are neither line feeds nor carriage returns. -/
theorem span_withReturns {p : Char → Bool} (hfeed : p '\n' = false) (hreturn : p '\r' = false)
    (text : List Char) :
    (withReturns text).takeWhile p = text.takeWhile p ∧
      (withReturns text).dropWhile p = withReturns (text.dropWhile p) := by
  induction text with
  | nil => exact ⟨rfl, rfl⟩
  | cons c rest ih =>
      by_cases hc : c = '\n'
      · subst hc
        simp [hfeed, hreturn]
      · rw [withReturns_cons hc]
        cases hp : p c with
        | true => simp [hp, ih]
        | false => simp [hp, withReturns_cons hc]

/-- Blanks that line feeds and carriage returns are among. -/
theorem dropWhile_withReturns {p : Char → Bool} (hfeed : p '\n' = true) (hreturn : p '\r' = true)
    (text : List Char) :
    (withReturns text).dropWhile p = withReturns (text.dropWhile p) := by
  induction text with
  | nil => rfl
  | cons c rest ih =>
      by_cases hc : c = '\n'
      · subst hc
        simp [hfeed, hreturn, ih]
      · rw [withReturns_cons hc]
        cases hp : p c with
        | true => simp [hp, ih]
        | false => simp [hp, withReturns_cons hc]

end Text

namespace Json

open LoraSchedule.Number LoraSchedule.Text

/-! ## Numbers -/

theorem takeSign_withReturns (text : List Char) :
    Decimal.takeSign (withReturns text) =
      ((Decimal.takeSign text).1, withReturns (Decimal.takeSign text).2) := by
  cases text with
  | nil => rfl
  | cons c rest =>
      by_cases hc : c = '\n'
      · subst hc
        rfl
      · rw [withReturns_cons hc]
        unfold Decimal.takeSign
        split <;> simp_all [withReturns_cons]

theorem takeFraction?_withReturns (text : List Char) :
    takeFraction? (withReturns text) =
      (takeFraction? text).map fun parts => (parts.1, withReturns parts.2) := by
  cases text with
  | nil => rfl
  | cons c rest =>
      by_cases hc : c = '\n'
      · subst hc
        rfl
      · rw [withReturns_cons hc]
        by_cases hpoint : c = '.'
        · subst hpoint
          obtain ⟨htake, hdrop⟩ := span_withReturns (p := Char.isDigit) rfl rfl rest
          simp only [takeFraction?, htake, hdrop]
          split_ifs <;> rfl
        · simp [takeFraction?, hpoint, withReturns_cons hc]

theorem takeExponent?_withReturns (text : List Char) :
    takeExponent? (withReturns text) =
      (takeExponent? text).map fun parts => (parts.1, withReturns parts.2) := by
  cases text with
  | nil => rfl
  | cons c rest =>
      by_cases hc : c = '\n'
      · subst hc
        rfl
      · rw [withReturns_cons hc]
        obtain ⟨htake, hdrop⟩ :=
          span_withReturns (p := Char.isDigit) rfl rfl (Decimal.takeSign rest).2
        simp only [takeExponent?, takeSign_withReturns, htake, hdrop]
        split_ifs <;> simp [withReturns_cons hc]

theorem takeUnsigned?_withReturns (negative : Bool) (text : List Char) :
    takeUnsigned? negative (withReturns text) =
      (takeUnsigned? negative text).map fun parts => (parts.1, withReturns parts.2) := by
  obtain ⟨htake, hdrop⟩ := span_withReturns (p := Char.isDigit) rfl rfl text
  simp only [takeUnsigned?, htake, hdrop, takeFraction?_withReturns, Option.bind_eq_bind,
    Option.map_bind, Option.bind_map, Function.comp_def]
  refine congrArg _ (funext fun _ => congrArg _ (funext fun fraction => ?_))
  simp only [takeExponent?_withReturns, Option.bind_map, Function.comp_def, Option.pure_def,
    Option.map_some]

theorem takeNumber?_withReturns (text : List Char) :
    takeNumber? (withReturns text) =
      (takeNumber? text).map fun parts => (parts.1, withReturns parts.2) := by
  by_cases hminus : text.head? = some '-'
  · obtain ⟨unsigned, rfl⟩ := List.head?_eq_some_iff.mp hminus
    rw [withReturns_cons (by decide), takeNumber?_minus, takeNumber?_minus,
      takeUnsigned?_withReturns]
  · have hhead : (withReturns text).head? ≠ some '-' := by
      cases text with
      | nil => exact hminus
      | cons c rest =>
          by_cases hc : c = '\n'
          · subst hc
            simp
          · rwa [withReturns_cons hc]
    rw [takeNumber?_of_head hminus, takeNumber?_of_head hhead, takeUnsigned?_withReturns]

/-! ## Strings -/

/-- A unit needs four digits. -/
theorem takePieces?_unit_eq_none {text : List Char}
    (h : text.length < 4 ∨ ∃ c ∈ text.take 4, hexValue? c = none) :
    takePieces? ('\\' :: 'u' :: text) = none := by
  match text with
  | a :: b :: c :: d :: rest =>
      have hunit : hexUnit? a b c d = none := by
        obtain hshort | ⟨x, hx, hvalue⟩ := h
        · simp only [List.length_cons] at hshort
          omega
        · simp only [List.take_succ_cons, List.take_zero, List.mem_cons, List.not_mem_nil,
            or_false] at hx
          rcases hx with rfl | rfl | rfl | rfl <;> simp [hexUnit?, hvalue]
      simp [takePieces?, hunit]
  | [] | [_] | [_, _] | [_, _, _] => simp [takePieces?, simpleEscape?]

theorem return_mem_take {count : Nat} {text : List Char} (h : '\n' ∈ text.take count) :
    '\r' ∈ (withReturns text).take count := by
  induction text generalizing count with
  | nil => simp at h
  | cons c rest ih =>
      cases count with
      | zero => simp at h
      | succ count =>
          by_cases hc : c = '\n'
          · subst hc
            simp
          · rw [withReturns_cons hc, List.take_succ_cons]
            rw [List.take_succ_cons, List.mem_cons] at h
            exact List.mem_cons_of_mem _ (ih (h.resolve_left (Ne.symm hc)))

/-- A unit that a line end breaks is none. -/
theorem takePieces?_unit_withReturns {text : List Char} (h : '\n' ∈ text.take 4) :
    takePieces? ('\\' :: 'u' :: text) = none ∧
      takePieces? ('\\' :: 'u' :: withReturns text) = none :=
  ⟨takePieces?_unit_eq_none (.inr ⟨_, h, rfl⟩),
    takePieces?_unit_eq_none (.inr ⟨_, return_mem_take h, rfl⟩)⟩

theorem takePieces?_withReturns (text : List Char) :
    takePieces? (withReturns text) =
      (takePieces? text).map fun parts => (parts.1, withReturns parts.2) := by
  fun_induction takePieces? text with
  | case1 => rfl
  | case2 rest =>
      rw [withReturns_cons (by decide)]
      simp [takePieces?]
  | case3 a b c d rest ih =>
      rw [withReturns_cons (by decide), withReturns_cons (by decide)]
      by_cases hbroken : '\n' ∈ (a :: b :: c :: d :: rest).take 4
      · obtain ⟨hnone, hreturns⟩ := takePieces?_unit_withReturns hbroken
        rw [takePieces?] at hnone
        rw [hreturns, hnone, Option.map_none]
      · simp only [List.take_succ_cons, List.take_zero, List.mem_cons, List.not_mem_nil, or_false,
          not_or, eq_comm (a := '\n')] at hbroken
        obtain ⟨ha, hb, hc, hd⟩ := hbroken
        rw [withReturns_cons ha, withReturns_cons hb, withReturns_cons hc, withReturns_cons hd,
          takePieces?, ih]
        simp [Option.map_bind, Option.bind_map]
  | case4 c rest hunit ih =>
      rw [withReturns_cons (by decide)]
      by_cases hfeed : c = '\n'
      · subst hfeed
        simp [takePieces?, simpleEscape?]
      · rw [withReturns_cons hfeed]
        by_cases hu : c = 'u'
        · subst hu
          have hshort : rest.length < 4 := by
            rcases rest with _ | ⟨a, _ | ⟨b, _ | ⟨c, _ | ⟨d, more⟩⟩⟩⟩
            case cons.cons.cons.cons => exact absurd rfl (hunit a b c d more rfl)
            all_goals simp
          have hreturns : takePieces? ('\\' :: 'u' :: withReturns rest) = none := by
            by_cases hbroken : '\n' ∈ rest
            · exact (takePieces?_unit_withReturns (by rwa [List.take_of_length_le hshort.le])).2
            · rw [withReturns_eq_self hbroken]
              exact takePieces?_unit_eq_none (.inl hshort)
          simp [hreturns, simpleEscape?]
        · have hcase : takePieces? ('\\' :: c :: withReturns rest) =
              (simpleEscape? c).bind fun escaped => (takePieces? (withReturns rest)).map
                fun parts => (.char escaped :: parts.1, parts.2) := by
            rw [takePieces?]
            · simp [Option.map_eq_bind]
            · simp [hu]
          rw [hcase, ih]
          simp [Option.map_eq_bind, Option.bind_assoc]
  | case5 c rest hquote hunit hescape ih =>
      by_cases hfeed : c = '\n'
      · subst hfeed
        simp [takePieces?]
      · rw [withReturns_cons hfeed]
        by_cases hslash : c = '\\'
        · subst hslash
          cases rest with
          | nil => simp [takePieces?]
          | cons d rest => exact absurd rfl (hescape d rest rfl)
        · have hcase : takePieces? (c :: withReturns rest) =
              (guard (c ≠ '\\' ∧ 0x20 ≤ c.toNat) : Option Unit).bind fun _ =>
                (takePieces? (withReturns rest)).map fun parts => (.char c :: parts.1, parts.2) := by
            rw [takePieces?]
            · simp [Option.map_eq_bind]
            · exact hquote
            · exact fun _ _ _ _ _ h _ => hslash h
            · exact fun _ _ h _ => hslash h
          rw [hcase, ih]
          simp [Option.map_eq_bind, Option.bind_assoc]

/-! ## Tokens -/

/-- **Carriage returns before line feeds are no part of a token.** -/
theorem takeToken?_withReturns {first : Char} (hfirst : first ≠ '\n') (text : List Char) :
    takeToken? first (withReturns text) =
      (takeToken? first text).map fun parts => (parts.1, withReturns parts.2) := by
  conv_rhs => unfold takeToken?
  split
  case h_10 =>
    simp only [takeToken?, takePieces?_withReturns]
    simp [Option.map_bind, Option.bind_map]
  case h_11 =>
    have hnumber := takeNumber?_withReturns (first :: text)
    rw [withReturns_cons hfirst] at hnumber
    rw [← hnumber]
    unfold takeToken?
    split
    case h_7 =>
      obtain ⟨rest, htext⟩ := eq_append_of_withReturns (by decide : '\r' ∉ "ull".toList)
        ‹withReturns text = _›
      exact (‹∀ rest, 'n' = 'n' → text = 'u' :: 'l' :: 'l' :: rest → False› rest rfl htext).elim
    case h_8 =>
      obtain ⟨rest, htext⟩ := eq_append_of_withReturns (by decide : '\r' ∉ "rue".toList)
        ‹withReturns text = _›
      exact (‹∀ rest, 't' = 't' → text = 'r' :: 'u' :: 'e' :: rest → False› rest rfl htext).elim
    case h_9 =>
      obtain ⟨rest, htext⟩ := eq_append_of_withReturns (by decide : '\r' ∉ "alse".toList)
        ‹withReturns text = _›
      exact (‹∀ rest, 'f' = 'f' → text = 'a' :: 'l' :: 's' :: 'e' :: rest → False›
        rest rfl htext).elim
    case h_11 => rfl
    all_goals contradiction
  all_goals simp [withReturns_cons, takeToken?]

theorem InRow.length_le {text rest : List Char} (h : InRow text rest) :
    rest.length ≤ text.length := by
  obtain ⟨taken, rfl, -⟩ := h
  simp

/-- A number without its sign starts with a digit. -/
theorem length_takeUnsigned?_lt {negative : Bool} {text rest : List Char} {token : Token}
    (h : takeUnsigned? negative text = some (token, rest)) : rest.length < text.length := by
  simp only [takeUnsigned?, Option.bind_eq_bind, Option.bind_eq_some_iff,
    Option.guard_eq_some'] at h
  obtain ⟨_, ⟨hwhole, -⟩, ⟨fraction, afterFraction⟩, hfraction, ⟨exponent, afterExponent⟩,
    hexponent, htoken⟩ := h
  obtain ⟨-, rfl⟩ := Prod.mk.inj (Option.some.inj htoken)
  have hafter : afterExponent.length ≤ (text.dropWhile Char.isDigit).length :=
    ((inRow_takeFraction? hfraction).trans (inRow_takeExponent? hexponent)).length_le
  have hsplit := congrArg List.length
    (List.takeWhile_append_dropWhile (p := Char.isDigit) (l := text))
  have hdigits := List.length_pos_iff.mpr hwhole
  rw [List.length_append] at hsplit
  change afterExponent.length < text.length
  omega

/-- Every token takes a character. -/
theorem length_takeToken?_le {first : Char} {text rest : List Char} {token : Token}
    (h : takeToken? first text = some (token, rest)) : rest.length ≤ text.length := by
  unfold takeToken? at h
  split at h
  case h_11 =>
    by_cases hminus : first = '-'
    · subst hminus
      exact (length_takeUnsigned?_lt (takeNumber?_minus _ ▸ h)).le
    · rw [takeNumber?_of_head (by simpa using hminus)] at h
      exact Nat.lt_succ_iff.mp (length_takeUnsigned?_lt h)
  case h_10 =>
    simp only [Option.bind_eq_bind, Option.bind_eq_some_iff] at h
    obtain ⟨⟨pieces, after⟩, hpieces, h⟩ := h
    obtain ⟨-, rfl⟩ := Prod.mk.inj (Option.some.inj h)
    exact (inRow_takePieces? hpieces).length_le
  all_goals
    obtain ⟨-, rfl⟩ := Prod.mk.inj (Option.some.inj h)
    simp [add_assoc]

theorem tokensWithin?_withReturns (fuel : Nat) (text : List Char) :
    tokensWithin? fuel (withReturns text) = tokensWithin? fuel text := by
  have hblank := dropWhile_withReturns (p := isSpace) (by decide) (by decide)
  induction fuel generalizing text with
  | zero =>
      have hall : (withReturns text).all isSpace = text.all isSpace := by
        rw [Bool.eq_iff_iff, List.all_eq_true, List.all_eq_true, ← List.dropWhile_eq_nil_iff,
          ← List.dropWhile_eq_nil_iff, hblank]
        cases text.dropWhile isSpace with
        | nil => rfl
        | cons c rest => by_cases hc : c = '\n' <;> simp [withReturns, hc]
      rw [tokensWithin?, tokensWithin?, hall]
  | succ fuel ih =>
      rw [tokensWithin?, tokensWithin?, hblank]
      cases hrest : text.dropWhile isSpace with
      | nil => rfl
      | cons first rest =>
          have hspace := List.head?_dropWhile_not isSpace text
          have hfirst : first ≠ '\n' := by
            rintro rfl
            simp [hrest] at hspace
            cases hspace
          rw [withReturns_cons hfirst]
          simp only [takeToken?_withReturns hfirst]
          cases takeToken? first rest with
          | none => rfl
          | some parts => simp [ih]

/-- **More steps than a text has characters change nothing.** -/
theorem tokensWithin?_of_le {fuel more : Nat} {text : List Char} {tokens : List Token}
    (h : tokensWithin? fuel text = some tokens) (hmore : text.length ≤ more ∨ fuel ≤ more) :
    tokensWithin? more text = some tokens := by
  induction fuel generalizing more text tokens with
  | zero =>
      rw [tokensWithin?] at h
      split_ifs at h with hall
      cases more with
      | zero => rwa [tokensWithin?, if_pos hall]
      | succ more =>
          rw [tokensWithin?, List.dropWhile_eq_nil_iff.mpr (List.all_eq_true.mp hall)]
          exact h
  | succ fuel ih =>
      rw [tokensWithin?] at h
      have hdrop := List.length_dropWhile_le isSpace text
      cases more with
      | zero =>
          obtain rfl : text = [] := List.length_eq_zero_iff.mp (by omega)
          exact h
      | succ more =>
          rw [tokensWithin?]
          cases hrest : text.dropWhile isSpace with
          | nil =>
              rw [hrest] at h
              exact h
          | cons first rest =>
              rw [hrest] at h hdrop
              simp only [Option.bind_eq_bind, Option.bind_eq_some_iff] at h ⊢
              obtain ⟨⟨token, after⟩, htoken, others, hothers, htokens⟩ := h
              have hlength := length_takeToken?_le htoken
              rw [List.length_cons] at hdrop
              have hwithin : tokensWithin? more after = some others := ih hothers (by omega)
              exact ⟨(token, after), htoken, others, hwithin, htokens⟩

/-- **A text has the same tokens whichever way its lines end.** -/
theorem tokens?_withReturns (text : List Char) : tokens? (withReturns text) = tokens? text := by
  have hlength : text.length ≤ (withReturns text).length := by
    induction text with
    | nil => rfl
    | cons c rest ih => by_cases hc : c = '\n' <;> simp [withReturns, hc] at ih ⊢ <;> omega
  rw [tokens?, tokens?, tokensWithin?_withReturns]
  refine Option.ext fun tokens => ⟨fun h => ?_, fun h => ?_⟩
  · exact tokensWithin?_of_le h (.inl le_rfl)
  · exact tokensWithin?_of_le h (.inl hlength)

end Json

/-! ## JSON lists -/

namespace Schedule

open LoraSchedule.Json LoraSchedule.Text

theorem trimmed_withReturns {text : List Char} (h : Trimmed text) : Trimmed (withReturns text) := by
  have hfeed : ∀ {c : Char}, isBlank c = false → c ≠ '\n' := by
    rintro c hc rfl
    cases hc
  constructor
  · cases text with
    | nil => simp
    | cons c rest =>
        have hc := h.head c rfl
        rw [withReturns_cons (hfeed hc)]
        exact fun d hd => Option.mem_some_iff.mp hd ▸ hc
  · rcases List.eq_nil_or_concat text with rfl | ⟨rest, c, rfl⟩
    · simp
    · have hc := h.last c (by simp)
      rw [List.concat_eq_append, withReturns_append, withReturns_cons (hfeed hc),
        withReturns_nil, List.getLast?_concat]
      exact fun d hd => Option.mem_some_iff.mp hd ▸ hc

theorem trim_withReturns (text : List Char) :
    trim (withReturns text) = withReturns (trim text) := by
  have hblank : ∀ {blanks : List Char}, (∀ c ∈ blanks, isBlank c = true) →
      ∀ c ∈ withReturns blanks, isBlank c = true := by
    intro blanks hblanks c hc
    obtain ⟨d, hd, hmem⟩ := List.mem_flatMap.mp hc
    split_ifs at hmem with hfeed
    · rcases List.mem_pair.mp hmem with rfl | rfl <;> rfl
    · exact List.mem_singleton.mp hmem ▸ hblanks d hd
  obtain ⟨before, after, htext, hbefore, hafter⟩ := exists_append_trim text
  conv_lhs => rw [htext]
  rw [withReturns_append, withReturns_append, trim_blank_append (hblank hbefore),
    trim_append_of_blank _ (hblank hafter), trim_eq_self (trimmed_withReturns (trimmed_trim text))]

/-- **Whichever way its lines end, a text is the same JSON list.** -/
theorem jsonItems?_withReturns (text : List Char) :
    jsonItems? (withReturns text) = jsonItems? text := by
  have hhead : (withReturns (trim text)).head? = some '[' ↔ (trim text).head? = some '[' := by
    cases trim text with
    | nil => rfl
    | cons c rest => by_cases hc : c = '\n' <;> simp [withReturns, hc]
  have hread : Value.ofText? (withReturns (trim text)) = Value.ofText? (trim text) := by
    rw [Value.ofText?, Value.ofText?, Written.ofText?, Written.ofText?, tokens?_withReturns]
  simp only [jsonItems?, trim_withReturns, hhead, hread]

end Schedule

end LoraSchedule
