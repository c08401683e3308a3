import LoraSchedule.Proofs.Schedule.ValueText
import Mathlib.Data.Option.Basic

/-!
# Rows of schedule texts

A text of lines is read row by row, so texts under each other are read one after
the other (`Schedule.ofLines_append`).

A text that is a JSON list has no lines of entries in it.  In JSON a line feed
stands between tokens only, for a string has to escape it; so every row of such
a text, blanks before it apart, starts where a token starts, and no token starts
as a line of an entry does (`opensNoEntry_of_jsonItems?`).
-/

namespace LoraSchedule.Json

open LoraSchedule.Number LoraSchedule.Text

/-! ## Reading within a row -/

/-- What is left of a text after a part of it without line feeds. -/
def InRow (text rest : List Char) : Prop :=
  ∃ taken, text = taken ++ rest ∧ '\n' ∉ taken

namespace InRow

variable {text next rest : List Char} {c : Char}

theorem refl (text : List Char) : InRow text text := ⟨[], rfl, List.not_mem_nil⟩

theorem trans (hfirst : InRow text next) (hsecond : InRow next rest) : InRow text rest := by
  obtain ⟨before, rfl, hbefore⟩ := hfirst
  obtain ⟨after, rfl, hafter⟩ := hsecond
  refine ⟨before ++ after, by rw [List.append_assoc], ?_⟩
  rw [List.mem_append, not_or]
  exact ⟨hbefore, hafter⟩

theorem cons (hc : c ≠ '\n') (h : InRow text rest) : InRow (c :: text) rest := by
  obtain ⟨taken, rfl, htaken⟩ := h
  refine ⟨c :: taken, rfl, ?_⟩
  rw [List.mem_cons, not_or]
  exact ⟨hc.symm, htaken⟩

theorem dropWhile {p : Char → Bool} (hp : p '\n' = false) (text : List Char) :
    InRow text (text.dropWhile p) := by
  refine ⟨text.takeWhile p, List.takeWhile_append_dropWhile.symm, fun hmem => ?_⟩
  rw [List.mem_takeWhile_imp hmem] at hp
  cases hp

theorem append (h : InRow text rest) (after : List Char) : InRow (text ++ after) (rest ++ after) := by
  obtain ⟨taken, rfl, htaken⟩ := h
  exact ⟨taken, by rw [List.append_assoc], htaken⟩

/-- The rows after the current one are not touched. -/
theorem tail_splitOn (h : InRow text rest) :
    (text.splitOn '\n').tail = (rest.splitOn '\n').tail := by
  obtain ⟨taken, rfl, htaken⟩ := h
  induction taken with
  | nil => rfl
  | cons c taken ih =>
      rw [List.mem_cons, not_or] at htaken
      have hc : (c == '\n') = false := beq_false_of_ne (Ne.symm htaken.1)
      rw [List.cons_append, List.splitOn_cons_eq_if_modifyHead, hc, if_neg Bool.false_ne_true,
        ← ih htaken.2]
      cases (taken ++ rest).splitOn '\n' <;> rfl

end InRow

/-! ## Tokens -/

theorem inRow_takeSign (text : List Char) : InRow text (Decimal.takeSign text).2 := by
  unfold Decimal.takeSign
  split
  · exact (InRow.refl _).cons (by decide)
  · exact (InRow.refl _).cons (by decide)
  · exact InRow.refl _

theorem inRow_takeFraction? {text fraction rest : List Char}
    (h : takeFraction? text = some (fraction, rest)) : InRow text rest := by
  unfold takeFraction? at h
  split at h
  · rename_i digits
    simp only at h
    split_ifs at h
    obtain ⟨-, rfl⟩ := Prod.mk.inj (Option.some.inj h)
    exact (InRow.dropWhile (by decide) digits).cons (by decide)
  · obtain ⟨-, rfl⟩ := Prod.mk.inj (Option.some.inj h)
    exact InRow.refl _

theorem inRow_takeExponent? {text rest : List Char} {exponent : Option Int}
    (h : takeExponent? text = some (exponent, rest)) : InRow text rest := by
  unfold takeExponent? at h
  split at h
  · obtain ⟨-, rfl⟩ := Prod.mk.inj (Option.some.inj h)
    exact InRow.refl _
  · rename_i c digits
    simp only at h
    split at h
    · rename_i hc
      split at h
      · cases h
      · obtain ⟨-, rfl⟩ := Prod.mk.inj (Option.some.inj h)
        have hletter : c ≠ '\n' := by
          rintro rfl
          exact absurd hc (by decide)
        exact ((inRow_takeSign digits).trans (InRow.dropWhile (by decide) _)).cons hletter
    · obtain ⟨-, rfl⟩ := Prod.mk.inj (Option.some.inj h)
      exact InRow.refl _

/-- A number starts with a sign or a digit. -/
theorem inRow_takeNumber? {first : Char} {text rest : List Char} {token : Token}
    (h : takeNumber? (first :: text) = some (token, rest)) :
    isNumeralChar first = true ∧ InRow (first :: text) rest := by
  unfold takeNumber? at h
  simp only [Option.bind_eq_bind, Option.bind_eq_some_iff, Option.guard_eq_some'] at h
  obtain ⟨_, hguard, ⟨fraction, afterFraction⟩, hfraction, ⟨exponent, afterExponent⟩, hexponent,
    htoken⟩ := h
  obtain ⟨-, rfl⟩ := Prod.mk.inj (Option.some.inj htoken)
  have hparts := And.intro hguard
    ((inRow_takeFraction? hfraction).trans (inRow_takeExponent? hexponent))
  split at hparts
  · rename_i digits heq
    obtain ⟨rfl, rfl⟩ := List.cons.inj heq
    exact ⟨by decide, ((InRow.dropWhile (by decide) _).trans hparts.2).cons (by decide)⟩
  · refine ⟨?_, (InRow.dropWhile (by decide) _).trans hparts.2⟩
    cases hdigit : first.isDigit with
    | true => simp [isNumeralChar, hdigit]
    | false => exact absurd hparts.1.1 (by simp [hdigit])

theorem not_mem_hexUnit? {a b c d : Char} {unit : Nat} (h : hexUnit? a b c d = some unit) :
    '\n' ∉ [a, b, c, d] := by
  unfold hexUnit? at h
  simp only [Option.bind_eq_bind, Option.bind_eq_some_iff] at h
  obtain ⟨_, ha, _, hb, _, hc, _, hd, -⟩ := h
  have hvalue : ∀ x : Char, ∀ n, hexValue? x = some n → '\n' ≠ x := by
    rintro x n hx rfl
    cases hx
  simp only [List.mem_cons, List.not_mem_nil, or_false, not_or]
  exact ⟨hvalue a _ ha, hvalue b _ hb, hvalue c _ hc, hvalue d _ hd⟩

/-- A string is closed in the row in which it starts. -/
theorem inRow_takePieces? {text rest : List Char} {pieces : List Piece}
    (h : takePieces? text = some (pieces, rest)) : InRow text rest := by
  fun_induction takePieces? text generalizing pieces rest with
  | case1 => cases h
  | case2 text =>
      obtain ⟨-, rfl⟩ := Prod.mk.inj (Option.some.inj h)
      exact (InRow.refl _).cons (by decide)
  | case3 a b c d text ih =>
      simp only [Option.bind_eq_bind, Option.bind_eq_some_iff] at h
      obtain ⟨unit, hunit, ⟨others, after⟩, hothers, h⟩ := h
      obtain ⟨-, rfl⟩ := Prod.mk.inj (Option.some.inj h)
      obtain ⟨taken, rfl, htaken⟩ := ih hothers
      refine ⟨'\\' :: 'u' :: ([a, b, c, d] ++ taken), rfl, ?_⟩
      simp only [List.mem_cons, List.mem_append, not_or]
      simpa [htaken] using not_mem_hexUnit? hunit
  | case4 c text _ ih =>
      simp only [Option.bind_eq_bind, Option.bind_eq_some_iff] at h
      obtain ⟨escaped, hescaped, ⟨others, after⟩, hothers, h⟩ := h
      obtain ⟨-, rfl⟩ := Prod.mk.inj (Option.some.inj h)
      have hc : c ≠ '\n' := by
        rintro rfl
        cases hescaped
      exact ((ih hothers).cons hc).cons (by decide)
  | case5 c text _ _ _ ih =>
      simp only [Option.bind_eq_bind, Option.bind_eq_some_iff, Option.guard_eq_some'] at h
      obtain ⟨_, hc, ⟨others, after⟩, hothers, h⟩ := h
      obtain ⟨-, rfl⟩ := Prod.mk.inj (Option.some.inj h)
      refine (ih hothers).cons ?_
      rintro rfl
      exact absurd hc (by decide)

/-- **No token holds a line feed, and none starts with a blank or as a line of an
entry.** -/
theorem inRow_takeToken? {first : Char} {text rest : List Char} {token : Token}
    (h : takeToken? first text = some (token, rest)) :
    isBlank first = false ∧ first ≠ '<' ∧ InRow (first :: text) rest := by
  unfold takeToken? at h
  split at h
  case h_11 =>
    obtain ⟨hfirst, hrow⟩ := inRow_takeNumber? h
    refine ⟨isBlank_of_isNumeralChar hfirst, ?_, hrow⟩
    rintro rfl
    exact absurd hfirst (by decide)
  case h_10 =>
    simp only [Option.bind_eq_bind, Option.bind_eq_some_iff] at h
    obtain ⟨⟨pieces, after⟩, hpieces, h⟩ := h
    obtain ⟨-, rfl⟩ := Prod.mk.inj (Option.some.inj h)
    exact ⟨by decide, by decide, (inRow_takePieces? hpieces).cons (by decide)⟩
  all_goals
    obtain ⟨-, rfl⟩ := Prod.mk.inj (Option.some.inj h)
    refine ⟨by decide, by decide, ?_⟩
    repeat refine InRow.cons (by decide) ?_
    exact InRow.refl _

/-! ## Rows -/

theorem isBlank_of_isSpace {c : Char} (hc : isSpace c = true) : isBlank c = true := by
  simp only [isSpace, Bool.or_eq_true, decide_eq_true_eq] at hc
  rcases hc with ((rfl | rfl) | rfl) | rfl <;> rfl

/-- No row of a text, blanks before it apart, starts as a line of an entry. -/
def OpensNoEntry (text : List Char) : Prop :=
  ∀ row ∈ text.splitOn '\n', (row.dropWhile isBlank).head? ≠ some '<'

theorem opensNoEntry_of_blank {text : List Char} (h : ∀ c ∈ text, isBlank c = true) :
    OpensNoEntry text := by
  intro row hrow
  have hblank : row.dropWhile isBlank = [] :=
    List.dropWhile_eq_nil_iff.mpr fun c hc => h c ((mem_splitOn hrow).2 c hc)
  rw [hblank]
  decide

theorem opensNoEntry_cons_blank {c : Char} {text : List Char} (hc : isBlank c = true)
    (h : OpensNoEntry text) : OpensNoEntry (c :: text) := by
  intro row hrow
  rw [List.splitOn_cons_eq_if_modifyHead] at hrow
  split at hrow
  · rcases List.mem_cons.mp hrow with rfl | hrest
    · decide
    · exact h row hrest
  · cases hrows : text.splitOn '\n' with
    | nil => exact absurd hrows (List.splitOn_ne_nil _ _)
    | cons first others =>
        rw [hrows, List.modifyHead_cons] at hrow
        rcases List.mem_cons.mp hrow with rfl | hrest
        · rw [List.dropWhile_cons_of_pos hc]
          exact h first (hrows ▸ List.mem_cons_self ..)
        · exact h row (hrows ▸ List.mem_cons_of_mem _ hrest)

theorem opensNoEntry_append_blank {before text : List Char} (hbefore : ∀ c ∈ before, isBlank c = true)
    (h : OpensNoEntry text) : OpensNoEntry (before ++ text) := by
  induction before with
  | nil => exact h
  | cons c before ih =>
      obtain ⟨hc, hrest⟩ := List.forall_mem_cons.mp hbefore
      exact opensNoEntry_cons_blank hc (ih hrest)

/-- A row that starts with another character, and is left within it. -/
theorem opensNoEntry_of_inRow {c : Char} {text rest : List Char} (hblank : isBlank c = false)
    (hc : c ≠ '<') (hrow : InRow (c :: text) rest) (h : OpensNoEntry rest) :
    OpensNoEntry (c :: text) := by
  have hlineFeed : (c == '\n') = false := by
    refine beq_false_of_ne ?_
    rintro rfl
    cases hblank
  intro row hmem
  cases hrows : text.splitOn '\n' with
  | nil => exact absurd hrows (List.splitOn_ne_nil _ _)
  | cons first others =>
      have hsplit : (c :: text).splitOn '\n' = (c :: first) :: others := by
        rw [List.splitOn_cons_eq_if_modifyHead, hlineFeed, if_neg Bool.false_ne_true, hrows,
          List.modifyHead_cons]
      rw [hsplit] at hmem
      rcases List.mem_cons.mp hmem with rfl | hothers
      · rw [List.dropWhile_cons_of_neg (by rw [hblank]; exact Bool.false_ne_true)]
        exact fun heq => hc (Option.some.inj heq)
      · refine h row (List.mem_of_mem_tail ?_)
        rwa [← hrow.tail_splitOn, hsplit]

/-- **The rows of a text of tokens start with tokens**, also where blanks follow. -/
theorem opensNoEntry_of_tokensWithin? {fuel : Nat} {text after : List Char} {tokens : List Token}
    (h : tokensWithin? fuel text = some tokens) (hafter : ∀ c ∈ after, isBlank c = true) :
    OpensNoEntry (text ++ after) := by
  induction fuel generalizing text tokens with
  | zero =>
      unfold tokensWithin? at h
      split at h
      · rename_i hall
        refine opensNoEntry_append_blank (fun c hc => isBlank_of_isSpace ?_)
          (opensNoEntry_of_blank hafter)
        exact List.all_eq_true.mp hall c hc
      · cases h
  | succ fuel ih =>
      rw [← List.takeWhile_append_dropWhile (p := isSpace) (l := text), List.append_assoc]
      refine opensNoEntry_append_blank (fun c hc => ?_) ?_
      · exact isBlank_of_isSpace (List.mem_takeWhile_imp hc)
      unfold tokensWithin? at h
      split at h
      · rename_i hnil
        rw [hnil]
        exact opensNoEntry_of_blank hafter
      · rename_i c text heq
        simp only [Option.bind_eq_bind, Option.bind_eq_some_iff] at h
        obtain ⟨⟨token, rest⟩, htoken, others, hothers, -⟩ := h
        obtain ⟨hblank, hc, hrow⟩ := inRow_takeToken? htoken
        rw [heq]
        exact opensNoEntry_of_inRow hblank hc (hrow.append after) (ih hothers)

end LoraSchedule.Json

namespace LoraSchedule

open LoraSchedule.Json LoraSchedule.Text

/-! ## Lines of entries -/

theorem Line.head?_of_read? {row : List Char} {e : Entry} (h : Line.read? row = some e) :
    (row.dropWhile isBlank).head? = some '<' := by
  obtain ⟨fields, hfields, -⟩ := Option.map_eq_some_iff.mp h
  obtain ⟨body, hopening, -⟩ := Option.bind_eq_some_iff.mp hfields
  obtain ⟨after, hafter⟩ : trim row <+: row.dropWhile isBlank := List.rdropWhile_prefix _ _
  rw [← hafter, afterPrefix?_eq_some_iff.mp hopening]
  rfl

theorem Line.read?_dropCarriageReturn (row : List Char) :
    Line.read? (dropCarriageReturn row) = Line.read? row := by
  cases hsuffix : beforeSuffix? ['\r'] row with
  | none => rw [dropCarriageReturn, hsuffix, Option.getD_none]
  | some rest =>
      have htrim : trim (rest ++ ['\r']) = trim rest :=
        trim_append_of_blank rest (List.forall_mem_singleton.mpr (by decide))
      rw [dropCarriageReturn, hsuffix, Option.getD_some, beforeSuffix?_eq_some_iff.mp hsuffix]
      simp only [Line.read?, Line.fields?, htrim]

namespace Schedule

/-- A text is read row by row. -/
theorem ofLines_eq (text : List Char) :
    ofLines text = (text.splitOn '\n').filterMap Line.read? :=
  filterMap_lines rfl Line.read?_dropCarriageReturn text

/-- **Texts under each other are read one after the other.** -/
theorem ofLines_append (first second : List Char) :
    ofLines (first ++ '\n' :: second) = ofLines first ++ ofLines second := by
  rw [ofLines_eq, ofLines_eq, ofLines_eq, List.splitOn_append_cons_self, List.filterMap_append]

/-- **No row of a JSON list is a line of an entry.** -/
theorem opensNoEntry_of_jsonItems? {text : List Char} {items : List Value}
    (h : jsonItems? text = some items) : OpensNoEntry text := by
  unfold jsonItems? at h
  simp only at h
  split at h
  · obtain ⟨document, hdocument, -⟩ := Option.bind_eq_some_iff.mp h
    obtain ⟨written, hwritten, -⟩ := Option.bind_eq_some_iff.mp hdocument
    obtain ⟨tokens, htokens, -⟩ := Option.bind_eq_some_iff.mp hwritten
    obtain ⟨before, after, htext, hbefore, hafter⟩ := exists_append_trim text
    rw [htext]
    exact opensNoEntry_append_blank hbefore (opensNoEntry_of_tokensWithin? htokens hafter)
  · cases h

theorem ofLines_eq_nil {text : List Char} (h : OpensNoEntry text) : ofLines text = [] := by
  rw [ofLines_eq, List.filterMap_eq_nil_iff]
  intro row hrow
  rw [Option.eq_none_iff_forall_not_mem]
  exact fun e he => h row hrow (Line.head?_of_read? he)

/-- A text with a line of an entry under it is no JSON list. -/
theorem jsonItems?_append_row (text : List Char) {rows : List Char} (hrows : rows.head? = some '<') :
    jsonItems? (text ++ '\n' :: rows) = none := by
  rw [Option.eq_none_iff_forall_not_mem]
  intro items hitems
  obtain ⟨rest, rfl⟩ := List.head?_eq_some_iff.mp hrows
  have hopens := opensNoEntry_of_jsonItems? hitems
  rw [OpensNoEntry, List.splitOn_append_cons_self] at hopens
  cases hsplit : rest.splitOn '\n' with
  | nil => exact List.splitOn_ne_nil _ _ hsplit
  | cons first others =>
      refine hopens ('<' :: first) ?_ rfl
      rw [List.splitOn_cons_eq_if_modifyHead, hsplit]
      exact List.mem_append_right _ (List.mem_cons_self ..)

/-- **A text under another one.**  Lines under a text of lines are read after it;
lines under a JSON list make it a text of lines, in which nothing of the list is
read. -/
theorem parse_append_row (text : String) {rows : List Char} (hrows : rows.head? = some '<') :
    parse (String.ofList (text.toList ++ '\n' :: rows)) =
      (if (jsonItems? text.toList).isSome then [] else parse text) ++ ofLines rows := by
  have hnone := jsonItems?_append_row text.toList hrows
  simp only [parse, String.toList_ofList, hnone, ofLines_append]
  cases hitems : jsonItems? text.toList with
  | none => rfl
  | some items => rw [ofLines_eq_nil (opensNoEntry_of_jsonItems? hitems)]; rfl

end Schedule

end LoraSchedule
