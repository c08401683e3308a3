import LoraSchedule.Text.Basic
import Mathlib.Data.List.DropRight

/-!
# Texts and their parts

Each operation that takes a text apart undoes one that puts texts together, or
is determined by what it leaves.  Nothing after this file opens the definitions
of `trim`, `afterPrefix?`, `beforeSuffix?`, `splitOnce?`, `joinWith` and
`lines`.
-/

namespace LoraSchedule.Text

/-! ## Trimming -/

/-- A run of characters at the end is dropped, as far as it goes. -/
theorem dropEndWhile_append {p : Char → Bool} {text ending : List Char}
    (hending : ∀ c ∈ ending, p c = true) (hlast : ∀ c ∈ text.getLast?, p c = false) :
    dropEndWhile p (text ++ ending) = text := by
  rw [dropEndWhile, List.reverse_append,
    List.dropWhile_append_of_pos fun c hc => hending c (List.mem_reverse.mp hc)]
  cases hrev : text.reverse with
  | nil => simpa using hrev.symm
  | cons c rest =>
      have hp : p c = false := hlast c (by rw [List.getLast?_eq_head?_reverse, hrev]; rfl)
      rw [List.dropWhile_cons_of_neg (by simp [hp]), ← hrev, List.reverse_reverse]

theorem dropEndWhile_eq_self {p : Char → Bool} {text : List Char}
    (hlast : ∀ c ∈ text.getLast?, p c = false) : dropEndWhile p text = text := by
  have hnothing : ∀ c ∈ ([] : List Char), p c = true := by simp
  simpa using dropEndWhile_append hnothing hlast

/-- A text without blanks at its ends. -/
structure Trimmed (text : List Char) : Prop where
  head : ∀ c ∈ text.head?, isBlank c = false
  last : ∀ c ∈ text.getLast?, isBlank c = false

/-- A text with a character in it that is no blank, between two parts without
blanks at their ends. -/
theorem Trimmed.append_cons {before after : List Char} (hbefore : Trimmed before) {c : Char}
    (hc : isBlank c = false) (hafter : Trimmed after) : Trimmed (before ++ c :: after) := by
  constructor
  · intro d hd
    cases before with
    | nil => exact Option.mem_some_iff.mp hd ▸ hc
    | cons first rest => exact hbefore.head d hd
  · intro d hd
    rw [List.getLast?_append_of_ne_nil _ (List.cons_ne_nil _ _)] at hd
    cases after with
    | nil => exact Option.mem_some_iff.mp hd ▸ hc
    | cons first rest =>
        rw [List.getLast?_cons_of_ne_nil (List.cons_ne_nil _ _)] at hd
        exact hafter.last d hd

theorem trimmed_nil : Trimmed [] := ⟨by simp, by simp⟩

theorem trimmed_of_forall {text : List Char} (h : ∀ c ∈ text, isBlank c = false) : Trimmed text :=
  ⟨fun c hc => h c (List.mem_of_mem_head? hc), fun c hc => h c (List.mem_of_mem_getLast? hc)⟩

theorem trimmed_of_all {text : List Char} (h : (text.all fun c => !isBlank c) = true) :
    Trimmed text :=
  trimmed_of_forall fun c hc => by simpa using List.all_eq_true.mp h c hc

theorem trim_eq_self {text : List Char} (h : Trimmed text) : trim text = text := by
  have hdrop : text.dropWhile isBlank = text := by
    cases text with
    | nil => rfl
    | cons c rest => simp [h.head c rfl]
  rw [trim, hdrop, dropEndWhile_eq_self h.last]

theorem head?_trim {text : List Char} (hhead : ∀ c ∈ text.head?, isBlank c = false) {c : Char}
    (hc : c ∈ (trim text).head?) : c ∈ text.head? := by
  have hdrop : text.dropWhile isBlank = text := by
    cases text with
    | nil => rfl
    | cons d rest => simp [hhead d rfl]
  obtain ⟨ending, hending⟩ : trim text <+: text := by
    rw [trim, hdrop]
    exact List.rdropWhile_prefix _ _
  rw [← hending, Option.mem_def, List.head?_append, Option.mem_def.mp hc, Option.some_or]

theorem mem_of_mem_trim {c : Char} {text : List Char} (h : c ∈ trim text) : c ∈ text :=
  (List.dropWhile_sublist isBlank).subset ((List.rdropWhile_prefix _ _).subset h)

theorem trimmed_trim (text : List Char) : Trimmed (trim text) := by
  constructor
  · intro c hc
    have hprefix : trim text <+: text.dropWhile isBlank :=
      List.rdropWhile_prefix _ _
    have hhead : c ∈ (text.dropWhile isBlank).head? := by
      obtain ⟨rest, hrest⟩ := hprefix
      cases htrim : trim text with
      | nil => simp [htrim] at hc
      | cons d tail =>
          rw [htrim] at hc hrest
          rw [← hrest]
          simpa using hc
    have hnot := List.head?_dropWhile_not isBlank text
    rw [Option.mem_def.mp hhead] at hnot
    simpa using hnot
  · intro c hc
    have hne : trim text ≠ [] := by
      intro hnil
      simp [hnil] at hc
    have hlast : ¬ isBlank ((trim text).getLast hne) = true :=
      List.rdropWhile_last_not isBlank (text.dropWhile isBlank) hne
    rw [List.getLast?_eq_getLast_of_ne_nil hne, Option.mem_some_iff] at hc
    rw [← hc]
    simpa using hlast

/-- Only blanks are trimmed away. -/
theorem trim_ne_nil {text : List Char} {c : Char} (hc : c ∈ text) (hblank : isBlank c = false) :
    trim text ≠ [] := by
  intro hnil
  rw [trim, dropEndWhile, List.reverse_eq_nil_iff, List.dropWhile_eq_nil_iff] at hnil
  have hdrop : text.dropWhile isBlank = [] := by
    by_contra hne
    obtain ⟨d, hd⟩ := Option.isSome_iff_exists.mp (List.isSome_head?.mpr hne)
    have hnot : isBlank d = false := by simpa [hd] using List.head?_dropWhile_not isBlank text
    have hall := hnil d (by simpa using List.mem_of_mem_head? hd)
    rw [hnot] at hall
    cases hall
  rw [List.dropWhile_eq_nil_iff] at hdrop
  rw [hdrop c hc] at hblank
  cases hblank

/-- A text is its trimmed form between blanks. -/
theorem exists_append_trim (text : List Char) :
    ∃ before after, text = before ++ (trim text ++ after) ∧ (∀ c ∈ before, isBlank c = true) ∧
      ∀ c ∈ after, isBlank c = true := by
  refine ⟨text.takeWhile isBlank, ((text.dropWhile isBlank).reverse.takeWhile isBlank).reverse,
    ?_, fun c => List.mem_takeWhile_imp, fun c hc => List.mem_takeWhile_imp (List.mem_reverse.mp hc)⟩
  rw [trim, dropEndWhile, ← List.reverse_append, List.takeWhile_append_dropWhile,
    List.reverse_reverse, List.takeWhile_append_dropWhile]

theorem trim_append_of_blank (text : List Char) {after : List Char}
    (hafter : ∀ c ∈ after, isBlank c = true) : trim (text ++ after) = trim text := by
  have hdrop : after.dropWhile isBlank = [] := List.dropWhile_eq_nil_iff.mpr hafter
  rw [trim, trim, List.dropWhile_append]
  split
  · rename_i hnil
    rw [hdrop, List.isEmpty_iff.mp hnil]
  · rw [dropEndWhile, List.reverse_append,
      List.dropWhile_append_of_pos fun c hc => hafter c (List.mem_reverse.mp hc), dropEndWhile]

theorem trim_blank_append {before : List Char} (hbefore : ∀ c ∈ before, isBlank c = true)
    (text : List Char) : trim (before ++ text) = trim text := by
  rw [trim, List.dropWhile_append_of_pos hbefore, trim]

/-! ## Beginnings and ends -/

theorem afterPrefix?_eq_some_iff {beginning text rest : List Char} :
    afterPrefix? beginning text = some rest ↔ text = beginning ++ rest := by
  induction beginning generalizing text with
  | nil => simp [afterPrefix?]
  | cons c beginning ih =>
      cases text with
      | nil => simp [afterPrefix?]
      | cons d text =>
          by_cases hcd : c = d
          · simp [afterPrefix?, hcd, ih]
          · simp [afterPrefix?, hcd, eq_comm (a := d)]

@[simp] theorem afterPrefix?_append (beginning rest : List Char) :
    afterPrefix? beginning (beginning ++ rest) = some rest :=
  afterPrefix?_eq_some_iff.mpr rfl

/-- A text does not start with a word that has other characters. -/
theorem afterPrefix?_eq_none {c : Char} {beginning text : List Char} (hc : c ∈ beginning)
    (htext : c ∉ text) : afterPrefix? beginning text = none := by
  rw [Option.eq_none_iff_forall_not_mem]
  intro rest hrest
  rw [Option.mem_def, afterPrefix?_eq_some_iff] at hrest
  exact htext (hrest ▸ List.mem_append_left _ hc)

theorem beforeSuffix?_eq_some_iff {ending text rest : List Char} :
    beforeSuffix? ending text = some rest ↔ text = rest ++ ending := by
  rw [beforeSuffix?, Option.map_eq_some_iff]
  constructor
  · rintro ⟨reversed, hreversed, rfl⟩
    rw [afterPrefix?_eq_some_iff] at hreversed
    simpa using congrArg List.reverse hreversed
  · rintro rfl
    exact ⟨rest.reverse, by simp, by simp⟩

@[simp] theorem beforeSuffix?_append (rest ending : List Char) :
    beforeSuffix? ending (rest ++ ending) = some rest :=
  beforeSuffix?_eq_some_iff.mpr rfl

/-! ## Splitting -/

section Splitting

variable {α : Type} [DecidableEq α]

theorem splitOnce?_eq_some_iff {separator : α} {text before after : List α} :
    splitOnce? separator text = some (before, after) ↔
      text = before ++ separator :: after ∧ separator ∉ before := by
  induction text generalizing before with
  | nil => simp [splitOnce?]
  | cons c rest ih =>
      by_cases hc : c = separator
      · subst hc
        cases before with
        | nil => simp [splitOnce?, eq_comm]
        | cons d before =>
            simp only [splitOnce?, if_true, Option.some.injEq, Prod.mk.injEq, reduceCtorEq,
              false_and, List.cons_append, List.cons.injEq, List.mem_cons, false_iff]
            rintro ⟨⟨rfl, -⟩, hmem⟩
            exact hmem (Or.inl rfl)
      · simp only [splitOnce?, hc, if_false, Option.map_eq_some_iff, Prod.exists, Prod.mk.injEq]
        constructor
        · rintro ⟨inner, last, hsplit, rfl, rfl⟩
          obtain ⟨rfl, hmem⟩ := ih.mp hsplit
          exact ⟨rfl, by simp [hmem, Ne.symm hc]⟩
        · rintro ⟨heq, hmem⟩
          cases before with
          | nil => exact absurd (List.cons.inj heq).1 hc
          | cons d before =>
              obtain ⟨rfl, rfl⟩ := List.cons.inj heq
              exact ⟨before, after, ih.mpr ⟨rfl, fun h => hmem (List.mem_cons_of_mem _ h)⟩,
                rfl, rfl⟩

theorem splitOnce?_eq_none_iff {separator : α} {text : List α} :
    splitOnce? separator text = none ↔ separator ∉ text := by
  induction text with
  | nil => simp [splitOnce?]
  | cons c rest ih =>
      by_cases hc : c = separator
      · simp [splitOnce?, hc]
      · simp [splitOnce?, hc, ih, Ne.symm hc]

/-- What is put around a text goes to the outer ends of its parts. -/
theorem splitOnce?_append {separator : α} {before after : List α}
    (hbefore : separator ∉ before) (hafter : separator ∉ after) (text : List α) :
    splitOnce? separator (before ++ (text ++ after)) =
      (splitOnce? separator text).map fun parts => (before ++ parts.1, parts.2 ++ after) := by
  cases hsplit : splitOnce? separator text with
  | none =>
      rw [splitOnce?_eq_none_iff] at hsplit
      rw [Option.map_none, splitOnce?_eq_none_iff, List.mem_append, List.mem_append, not_or, not_or]
      exact ⟨hbefore, hsplit, hafter⟩
  | some parts =>
      obtain ⟨rfl, hleft⟩ := splitOnce?_eq_some_iff.mp hsplit
      rw [Option.map_some, splitOnce?_eq_some_iff, List.mem_append, not_or]
      exact ⟨by simp, hbefore, hleft⟩

theorem splitLast?_eq_some_iff {separator : α} {text before after : List α} :
    splitLast? separator text = some (before, after) ↔
      text = before ++ separator :: after ∧ separator ∉ after := by
  rw [splitLast?, Option.map_eq_some_iff]
  constructor
  · rintro ⟨⟨first, second⟩, hparts, heq⟩
    obtain ⟨rfl, rfl⟩ := Prod.mk.inj heq
    obtain ⟨htext, hmem⟩ := splitOnce?_eq_some_iff.mp hparts
    exact ⟨by simpa using congrArg List.reverse htext, by simpa using hmem⟩
  · rintro ⟨rfl, hmem⟩
    refine ⟨(after.reverse, before.reverse), ?_, by simp⟩
    exact splitOnce?_eq_some_iff.mpr ⟨by simp, by simpa using hmem⟩

theorem splitLast?_eq_none_iff {separator : α} {text : List α} :
    splitLast? separator text = none ↔ separator ∉ text := by
  rw [splitLast?, Option.map_eq_none_iff, splitOnce?_eq_none_iff, List.mem_reverse]

/-! ## Stems -/

variable {point : α} {name : List α}

/-- Nothing is in the stem of a name that is not in the name. -/
theorem mem_of_mem_splitName {c : α} (h : c ∈ (splitName point name).1) : c ∈ name := by
  unfold splitName at h
  split at h
  · rename_i stem ending hsplit
    split_ifs at h
    · exact h
    · rw [(splitLast?_eq_some_iff.mp hsplit).1]
      exact List.mem_append_left _ h
  · exact h

/-- A name without a point after its first character is its own stem. -/
theorem splitName_eq_self (h : point ∉ name.tail) : splitName point name = (name, none) := by
  cases hsplit : splitLast? point name with
  | none => simp only [splitName, hsplit]
  | some parts =>
      obtain ⟨before, after⟩ := parts
      obtain ⟨rfl, -⟩ := splitLast?_eq_some_iff.mp hsplit
      cases before with
      | nil => simp only [splitName, hsplit, if_true]
      | cons c before => exact absurd (by simp) h

theorem splitName_of_not_mem (h : point ∉ name) : splitName point name = (name, none) :=
  splitName_eq_self fun hmem => h (List.mem_of_mem_tail hmem)

theorem splitName_append {before after : List α} (hbefore : before ≠ []) (hafter : point ∉ after) :
    splitName point (before ++ point :: after) = (before, some after) := by
  have hsplit : splitLast? point (before ++ point :: after) = some (before, after) :=
    splitLast?_eq_some_iff.mpr ⟨rfl, hafter⟩
  simp only [splitName, hsplit, if_neg hbefore]

/-- Every other name is cut at its last point. -/
theorem exists_of_mem_tail (h : point ∈ name.tail) :
    ∃ before after, before ≠ [] ∧ point ∉ after ∧ name = before ++ point :: after := by
  cases hsplit : splitLast? point name with
  | none => exact absurd (List.mem_of_mem_tail h) (splitLast?_eq_none_iff.mp hsplit)
  | some parts =>
      obtain ⟨before, after⟩ := parts
      obtain ⟨rfl, hafter⟩ := splitLast?_eq_some_iff.mp hsplit
      refine ⟨before, after, ?_, hafter, rfl⟩
      rintro rfl
      exact hafter h

/-- A stem with an ending behind a point is the stem of that name only if the point
is the last one, and not the first character. -/
theorem of_fst_splitName_append {stem ending : List α}
    (h : (splitName point (stem ++ point :: ending)).1 = stem) : stem ≠ [] ∧ point ∉ ending := by
  by_cases hpoint : point ∈ (stem ++ point :: ending).tail
  · obtain ⟨before, after, hbefore, hafter, hname⟩ := exists_of_mem_tail hpoint
    rw [hname, splitName_append hbefore hafter] at h
    obtain rfl : before = stem := h
    obtain rfl : ending = after := (List.cons.inj (List.append_cancel_left hname)).2
    exact ⟨hbefore, hafter⟩
  · -- the name would be longer than itself
    rw [splitName_eq_self hpoint] at h
    have hlength := congrArg List.length h
    simp at hlength

end Splitting

/-- The parts of a split text do not hold the separator, and nothing that the
text does not. -/
theorem mem_splitOn {α : Type} [BEq α] [LawfulBEq α] {separator : α} {text part : List α}
    (h : part ∈ text.splitOn separator) : separator ∉ part ∧ ∀ c ∈ part, c ∈ text := by
  induction text generalizing part with
  | nil =>
      obtain rfl : part = [] := by simpa using h
      simp
  | cons c rest ih =>
      rw [List.splitOn_cons_eq_if_modifyHead] at h
      split at h
      · rcases List.mem_cons.mp h with rfl | htail
        · simp
        · exact ⟨(ih htail).1, fun d hd => List.mem_cons_of_mem c ((ih htail).2 d hd)⟩
      · rename_i hc
        cases hparts : rest.splitOn separator with
        | nil => exact absurd hparts (List.splitOn_ne_nil separator rest)
        | cons first others =>
            rw [hparts, List.modifyHead_cons, List.mem_cons] at h
            rw [hparts] at ih
            rcases h with rfl | htail
            · obtain ⟨hseparator, hmem⟩ := ih (List.mem_cons_self ..)
              constructor
              · rw [List.mem_cons, not_or]
                exact ⟨fun heq => hc (by simp [heq]), hseparator⟩
              · intro d hd
                rcases List.mem_cons.mp hd with rfl | hd
                · exact List.mem_cons_self ..
                · exact List.mem_cons_of_mem c (hmem d hd)
            · obtain ⟨hseparator, hmem⟩ := ih (List.mem_cons_of_mem _ htail)
              exact ⟨hseparator, fun d hd => List.mem_cons_of_mem c (hmem d hd)⟩

/-! ## Joining -/

section Joining

variable {α : Type}

@[simp] theorem joinWith_nil (separator : List α) : joinWith separator [] = [] := rfl

@[simp] theorem joinWith_singleton (separator text : List α) :
    joinWith separator [text] = text :=
  rfl

theorem joinWith_cons_cons (separator text next : List α) (others : List (List α)) :
    joinWith separator (text :: next :: others) =
      text ++ separator ++ joinWith separator (next :: others) :=
  rfl

theorem joinWith_ne_nil {separator : List α} {texts : List (List α)} (hne : texts ≠ [])
    (h : ∀ text ∈ texts, text ≠ []) : joinWith separator texts ≠ [] := by
  obtain ⟨text, rest, rfl⟩ := List.exists_cons_of_ne_nil hne
  have htext := h text (List.mem_cons_self ..)
  cases rest with
  | nil => simpa using htext
  | cons next others => simp [joinWith_cons_cons, htext]

theorem joinWith_eq_intercalate (separator : List α) (texts : List (List α)) :
    joinWith separator texts = separator.intercalate texts := by
  induction texts with
  | nil => rfl
  | cons text rest ih =>
      cases rest with
      | nil => simp
      | cons next others => simp [joinWith_cons_cons, ih]

theorem splitOn_joinWith [BEq α] [LawfulBEq α] {separator : α} {texts : List (List α)}
    (hne : texts ≠ []) (h : ∀ text ∈ texts, separator ∉ text) :
    (joinWith [separator] texts).splitOn separator = texts := by
  rw [joinWith_eq_intercalate]
  exact List.splitOn_intercalate separator h hne

theorem mem_joinWith {separator c : α} {texts : List (List α)}
    (h : c ∈ joinWith [separator] texts) : c = separator ∨ ∃ text ∈ texts, c ∈ text := by
  induction texts with
  | nil => simp at h
  | cons text rest ih =>
      cases rest with
      | nil => exact Or.inr ⟨text, by simp, by simpa using h⟩
      | cons next others =>
          rw [joinWith_cons_cons, List.mem_append, List.mem_append, List.mem_singleton] at h
          rcases h with (hfirst | hseparator) | hrest
          · exact Or.inr ⟨text, List.mem_cons_self .., hfirst⟩
          · exact Or.inl hseparator
          · exact (ih hrest).imp_right fun ⟨other, hother, hc⟩ =>
              ⟨other, List.mem_cons_of_mem _ hother, hc⟩

theorem not_mem_joinWith {separator c : α} {texts : List (List α)} (hc : c ≠ separator)
    (h : ∀ text ∈ texts, c ∉ text) : c ∉ joinWith [separator] texts := by
  intro hmem
  rcases mem_joinWith hmem with heq | ⟨text, htext, hin⟩
  · exact hc heq
  · exact h text htext hin

end Joining

/-- Joined texts without blanks at their ends have none at their ends. -/
theorem trimmed_joinWith {separator : Char} (hseparator : isBlank separator = false)
    {texts : List (List Char)} (h : ∀ text ∈ texts, Trimmed text) :
    Trimmed (joinWith [separator] texts) := by
  induction texts with
  | nil => exact trimmed_nil
  | cons text rest ih =>
      cases rest with
      | nil => exact h text (List.mem_cons_self ..)
      | cons next others =>
          rw [joinWith_cons_cons, List.append_assoc, List.singleton_append]
          refine (h text (List.mem_cons_self ..)).append_cons hseparator ?_
          exact ih fun other hother => h other (List.mem_cons_of_mem _ hother)

/-! ## Lines -/

/-- A text that is a line of any text it stands in: it is not empty, holds no
line feed, and does not end in a carriage return. -/
structure IsLine (text : List Char) : Prop where
  ne_nil : text ≠ []
  lineFeed : '\n' ∉ text
  last : text.getLast? ≠ some '\r'

theorem dropCarriageReturn_eq_self {line : List Char} (h : IsLine line) :
    dropCarriageReturn line = line := by
  cases hsuffix : beforeSuffix? ['\r'] line with
  | none => simp [dropCarriageReturn, hsuffix]
  | some rest =>
      rw [beforeSuffix?_eq_some_iff] at hsuffix
      exact absurd (by simp [hsuffix]) h.last

/-- **Lines put in a row are the lines of the resulting text.** -/
theorem lines_joinWith {rows : List (List Char)} (h : ∀ row ∈ rows, IsLine row) :
    lines (joinWith ['\n'] rows) = rows := by
  rcases rows.eq_nil_or_concat' with rfl | ⟨before, last, rfl⟩
  · rfl
  · have hsplit : (joinWith ['\n'] (before ++ [last])).splitOn '\n' = before ++ [last] :=
      splitOn_joinWith (by simp) fun row hrow => (h row hrow).lineFeed
    have hbefore : before.map dropCarriageReturn = before := by
      conv_rhs => rw [← List.map_id before]
      exact List.map_congr_left fun row hrow =>
        dropCarriageReturn_eq_self (h row (List.mem_append_left _ hrow))
    simp [lines, hsplit, hbefore, (h last (by simp)).ne_nil]

theorem mem_dropCarriageReturn {c : Char} {line : List Char} (h : c ∈ dropCarriageReturn line) :
    c ∈ line := by
  cases hsuffix : beforeSuffix? ['\r'] line with
  | none => simpa [dropCarriageReturn, hsuffix] using h
  | some rest =>
      rw [beforeSuffix?_eq_some_iff.mp hsuffix]
      exact List.mem_append_left _ (by simpa [dropCarriageReturn, hsuffix] using h)

/-- A reader that passes over empty rows, and over carriage returns at their end,
reads the rows between line feeds. -/
theorem filterMap_lines {α : Type} {read? : List Char → Option α} (hnil : read? [] = none)
    (hreturn : ∀ row, read? (dropCarriageReturn row) = read? row) (text : List Char) :
    (lines text).filterMap read? = (text.splitOn '\n').filterMap read? := by
  obtain ⟨before, last, hparts⟩ :=
    (List.eq_nil_or_concat' (text.splitOn '\n')).resolve_left (List.splitOn_ne_nil '\n' text)
  have hbefore : (before.map dropCarriageReturn).filterMap read? = before.filterMap read? := by
    rw [List.filterMap_map]
    exact List.filterMap_congr fun row _ => hreturn row
  rw [lines, hparts, List.dropLast_concat, List.getLast?_concat, List.filterMap_append, hbefore,
    List.filterMap_append]
  by_cases hlast : last = []
  · simp [hlast, hnil]
  · simp [hlast]

theorem lineFeed_not_mem_of_mem_lines {text line : List Char} (h : line ∈ lines text) :
    '\n' ∉ line := by
  rw [lines, List.mem_append, List.mem_map] at h
  rcases h with ⟨part, hpart, rfl⟩ | hlast
  · exact fun hmem =>
      (mem_splitOn ((List.dropLast_sublist _).subset hpart)).1 (mem_dropCarriageReturn hmem)
  · have hmem : line ∈ (text.splitOn '\n').getLast? := by
      simpa using List.mem_of_mem_filter hlast
    exact (mem_splitOn (List.mem_of_mem_getLast? hmem)).1

end LoraSchedule.Text
