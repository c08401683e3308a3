import LoraSchedule.Proofs.Sidecar.Fields

/-!
# The trigger words of a sidecar

A sidecar has trigger words of its own, or else those of its provider.  Whether it
has its own is not asked of a list only: any value that is more than nothing
counts, and one that is no list then has no words (`words_rule`).  So what the
provider has is found if the sidecar has nothing, and is hidden by a value of
another kind (`words_hidden`).
-/

namespace LoraSchedule.Sidecar

open LoraSchedule.Json (Numeral Value)

/-! ## Words of a list -/

/-- What some values say, in their order; values that say nothing are passed over. -/
inductive SaysWords : List Value → List String → Prop
  | nil : SaysWords [] []
  | word {value : Value} {word : String} {values : List Value} {words : List String}
      (hword : Says value word) (hrest : SaysWords values words) :
      SaysWords (value :: values) (word :: words)
  | passedOver {value : Value} {values : List Value} {words : List String}
      (hmute : ∀ word, ¬Says value word) (hrest : SaysWords values words) :
      SaysWords (value :: values) words

theorem scalarText?_eq_none_iff {value : Value} :
    scalarText? value = none ↔ ∀ text, ¬Says value text := by
  rw [Option.eq_none_iff_forall_ne_some]
  exact forall_congr' fun text => not_congr scalarText?_eq_some_iff

/-- **The words are read one by one.** -/
theorem saysWords_iff {values : List Value} {words : List String} :
    SaysWords values words ↔ values.filterMap scalarText? = words := by
  constructor
  · intro h
    induction h with
    | nil => rfl
    | word hword _ ih => rw [List.filterMap_cons, scalarText?_eq_some_iff.mpr hword, ih]
    | passedOver hmute _ ih => rw [List.filterMap_cons, scalarText?_eq_none_iff.mpr hmute, ih]
  · rintro rfl
    induction values with
    | nil => exact .nil
    | cons value values ih =>
        rw [List.filterMap_cons]
        cases htext : scalarText? value with
        | none => exact .passedOver (scalarText?_eq_none_iff.mp htext) ih
        | some text => exact .word (scalarText?_eq_some_iff.mp htext) ih

/-! ## Where words are looked for -/

/-- The words of a sidecar's own list if that is not empty, or else of the list of
its provider. -/
inductive ListsWords (s : Sidecar) : List String → Prop
  | own {items : List Value} {words : List String} (hitems : s.trainedWords = some (.array items))
      (hne : items ≠ []) (hwords : SaysWords items words) : ListsWords s words
  | provider {notes : ProviderNotes} {items : List Value} {words : List String}
      (hown : ∀ items, s.trainedWords = some (.array items) → items = [])
      (hprovider : s.provider = some notes) (hitems : notes.trainedWords = some (.array items))
      (hwords : SaysWords items words) : ListsWords s words
  | neither (hown : ∀ items, s.trainedWords = some (.array items) → items = [])
      (hprovider : ∀ notes items, s.provider = some notes →
        notes.trainedWords ≠ some (.array items)) : ListsWords s []

/-- The values that are no list and still more than nothing. -/
inductive Hides : Value → Prop
  | bool : Hides (.bool true)
  | text {s : String} (hne : s ≠ "") : Hides (.string s)
  | number (n : Numeral) : Hides (.number n)
  | object {fields : List (String × Value)} (hne : fields ≠ []) : Hides (.object fields)

theorem hides_of_isTruthy {value : Value} (h : isTruthy value = true)
    (hlist : ∀ items, value ≠ .array items) : Hides value := by
  cases value with
  | null => cases h
  | bool b =>
      obtain rfl : b = true := h
      exact .bool
  | number n => exact .number n
  | string s => exact .text (by simpa [isTruthy] using h)
  | array items => exact absurd rfl (hlist items)
  | object fields => exact .object (by simpa [isTruthy] using h)

theorem isTruthy_of_hides {value : Value} (h : Hides value) :
    isTruthy value = true ∧ value.array? = none := by
  cases h with
  | bool | number => exact ⟨rfl, rfl⟩
  | text hne => exact ⟨decide_eq_true hne, rfl⟩
  | object hne => exact ⟨by simpa [isTruthy] using hne, rfl⟩

variable {s : Sidecar}

theorem words_of_list {items : List Value} (hitems : s.trainedWords = some (.array items))
    (hne : items ≠ []) : s.words = items.filterMap scalarText? := by
  have htruthy : isTruthy (.array items) = true := by simpa [isTruthy] using hne
  simp [words, hitems, Option.filter, htruthy, Value.array?]

/-- A value that is no list hides the words of the provider. -/
theorem words_of_hides {value : Value} (hvalue : s.trainedWords = some value)
    (hhides : Hides value) : s.words = [] := by
  obtain ⟨htruthy, hlist⟩ := isTruthy_of_hides hhides
  simp [words, hvalue, Option.filter, htruthy, hlist]

theorem words_of_nothing (h : ∀ value, s.trainedWords = some value → isTruthy value = false) :
    s.words =
      ((s.provider >>= ProviderNotes.trainedWords >>= Value.array?).getD []).filterMap
        scalarText? := by
  have hnone : s.trainedWords.filter isTruthy = none := by
    rw [Option.filter_eq_none_iff]
    intro value hvalue
    simp [h value hvalue]
  simp only [words, hnone, Option.none_or]

/-- Without a value that hides, and without a list of its own, a sidecar has nothing. -/
theorem isTruthy_eq_false {value : Value} (hhides : ¬Hides value)
    (hlist : ∀ items, value = .array items → items = []) : isTruthy value = false := by
  rw [← Bool.not_eq_true]
  intro htruthy
  by_cases harray : ∃ items, value = .array items
  · obtain ⟨items, rfl⟩ := harray
    rw [hlist items rfl] at htruthy
    cases htruthy
  · exact hhides (hides_of_isTruthy htruthy fun items heq => harray ⟨items, heq⟩)

/-! ## The rule -/

/-- Where nothing hides the provider's words, the answer follows the rule. -/
theorem words_of_listsWords (hhides : ∀ value ∈ s.trainedWords, ¬Hides value)
    {words : List String} (h : ListsWords s words) : s.words = words := by
  have hnothing (hown : ∀ items, s.trainedWords = some (.array items) → items = []) :
      ∀ value, s.trainedWords = some value → isTruthy value = false := by
    intro value hvalue
    refine isTruthy_eq_false (hhides value hvalue) ?_
    rintro items rfl
    exact hown items hvalue
  cases h with
  | own hitems hne hwords =>
      rw [words_of_list hitems hne]
      exact saysWords_iff.mp hwords
  | provider hown hprovider hitems hwords =>
      rw [words_of_nothing (hnothing hown), hprovider]
      simp only [Option.bind_eq_bind, Option.bind_some, hitems]
      exact saysWords_iff.mp hwords
  | neither hown hprovider =>
      rw [words_of_nothing (hnothing hown)]
      cases hnotes : s.provider with
      | none => rfl
      | some notes =>
          simp only [Option.bind_eq_bind, Option.bind_some]
          cases hitems : notes.trainedWords with
          | none => rfl
          | some value =>
              cases value with
              | array items => exact absurd hitems (hprovider notes items hnotes)
              | _ => rfl

/-- Some case of the rule applies. -/
theorem exists_listsWords (s : Sidecar) : ∃ words, ListsWords s words := by
  by_cases hown : ∃ items, s.trainedWords = some (.array items) ∧ items ≠ []
  · obtain ⟨items, hitems, hne⟩ := hown
    exact ⟨_, .own hitems hne (saysWords_iff.mpr rfl)⟩
  · have hown : ∀ items, s.trainedWords = some (.array items) → items = [] := by
      intro items hitems
      by_contra hne
      exact hown ⟨items, hitems, hne⟩
    by_cases hprovider : ∃ notes items, s.provider = some notes ∧
        notes.trainedWords = some (.array items)
    · obtain ⟨notes, items, hnotes, hitems⟩ := hprovider
      exact ⟨_, .provider hown hnotes hitems (saysWords_iff.mpr rfl)⟩
    · exact ⟨_, .neither hown fun notes items hnotes hitems =>
        hprovider ⟨notes, items, hnotes, hitems⟩⟩

theorem words_iff (hhides : ∀ value ∈ s.trainedWords, ¬Hides value) {words : List String} :
    s.words = words ↔ ListsWords s words := by
  constructor
  · rintro rfl
    obtain ⟨words, hwords⟩ := exists_listsWords s
    rwa [words_of_listsWords hhides hwords]
  · exact words_of_listsWords hhides

theorem bind_array?_eq_some_iff {found : Option Value} {items : List Value} :
    found.bind Value.array? = some items ↔ found = some (.array items) := by
  cases found with
  | none => simp
  | some value => cases value <;> simp [Value.array?]

/-- The rule asks for the lists only. -/
theorem ListsWords.congr {other : Sidecar} {words : List String} (h : ListsWords s words)
    (hown : other.trainedWords.bind Value.array? = s.trainedWords.bind Value.array?)
    (hprovider : (other.provider.bind ProviderNotes.trainedWords).bind Value.array? =
      (s.provider.bind ProviderNotes.trainedWords).bind Value.array?) :
    ListsWords other words := by
  have hlists (items : List Value) :
      other.trainedWords = some (.array items) ↔ s.trainedWords = some (.array items) := by
    rw [← bind_array?_eq_some_iff, hown, bind_array?_eq_some_iff]
  have hprovides (items : List Value) :
      (∃ notes, other.provider = some notes ∧ notes.trainedWords = some (.array items)) ↔
        ∃ notes, s.provider = some notes ∧ notes.trainedWords = some (.array items) := by
    rw [← Option.bind_eq_some_iff, ← Option.bind_eq_some_iff, ← bind_array?_eq_some_iff, hprovider,
      bind_array?_eq_some_iff]
  cases h with
  | own hitems hne hwords => exact .own ((hlists _).mpr hitems) hne hwords
  | @provider notes items _ hnone hnotes hitems hwords =>
      obtain ⟨notes, hnotes, hitems⟩ := (hprovides items).mpr ⟨notes, hnotes, hitems⟩
      exact .provider (fun items h => hnone items ((hlists items).mp h)) hnotes hitems hwords
  | neither hnone hnotes =>
      refine .neither (fun items h => hnone items ((hlists items).mp h)) ?_
      intro notes items h hitems
      obtain ⟨notes, h, hitems⟩ := (hprovides items).mp ⟨notes, h, hitems⟩
      exact hnotes notes items h hitems

/-- **Where nothing hides the provider's words, the lists alone count.** -/
theorem words_congr {other : Sidecar} (hhides : ∀ value ∈ s.trainedWords, ¬Hides value)
    (hothers : ∀ value ∈ other.trainedWords, ¬Hides value)
    (hown : other.trainedWords.bind Value.array? = s.trainedWords.bind Value.array?)
    (hprovider : (other.provider.bind ProviderNotes.trainedWords).bind Value.array? =
      (s.provider.bind ProviderNotes.trainedWords).bind Value.array?) :
    other.words = s.words :=
  (words_iff hothers).mpr (((words_iff hhides).mp rfl).congr hown hprovider)

/-- The rule passes over a value that is no list, as if it were not there. -/
theorem listsWords_without {value : Value} (hvalue : s.trainedWords = some value)
    (hlist : value.array? = none) {words : List String} :
    ListsWords { s with trainedWords := none } words ↔ ListsWords s words := by
  have hown : (none : Option Value).bind Value.array? = s.trainedWords.bind Value.array? := by
    rw [hvalue, Option.bind_some, hlist, Option.bind_none]
  exact ⟨fun h => h.congr hown.symm rfl, fun h => h.congr hown rfl⟩

/-- **The trigger words of a sidecar.**  Unless it has a value of its own that is no
list and more than nothing, they are the words of its own list, or if that is
empty or missing, of its provider's list.  A value of another kind leaves no
words at all, where the rule has those that there are without it.  The lists are
those that a document has under their names. -/
theorem words_rule (s : Sidecar) :
    ((∀ value ∈ s.trainedWords, ¬Hides value) →
      ∀ words, s.words = words ↔ ListsWords s words) ∧
    (∀ value ∈ s.trainedWords, Hides value →
      s.words = [] ∧
        ∀ words, { s with trainedWords := none }.words = words ↔ ListsWords s words) ∧
    ∀ fields, ofWritten? (Value.object fields).toWritten = some s → s = ofFields fields := by
  refine ⟨fun hhides words => words_iff hhides, ?_, ?_⟩
  · intro value hvalue hhides
    refine ⟨words_of_hides hvalue hhides, fun words => ?_⟩
    have hwithout : ∀ value ∈ { s with trainedWords := none }.trainedWords, ¬Hides value :=
      fun _ => nofun
    rw [words_iff hwithout, listsWords_without hvalue (isTruthy_of_hides hhides).2]
  · intro fields hread
    exact (eq_ofFields hread).1

/-- An object with an empty list of words and words of its provider. -/
def providedWords : List (String × Value) :=
  [("trainedWords", .array []),
    ("civitai", .object [("trainedWords", .array [.string "sumi-e", .null, .string "wash"])])]

/-- The words of the provider are found. -/
theorem words_rule_provided :
    ∃ s, ofWritten? (Value.object providedWords).toWritten = some s ∧
      s = ofFields providedWords ∧ (∀ value ∈ s.trainedWords, ¬Hides value) ∧
      s.words = ["sumi-e", "wash"] ∧ ListsWords s ["sumi-e", "wash"] := by
  have hread : ofWritten? (Value.object providedWords).toWritten =
      some (ofFields providedWords) := rfl
  have hwords : (ofFields providedWords).words = ["sumi-e", "wash"] := rfl
  have hhides : ∀ value ∈ (ofFields providedWords).trainedWords, ¬Hides value := by
    rintro value hvalue hhides
    obtain rfl : .array [] = value := Option.some.inj hvalue
    cases hhides
  obtain ⟨hrule, -, hfields⟩ := words_rule (ofFields providedWords)
  exact ⟨_, hread, hfields providedWords hread, hhides, hwords, (hrule hhides _).mp hwords⟩

/-- An object with a text for its words and words of its provider. -/
def hiddenWords : List (String × Value) :=
  [("trainedWords", .string "ink"),
    ("civitai", .object [("trainedWords", .array [.string "sumi-e"])])]

/-- The text has no words, and those of the provider are not found. -/
theorem words_hidden :
    ¬ ∀ (fields : List (String × Value)) (s : Sidecar),
      ofWritten? (Value.object fields).toWritten = some s →
      ∀ words, s.words = words ↔ ListsWords s words := by
  intro h
  have hread : ofWritten? (Value.object hiddenWords).toWritten = some (ofFields hiddenWords) := rfl
  have hlists : ListsWords (ofFields hiddenWords) ["sumi-e"] := by
    have hsays : SaysWords [.string "sumi-e"] ["sumi-e"] := saysWords_iff.mpr rfl
    refine .provider ?_ rfl rfl hsays
    intro items hitems
    cases hitems
  have hwords := (h hiddenWords _ hread ["sumi-e"]).mpr hlists
  cases hwords

end LoraSchedule.Sidecar
