import LoraSchedule.Proofs.Json.LineEnds

/-!
# The outermost value of a text

A text without blanks before it that is an array starts with `[`: any other first
token starts a value of another kind, and what follows cannot close it as an
array (`Reading.NoArray`, which every step preserves).  So looking at the first
character of a text, as `Schedule.jsonItems?` does, passes over no array.
-/

namespace LoraSchedule.Json

/-! ## Readings of other values than arrays -/

namespace Frame

/-- No array is outermost among the open containers. -/
def ObjectOutermost (outer : List Frame) : Prop :=
  ∀ items, outer.getLast? ≠ some (.array items)

theorem objectOutermost_object {outer : List Frame} (h : ObjectOutermost outer)
    (fields : List (Option String × Written)) (key : Option String) :
    ObjectOutermost (.object fields key :: outer) := by
  intro items
  cases outer with
  | nil => simp
  | cons frame outer => rw [List.getLast?_cons_cons]; exact h items

theorem objectOutermost_array_iff {outer : List Frame} {items : List Written} :
    ObjectOutermost (.array items :: outer) ↔ outer ≠ [] ∧ ObjectOutermost outer := by
  cases outer with
  | nil => simp [ObjectOutermost]
  | cons frame outer => simp [ObjectOutermost, List.getLast?_cons_cons]

end Frame

namespace Reading

/-- What is read can no longer be an array. -/
def NoArray : Reading → Prop
  | .value outer | .itemOrEnd outer | .afterItem _ outer =>
      outer ≠ [] ∧ Frame.ObjectOutermost outer
  | .keyOrEnd outer | .nextKey _ outer | .beforeColon _ _ outer | .afterField _ outer =>
      Frame.ObjectOutermost outer
  | .complete written => ∀ items, written ≠ .array items

theorem noArray_close {value : Written} {outer : List Frame} (h : Frame.ObjectOutermost outer)
    (hvalue : outer = [] → ∀ items, value ≠ .array items) : NoArray (close value outer) := by
  match outer with
  | [] => exact hvalue rfl
  | .array items :: outer => exact Frame.objectOutermost_array_iff.mp h
  | .object fields key :: [] => simp [NoArray, close, Frame.ObjectOutermost]
  | .object fields key :: frame :: outer =>
      intro items
      have hitems := h items
      rwa [List.getLast?_cons_cons] at hitems

theorem noArray_start {outer : List Frame} (houter : Frame.ObjectOutermost outer) {token : Token}
    (htoken : outer ≠ [] ∨ token ≠ .openArray) {next : Reading}
    (h : start? outer token = some next) : NoArray next := by
  cases token with
  | openArray =>
      obtain rfl := Option.some.inj h
      exact ⟨htoken.resolve_right (· rfl), houter⟩
  | openObject =>
      obtain rfl := Option.some.inj h
      exact houter
  | null | bool _ | number _ | string _ =>
      obtain rfl := Option.some.inj h
      exact noArray_close houter fun _ _ => by simp
  | closeArray | closeObject | comma | colon => cases h

theorem noArray_step {reading next : Reading} (hreading : NoArray reading) {token : Token}
    (h : step reading token = some next) : NoArray next := by
  unfold step at h
  split at h
  case h_1 => exact noArray_start hreading.2 (.inl hreading.1) h
  case h_3 =>
    exact noArray_start (Frame.objectOutermost_array_iff.mpr hreading)
      (.inl (List.cons_ne_nil _ _)) h
  case h_12 => cases h
  all_goals obtain rfl := Option.some.inj h
  case h_2 | h_9 => exact noArray_close hreading.2 fun hnil => absurd hnil hreading.1
  case h_4 | h_11 => exact noArray_close hreading fun _ _ => by simp
  case h_5 | h_6 | h_10 => exact hreading
  case h_7 => exact ⟨List.cons_ne_nil _ _, Frame.objectOutermost_object hreading _ _⟩
  case h_8 => exact ⟨List.cons_ne_nil _ _, Frame.objectOutermost_array_iff.mpr hreading⟩

/-- **What can no longer be an array is none in the end.** -/
theorem noArray_foldlM {reading last : Reading} (hreading : NoArray reading) {tokens : List Token}
    (h : tokens.foldlM step reading = some last) : NoArray last := by
  induction tokens generalizing reading with
  | nil => exact Option.some.inj h ▸ hreading
  | cons token rest ih =>
      rw [List.foldlM_cons] at h
      obtain ⟨next, hnext, hrest⟩ := Option.bind_eq_some_iff.mp h
      exact ih (noArray_step hreading hnext) hrest

end Reading

/-- The first token of an array. -/
theorem head?_of_ofTokens? {tokens : List Token} {items : List Written}
    (h : Written.ofTokens? tokens = some (.array items)) : tokens.head? = some .openArray := by
  rw [Written.ofTokens?] at h
  split at h
  case h_2 => cases h
  case h_1 written hfold =>
    obtain rfl := Option.some.inj h
    cases tokens with
    | nil => cases hfold
    | cons token rest =>
        rw [List.foldlM_cons] at hfold
        obtain ⟨next, hnext, hrest⟩ := Option.bind_eq_some_iff.mp hfold
        by_contra htoken
        have hempty : Frame.ObjectOutermost [] := fun items => by simp
        have hother : token ≠ .openArray := fun heq => htoken (congrArg some heq)
        exact Reading.noArray_foldlM (Reading.noArray_start hempty (.inr hother) hnext) hrest
          items rfl

theorem first_of_openArray {first : Char} {text rest : List Char}
    (h : takeToken? first text = some (.openArray, rest)) : first = '[' := by
  unfold takeToken? at h
  split at h
  case h_1 => rfl
  case h_10 =>
    simp only [Option.bind_eq_bind, Option.bind_eq_some_iff] at h
    obtain ⟨_, -, htoken⟩ := h
    cases htoken
  case h_11 =>
    simp only [takeNumber?, Option.bind_eq_bind, Option.bind_eq_some_iff] at h
    obtain ⟨_, -, _, -, _, -, htoken⟩ := h
    cases htoken
  all_goals cases h

/-- An array is written as one. -/
theorem Value.written_of_array {written : Written} {items : List Value}
    (h : ofWritten? written = some (.array items)) : ∃ parts, written = .array parts := by
  cases written with
  | array parts => exact ⟨parts, rfl⟩
  | null | bool _ => simp [ofWritten?] at h
  | number n => simp [ofWritten?] at h
  | string s => simp [ofWritten?] at h
  | object fields => simp [ofWritten?] at h

/-- The first character of an array. -/
theorem Value.head?_of_ofText? {text : List Char} {items : List Value}
    (hhead : ∀ c ∈ text.head?, isSpace c = false) (h : ofText? text = some (.array items)) :
    text.head? = some '[' := by
  obtain ⟨written, hwritten, hnested⟩ := Option.bind_eq_some_iff.mp h
  obtain ⟨tokens, htokens, htree⟩ := Option.bind_eq_some_iff.mp hwritten
  rw [ofNested?] at hnested
  split_ifs at hnested
  obtain ⟨parts, rfl⟩ := written_of_array hnested
  obtain ⟨others, rfl⟩ := List.head?_eq_some_iff.mp (head?_of_ofTokens? htree)
  cases text with
  | nil => cases htokens
  | cons first rest =>
      rw [tokens?, List.length_cons, tokensWithin?,
        List.dropWhile_cons_of_neg (by simp [hhead first rfl])] at htokens
      simp only [Option.bind_eq_bind, Option.bind_eq_some_iff] at htokens
      obtain ⟨⟨token, after⟩, htoken, _, -, hcons⟩ := htokens
      obtain ⟨rfl, -⟩ := List.cons.inj (Option.some.inj hcons)
      rw [first_of_openArray htoken, List.head?_cons]

end LoraSchedule.Json

namespace LoraSchedule

open LoraSchedule.Json LoraSchedule.Text

/-- **The list that a text is**, found by its first character. -/
theorem Schedule.jsonItems?_eq_some_iff {text : List Char} {items : List Value} :
    jsonItems? text = some items ↔ Value.ofText? (trim text) = some (.array items) := by
  have harray : ∀ document : Value, document.array? = some items ↔ document = .array items := by
    intro document
    cases document <;> simp [Value.array?]
  rw [jsonItems?]
  constructor
  · intro h
    split_ifs at h
    obtain ⟨document, hdocument, hitems⟩ := Option.bind_eq_some_iff.mp h
    rwa [(harray document).mp hitems] at hdocument
  · intro h
    have hspace : ∀ c ∈ (trim text).head?, isSpace c = false := by
      intro c hc
      rw [← Bool.not_eq_true]
      intro hspace
      exact absurd (isBlank_of_isSpace hspace) (by simp [(trimmed_trim text).head c hc])
    simp [Value.head?_of_ofText? hspace h, h, Value.array?]

end LoraSchedule
