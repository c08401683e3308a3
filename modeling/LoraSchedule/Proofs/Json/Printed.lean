import LoraSchedule.Proofs.Json.Literals

/-!
# Printed documents

A document is printed as the text of its tokens, with or without blanks between
them (`Value.spells_compact`, `Value.spells_pretty`), and either text is cut into
these tokens again (`Spells.tokens?`).  Reading the tokens of a document inside
any open containers gives the document to the innermost of them
(`Value.foldlM_tokens`), so a printed document is read back as it is.
-/

namespace LoraSchedule.Json

open LoraSchedule.Number

/-! ## Texts and their tokens -/

/-- A text that is cut into certain tokens. -/
inductive Spells : List Char → List Token → Prop
  | done : Spells [] []
  | blank {c : Char} {text : List Char} {tokens : List Token} (hc : isSpace c = true)
      (h : Spells text tokens) : Spells (c :: text) tokens
  | token (c : Char) (more : List Char) {rest : List Char} {token : Token} {tokens : List Token}
      (hc : isSpace c = false) (htake : takeToken? c (more ++ rest) = some (token, rest))
      (h : Spells rest tokens) : Spells (c :: (more ++ rest)) (token :: tokens)

namespace Spells

variable {text rest : List Char} {tokens : List Token}

/-- As many tokens as the text has characters are enough. -/
theorem tokensWithin? (h : Spells text tokens) :
    ∀ fuel, text.length ≤ fuel → Json.tokensWithin? fuel text = some tokens := by
  induction h with
  | done =>
      rintro (_ | fuel) - <;> rfl
  | blank hc _ ih =>
      rintro (_ | fuel) hfuel
      · simp at hfuel
      · have hrest := ih (fuel + 1) (by simp at hfuel; omega)
        rw [Json.tokensWithin?] at hrest ⊢
        rwa [List.dropWhile_cons_of_pos hc]
  | token c more hc htake _ ih =>
      rintro (_ | fuel) hfuel
      · simp at hfuel
      · have hrest := ih fuel (by simp at hfuel; omega)
        rw [Json.tokensWithin?, List.dropWhile_cons_of_neg (by simp [hc])]
        simp [htake, hrest]

/-- **A text has the tokens that it spells.** -/
theorem tokens? (h : Spells text tokens) : Json.tokens? text = some tokens :=
  h.tokensWithin? _ le_rfl

/-! ### Single tokens -/

private theorem mark {c : Char} {token : Token} (hc : isSpace c = false)
    (htake : ∀ rest, takeToken? c rest = some (token, rest)) (h : Spells rest tokens) :
    Spells (c :: rest) (token :: tokens) :=
  .token c [] hc (htake rest) h

theorem openArray (h : Spells rest tokens) : Spells ('[' :: rest) (.openArray :: tokens) :=
  mark rfl (fun _ => rfl) h

theorem closeArray (h : Spells rest tokens) : Spells (']' :: rest) (.closeArray :: tokens) :=
  mark rfl (fun _ => rfl) h

theorem openObject (h : Spells rest tokens) : Spells ('\x7b' :: rest) (.openObject :: tokens) :=
  mark rfl (fun _ => rfl) h

theorem closeObject (h : Spells rest tokens) : Spells ('\x7d' :: rest) (.closeObject :: tokens) :=
  mark rfl (fun _ => rfl) h

theorem comma (h : Spells rest tokens) : Spells (',' :: rest) (.comma :: tokens) :=
  mark rfl (fun _ => rfl) h

theorem colon (h : Spells rest tokens) : Spells (':' :: rest) (.colon :: tokens) :=
  mark rfl (fun _ => rfl) h

theorem null (h : Spells rest tokens) : Spells ("null".toList ++ rest) (.null :: tokens) :=
  .token 'n' "ull".toList rfl rfl h

theorem bool (b : Bool) (h : Spells rest tokens) :
    Spells ((if b then "true".toList else "false".toList) ++ rest) (.bool b :: tokens) := by
  cases b with
  | true => exact .token 't' "rue".toList rfl rfl h
  | false => exact .token 'f' "alse".toList rfl rfl h

theorem number {n : Numeral} (hn : n.Printable) (hrest : EndsNumber rest)
    (h : Spells rest tokens) : Spells (n.render ++ rest) (.number (some n) :: tokens) := by
  obtain ⟨c, more, htext, hc, htake⟩ := takeToken?_render hn hrest
  rw [htext]
  exact .token c more hc htake h

theorem string (s : String) (h : Spells rest tokens) :
    Spells (renderString s ++ rest) (.string (some s) :: tokens) := by
  have hsplit : renderString s ++ rest =
      '"' :: (s.toList.flatMap escapeChar ++ ['"'] ++ rest) := rfl
  rw [hsplit]
  refine .token '"' _ rfl ?_ h
  rw [List.append_assoc]
  exact takeToken?_renderString s

theorem key (name : String) (h : Spells rest tokens) :
    Spells (renderString name ++ ':' :: rest) (.string (some name) :: .colon :: tokens) :=
  string name h.colon

theorem newLine (depth : Nat) (h : Spells rest tokens) :
    Spells (Value.newLine depth ++ rest) tokens := by
  refine .blank rfl ?_
  induction 2 * depth with
  | zero => exact h
  | succ count ih => exact .blank rfl ih

end Spells

/-! ## The tokens of a document -/

namespace Value

mutual

def tokens : Value → List Token
  | .null => [.null]
  | .bool b => [.bool b]
  | .number n => [.number (some n)]
  | .string s => [.string (some s)]
  | .array items => .openArray :: (itemTokens items ++ [.closeArray])
  | .object fields => .openObject :: (fieldTokens fields ++ [.closeObject])

def itemTokens : List Value → List Token
  | [] => []
  | [item] => item.tokens
  | item :: rest => item.tokens ++ .comma :: itemTokens rest

def fieldTokens : List (String × Value) → List Token
  | [] => []
  | [(key, value)] => .string (some key) :: .colon :: value.tokens
  | (key, value) :: rest =>
    .string (some key) :: .colon :: (value.tokens ++ .comma :: fieldTokens rest)

end

mutual

/-- Every number in a document can be written in a text. -/
def Printable : Value → Prop
  | .number n => n.Printable
  | .array items => ItemsPrintable items
  | .object fields => FieldsPrintable fields
  | _ => True

def ItemsPrintable : List Value → Prop
  | [] => True
  | item :: rest => item.Printable ∧ ItemsPrintable rest

def FieldsPrintable : List (String × Value) → Prop
  | [] => True
  | (_, value) :: rest => value.Printable ∧ FieldsPrintable rest

end

theorem endsNumber_cons {c : Char} {rest : List Char}
    (hc : (c.isDigit = false ∧ c ≠ '.' ∧ c ≠ 'e' ∧ c ≠ 'E') := by decide) :
    EndsNumber (c :: rest) := by
  intro d hd
  obtain rfl : c = d := by simpa using hd
  exact hc

/-! ## Printed without blanks -/

mutual

theorem spells_compact : ∀ (value : Value), value.Printable → ∀ {rest : List Char}
    {tokens : List Token}, EndsNumber rest → Spells rest tokens →
      Spells (value.compact ++ rest) (value.tokens ++ tokens)
  | .null, _, _, _, _, h => .null h
  | .bool b, _, _, _, _, h => .bool b h
  | .number _, hvalue, _, _, hrest, h => .number hvalue hrest h
  | .string s, _, _, _, _, h => .string s h
  | .array items, hvalue, _, _, _, h => by
      simpa [compact, Value.tokens] using
        (spells_compactItems items hvalue endsNumber_cons h.closeArray).openArray
  | .object fields, hvalue, _, _, _, h => by
      simpa [compact, Value.tokens] using
        (spells_compactFields fields hvalue endsNumber_cons h.closeObject).openObject

theorem spells_compactItems : ∀ (items : List Value), ItemsPrintable items → ∀ {rest : List Char}
    {tokens : List Token}, EndsNumber rest → Spells rest tokens →
      Spells (compactItems items ++ rest) (itemTokens items ++ tokens)
  | [], _, _, _, _, h => h
  | [item], hitems, _, _, hrest, h => spells_compact item hitems.1 hrest h
  | item :: next :: others, hitems, _, _, hrest, h => by
      have hothers := spells_compactItems (next :: others) hitems.2 hrest h
      simpa [compactItems, itemTokens] using
        spells_compact item hitems.1 endsNumber_cons hothers.comma

theorem spells_compactFields : ∀ (fields : List (String × Value)), FieldsPrintable fields →
    ∀ {rest : List Char} {tokens : List Token}, EndsNumber rest → Spells rest tokens →
      Spells (compactFields fields ++ rest) (fieldTokens fields ++ tokens)
  | [], _, _, _, _, h => h
  | [(name, value)], hfields, _, _, hrest, h => by
      simpa [compactFields, fieldTokens] using (spells_compact value hfields.1 hrest h).key name
  | (name, value) :: next :: others, hfields, _, _, hrest, h => by
      have hothers := spells_compactFields (next :: others) hfields.2 hrest h
      simpa [compactFields, fieldTokens] using
        (spells_compact value hfields.1 endsNumber_cons hothers.comma).key name

end

/-! ## Printed over several lines -/

mutual

theorem spells_pretty (depth : Nat) : ∀ (value : Value), value.Printable → ∀ {rest : List Char}
    {tokens : List Token}, EndsNumber rest → Spells rest tokens →
      Spells (value.pretty depth ++ rest) (value.tokens ++ tokens)
  | .null, _, _, _, _, h => by simpa [pretty, Value.tokens] using Spells.null h
  | .bool b, _, _, _, _, h => by simpa [pretty, Value.tokens] using Spells.bool b h
  | .number _, hvalue, _, _, hrest, h => by
      simpa [pretty, Value.tokens] using Spells.number hvalue hrest h
  | .string s, _, _, _, _, h => by simpa [pretty, Value.tokens] using Spells.string s h
  | .array [], _, _, _, _, h => h.closeArray.openArray
  | .array (item :: items), hvalue, _, _, _, h => by
      have hitems := spells_prettyItems (depth + 1) (item :: items) hvalue
        (endsNumber_cons (c := '\n')) (h.closeArray.newLine depth)
      simpa [pretty, newLine, Value.tokens] using hitems.openArray
  | .object [], _, _, _, _, h => h.closeObject.openObject
  | .object (field :: fields), hvalue, _, _, _, h => by
      have hfields := spells_prettyFields (depth + 1) (field :: fields) hvalue
        (endsNumber_cons (c := '\n')) (h.closeObject.newLine depth)
      simpa [pretty, newLine, Value.tokens] using hfields.openObject

theorem spells_prettyItems (depth : Nat) : ∀ (items : List Value), ItemsPrintable items →
    ∀ {rest : List Char} {tokens : List Token}, EndsNumber rest → Spells rest tokens →
      Spells (prettyItems depth items ++ rest) (itemTokens items ++ tokens)
  | [], _, _, _, _, h => by simpa [prettyItems, itemTokens] using h
  | [item], hitems, _, _, hrest, h => by
      have hitem := spells_pretty depth item hitems.1 hrest h
      simpa [prettyItems, itemTokens] using hitem.newLine depth
  | item :: next :: others, hitems, _, _, hrest, h => by
      have hothers := spells_prettyItems depth (next :: others) hitems.2 hrest h
      simpa [prettyItems, itemTokens] using
        (spells_pretty depth item hitems.1 endsNumber_cons hothers.comma).newLine depth

theorem spells_prettyFields (depth : Nat) : ∀ (fields : List (String × Value)),
    FieldsPrintable fields → ∀ {rest : List Char} {tokens : List Token}, EndsNumber rest →
      Spells rest tokens → Spells (prettyFields depth fields ++ rest) (fieldTokens fields ++ tokens)
  | [], _, _, _, _, h => by simpa [prettyFields, fieldTokens] using h
  | [(name, value)], hfields, _, _, hrest, h => by
      have hvalue := spells_pretty depth value hfields.1 hrest h
      simpa [prettyFields, fieldTokens] using ((hvalue.blank (c := ' ') rfl).key name).newLine depth
  | (name, value) :: next :: others, hfields, _, _, hrest, h => by
      have hothers := spells_prettyFields depth (next :: others) hfields.2 hrest h
      have hvalue := spells_pretty depth value hfields.1 endsNumber_cons hothers.comma
      simpa [prettyFields, fieldTokens] using ((hvalue.blank (c := ' ') rfl).key name).newLine depth

end

/-! ## Tokens read -/

/-- Inside an array that has just been opened, a value is read as its first item. -/
theorem foldlM_itemOrEnd (value : Value) (outer : List Frame) (tokens : List Token) :
    (value.tokens ++ tokens).foldlM Reading.step (.itemOrEnd outer) =
      (value.tokens ++ tokens).foldlM Reading.step (.value (.array [] :: outer)) := by
  cases value <;> rfl

mutual

/-- **The tokens of a document give it to the innermost open container.** -/
theorem foldlM_tokens : ∀ (value : Value) (outer : List Frame) (tokens : List Token),
    (value.tokens ++ tokens).foldlM Reading.step (.value outer) =
      tokens.foldlM Reading.step (.close value.toWritten outer)
  | .null, _, _ | .bool _, _, _ | .number _, _, _ | .string _, _, _ => rfl
  | .array [], _, _ => rfl
  | .array (item :: items), outer, tokens => by
      -- what comes after the bracket is an item, not the end
      obtain ⟨following, hfollowing⟩ : ∃ following,
          itemTokens (item :: items) = item.tokens ++ following := by
        cases items with
        | nil => exact ⟨[], (List.append_nil _).symm⟩
        | cons next others => exact ⟨_, rfl⟩
      calc ((Value.array (item :: items)).tokens ++ tokens).foldlM Reading.step (.value outer)
          = (itemTokens (item :: items) ++ .closeArray :: tokens).foldlM Reading.step
              (.itemOrEnd outer) := by
            rw [Value.tokens, List.cons_append, List.append_assoc]
            rfl
        _ = (itemTokens (item :: items) ++ .closeArray :: tokens).foldlM Reading.step
              (.value (.array [] :: outer)) := by
            rw [hfollowing, List.append_assoc, foldlM_itemOrEnd]
        _ = tokens.foldlM Reading.step (.close (.array (itemsToWritten (item :: items))) outer) :=
            foldlM_itemTokens (item :: items) (by simp) [] outer tokens
  | .object [], _, _ => rfl
  | .object ((name, value) :: fields), outer, tokens => by
      -- what comes after the brace is a name, as it is after a comma
      obtain ⟨following, hfollowing⟩ : ∃ following,
          fieldTokens ((name, value) :: fields) = .string (some name) :: following := by
        cases fields <;> exact ⟨_, rfl⟩
      calc ((Value.object ((name, value) :: fields)).tokens ++ tokens).foldlM Reading.step
            (.value outer)
          = (fieldTokens ((name, value) :: fields) ++ .closeObject :: tokens).foldlM Reading.step
              (.keyOrEnd outer) := by
            rw [Value.tokens, List.cons_append, List.append_assoc]
            rfl
        _ = (fieldTokens ((name, value) :: fields) ++ .closeObject :: tokens).foldlM Reading.step
              (.nextKey [] outer) := by
            rw [hfollowing]
            rfl
        _ = tokens.foldlM Reading.step
              (.close (.object (fieldsToWritten ((name, value) :: fields))) outer) :=
            foldlM_fieldTokens ((name, value) :: fields) (by simp) [] outer tokens

theorem foldlM_itemTokens : ∀ (items : List Value), items ≠ [] → ∀ (done : List Written)
    (outer : List Frame) (tokens : List Token),
    (itemTokens items ++ .closeArray :: tokens).foldlM Reading.step
        (.value (.array done :: outer)) =
      tokens.foldlM Reading.step (.close (.array (done.reverse ++ itemsToWritten items)) outer)
  | [], h, _, _, _ => absurd rfl h
  | [item], _, done, outer, tokens => by
      calc _ = tokens.foldlM Reading.step
              (.close (.array (item.toWritten :: done).reverse) outer) :=
            foldlM_tokens item (.array done :: outer) _
        _ = _ := by rw [List.reverse_cons, itemsToWritten, itemsToWritten]
  | item :: next :: others, _, done, outer, tokens => by
      have hsplit : itemTokens (item :: next :: others) ++ .closeArray :: tokens =
          item.tokens ++ .comma :: (itemTokens (next :: others) ++ .closeArray :: tokens) :=
        List.append_assoc ..
      calc _ = (itemTokens (next :: others) ++ .closeArray :: tokens).foldlM Reading.step
              (.value (.array (item.toWritten :: done) :: outer)) := by
            rw [hsplit]
            exact foldlM_tokens item _ _
        _ = tokens.foldlM Reading.step (.close (.array
              ((item.toWritten :: done).reverse ++ itemsToWritten (next :: others))) outer) :=
            foldlM_itemTokens (next :: others) (by simp) _ outer tokens
        _ = _ := by simp [itemsToWritten]

theorem foldlM_fieldTokens : ∀ (fields : List (String × Value)), fields ≠ [] →
    ∀ (done : List (Option String × Written)) (outer : List Frame) (tokens : List Token),
    (fieldTokens fields ++ .closeObject :: tokens).foldlM Reading.step (.nextKey done outer) =
      tokens.foldlM Reading.step (.close (.object (done.reverse ++ fieldsToWritten fields)) outer)
  | [], h, _, _, _ => absurd rfl h
  | [(name, value)], _, done, outer, tokens => by
      calc _ = tokens.foldlM Reading.step
              (.close (.object ((some name, value.toWritten) :: done).reverse) outer) :=
            foldlM_tokens value (.object done (some name) :: outer) _
        _ = _ := by rw [List.reverse_cons, fieldsToWritten, fieldsToWritten]
  | (name, value) :: next :: others, _, done, outer, tokens => by
      have hsplit : fieldTokens ((name, value) :: next :: others) ++ .closeObject :: tokens =
          .string (some name) :: .colon :: (value.tokens ++ .comma ::
            (fieldTokens (next :: others) ++ .closeObject :: tokens)) := by
        simp [fieldTokens]
      calc _ = (fieldTokens (next :: others) ++ .closeObject :: tokens).foldlM Reading.step
              (.nextKey ((some name, value.toWritten) :: done) outer) := by
            rw [hsplit]
            exact foldlM_tokens value (.object done (some name) :: outer) _
        _ = tokens.foldlM Reading.step (.close (.object (((some name, value.toWritten) ::
              done).reverse ++ fieldsToWritten (next :: others))) outer) :=
            foldlM_fieldTokens (next :: others) (by simp) _ outer tokens
        _ = _ := by simp [fieldsToWritten]

end

variable {value : Value}

/-- **A text with the tokens of a document spells it.** -/
theorem ofText?_of_spells {text : List Char} (h : Spells text value.tokens) :
    Written.ofText? text = some value.toWritten := by
  have hread := foldlM_tokens value [] []
  rw [List.append_nil] at hread
  rw [Written.ofText?, h.tokens?, Option.bind_eq_bind, Option.bind_some, Written.ofTokens?, hread]
  rfl

theorem endsNumber_nil : EndsNumber [] := fun c hc => by cases hc

/-- **A printed document is read back as it is**, in either form. -/
theorem ofText?_printed (hvalue : value.Printable) :
    ∀ text ∈ [value.render, value.compact], Written.ofText? text = some value.toWritten := by
  have hrender := spells_pretty 0 value hvalue endsNumber_nil .done
  have hcompact := spells_compact value hvalue endsNumber_nil .done
  rw [List.append_nil, List.append_nil] at hrender hcompact
  simp only [List.forall_mem_cons, List.not_mem_nil, false_imp_iff, implies_true, and_true]
  exact ⟨ofText?_of_spells hrender, ofText?_of_spells hcompact⟩

/-! ## Documents -/

mutual

/-- **A document written out means the document with its fields in order.** -/
theorem ofWritten?_toWritten : ∀ value : Value, ofWritten? value.toWritten = some value.sortFields
  | .null | .bool _ | .number _ | .string _ => rfl
  | .array items => by rw [toWritten, ofWritten?, ofItems?_itemsToWritten]; rfl
  | .object fields => by rw [toWritten, ofWritten?, ofFields?_fieldsToWritten]; rfl

theorem ofItems?_itemsToWritten : ∀ items : List Value,
    ofItems? (itemsToWritten items) = some (sortItems items)
  | [] => rfl
  | item :: rest => by
      rw [itemsToWritten, ofItems?, ofWritten?_toWritten item, ofItems?_itemsToWritten rest]
      rfl

theorem ofFields?_fieldsToWritten : ∀ fields : List (String × Value),
    ofFields? (fieldsToWritten fields) = some (sortEach fields)
  | [] => rfl
  | (name, value) :: rest => by
      rw [fieldsToWritten, ofFields?, ofWritten?_toWritten value, ofFields?_fieldsToWritten rest]
      rfl

end

end Value

end LoraSchedule.Json
