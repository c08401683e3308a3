import LoraSchedule.Dict.Lemmas
import LoraSchedule.Json.Record
import LoraSchedule.Proofs.Lists
import LoraSchedule.Proofs.Number.Sums

/-!
# Numbers in documents

A document has no infinite numbers: a numeral beyond the range of the format is
a token without a value.  So every number of a token is finite
(`finite_of_tokens?`); reading tokens keeps to these numbers, one token after
another (`Reading.finite_step`); and so do documents and the records that are
read from them (`finite_toWritten`, `Written.finite_record?`).
-/

namespace LoraSchedule.Json

open LoraSchedule.Number

/-! ## Numerals -/

/-- The number that a numeral stands for is finite. -/
def Numeral.IsFinite (n : Numeral) : Prop := n.toDouble.isFinite = true

theorem isFinite_wholeNumeral {negative : Bool} {n : Nat} :
    ∀ numeral ∈ wholeNumeral negative n, numeral.IsFinite := by
  intro numeral h
  unfold wholeNumeral at h
  simp only at h
  split_ifs at h with hnatural hnegative hfloat
  · obtain rfl := Option.some.inj h
    exact Binary.isFinite_ofNat (by simp at hnatural; omega)
  · obtain rfl := Option.some.inj h
    have hfinite : (Binary.ofNat n : Double).isFinite = true :=
      Binary.isFinite_ofNat (by simp at hnegative; omega)
    exact hfinite
  · obtain rfl := Option.some.inj h
    exact hfloat
  · cases h

theorem isFinite_floatNumeral {d : Decimal} : ∀ numeral ∈ floatNumeral d, numeral.IsFinite := by
  intro numeral h
  unfold floatNumeral at h
  simp only at h
  split_ifs at h with hfloat
  · obtain rfl := Option.some.inj h
    exact hfloat
  · cases h

/-! ## Tokens -/

/-- The number of a token, if it has one, is finite. -/
def Token.Finite : Token → Prop
  | .number value => ∀ n ∈ value, n.IsFinite
  | _ => True

theorem finite_of_takeNumber? {text rest : List Char} {token : Token}
    (h : takeNumber? text = some (token, rest)) : token.Finite := by
  unfold takeNumber? at h
  simp only [Option.bind_eq_bind, Option.bind_eq_some_iff] at h
  obtain ⟨-, -, ⟨fraction, afterFraction⟩, -, ⟨exponent, afterExponent⟩, -, htoken⟩ := h
  obtain ⟨rfl, -⟩ := Prod.mk.inj (Option.some.inj htoken)
  show ∀ n ∈ _, Numeral.IsFinite n
  split
  · exact isFinite_wholeNumeral
  · exact isFinite_floatNumeral

theorem finite_of_takeToken? {first : Char} {text rest : List Char} {token : Token}
    (h : takeToken? first text = some (token, rest)) : token.Finite := by
  unfold takeToken? at h
  split at h
  case h_11 => exact finite_of_takeNumber? h
  case h_10 =>
    simp only [Option.bind_eq_bind, Option.bind_eq_some_iff] at h
    obtain ⟨⟨pieces, rest⟩, -, htoken⟩ := h
    obtain ⟨rfl, -⟩ := Prod.mk.inj (Option.some.inj htoken)
    trivial
  all_goals
    obtain ⟨rfl, -⟩ := Prod.mk.inj (Option.some.inj h)
    trivial

/-- **No token of a text stands for an infinite number.** -/
theorem finite_of_tokens? {text : List Char} {tokens : List Token}
    (h : tokens? text = some tokens) : ∀ token ∈ tokens, token.Finite := by
  unfold tokens? at h
  generalize text.length = fuel at h
  induction fuel generalizing text tokens with
  | zero =>
      unfold tokensWithin? at h
      split at h
      · obtain rfl := Option.some.inj h
        exact fun token hmem => absurd hmem List.not_mem_nil
      · cases h
  | succ fuel ih =>
      unfold tokensWithin? at h
      split at h
      · obtain rfl := Option.some.inj h
        exact fun token hmem => absurd hmem List.not_mem_nil
      · simp only [Option.bind_eq_bind, Option.bind_eq_some_iff] at h
        obtain ⟨⟨first, rest⟩, hfirst, others, hothers, htokens⟩ := h
        obtain rfl := Option.some.inj htokens
        intro token hmem
        rcases List.mem_cons.mp hmem with rfl | hrest
        · exact finite_of_takeToken? hfirst
        · exact ih hothers token hrest

/-! ## Values as written -/

namespace Written

mutual

/-- Every number in a value is finite. -/
def Finite : Written → Prop
  | .number value => ∀ n ∈ value, n.IsFinite
  | .array items => ItemsFinite items
  | .object fields => FieldsFinite fields
  | _ => True

def ItemsFinite : List Written → Prop
  | [] => True
  | item :: rest => item.Finite ∧ ItemsFinite rest

def FieldsFinite : List (Option String × Written) → Prop
  | [] => True
  | (_, value) :: rest => value.Finite ∧ FieldsFinite rest

end

theorem itemsFinite_iff {items : List Written} :
    ItemsFinite items ↔ ∀ item ∈ items, item.Finite := by
  induction items with
  | nil => simp [ItemsFinite]
  | cons item rest ih => simp [ItemsFinite, ih]

theorem fieldsFinite_iff {fields : List (Option String × Written)} :
    FieldsFinite fields ↔ ∀ field ∈ fields, field.2.Finite := by
  induction fields with
  | nil => simp [FieldsFinite]
  | cons field rest ih => simp [FieldsFinite, ih]

end Written

/-! ## Reading tokens -/

/-- Every number in an open container is finite. -/
def Frame.Finite : Frame → Prop
  | .array items => ∀ item ∈ items, item.Finite
  | .object fields _ => ∀ field ∈ fields, field.2.Finite

namespace Reading

/-- Every number that has been read is finite. -/
def Finite : Reading → Prop
  | .value outer | .itemOrEnd outer | .keyOrEnd outer => ∀ frame ∈ outer, frame.Finite
  | .nextKey fields outer | .beforeColon fields _ outer | .afterField fields outer =>
      (∀ field ∈ fields, field.2.Finite) ∧ ∀ frame ∈ outer, frame.Finite
  | .afterItem items outer => (∀ item ∈ items, item.Finite) ∧ ∀ frame ∈ outer, frame.Finite
  | .complete written => written.Finite

variable {written : Written} {outer : List Frame}

theorem finite_close (hwritten : written.Finite) (houter : ∀ frame ∈ outer, frame.Finite) :
    (close written outer).Finite := by
  cases outer with
  | nil => exact hwritten
  | cons frame outer =>
      obtain ⟨hframe, hrest⟩ := List.forall_mem_cons.mp houter
      cases frame with
      | array items => exact ⟨List.forall_mem_cons.mpr ⟨hwritten, hframe⟩, hrest⟩
      | object fields key => exact ⟨List.forall_mem_cons.mpr ⟨hwritten, hframe⟩, hrest⟩

theorem finite_start? {token : Token} {reading : Reading} (htoken : token.Finite)
    (houter : ∀ frame ∈ outer, frame.Finite) (h : start? outer token = some reading) :
    reading.Finite := by
  unfold start? at h
  split at h
  case h_7 => cases h
  case h_5 | h_6 =>
    obtain rfl := Option.some.inj h
    exact houter
  case h_3 =>
    obtain rfl := Option.some.inj h
    refine finite_close ?_ houter
    rw [Written.Finite]
    exact htoken
  all_goals
    obtain rfl := Option.some.inj h
    exact finite_close trivial houter

/-- **Reading a token adds no infinite number.** -/
theorem finite_step {reading next : Reading} {token : Token} (hreading : reading.Finite)
    (htoken : token.Finite) (h : step reading token = some next) : next.Finite := by
  unfold step at h
  split at h
  case h_1 => exact finite_start? htoken hreading h
  case h_3 =>
    refine finite_start? htoken (List.forall_mem_cons.mpr ⟨?_, hreading⟩) h
    exact fun item hitem => absurd hitem List.not_mem_nil
  case h_12 => cases h
  all_goals obtain rfl := Option.some.inj h
  case h_2 | h_4 => exact finite_close trivial hreading
  case h_5 => exact ⟨fun field hfield => absurd hfield List.not_mem_nil, hreading⟩
  case h_6 => exact hreading
  case h_7 => exact List.forall_mem_cons.mpr hreading
  case h_8 => exact List.forall_mem_cons.mpr hreading
  case h_9 =>
    refine finite_close (Written.itemsFinite_iff.mpr fun item hitem => ?_) hreading.2
    exact hreading.1 item (List.mem_reverse.mp hitem)
  case h_10 => exact hreading
  case h_11 =>
    refine finite_close (Written.fieldsFinite_iff.mpr fun field hfield => ?_) hreading.2
    exact hreading.1 field (List.mem_reverse.mp hfield)

end Reading

/-- **No number that a text spells is infinite.** -/
theorem Written.finite_ofText? {text : List Char} {written : Written}
    (h : ofText? text = some written) : written.Finite := by
  obtain ⟨tokens, htokens, h⟩ := Option.bind_eq_some_iff.mp h
  have hfinite := finite_of_tokens? htokens
  have hrun : ∀ reading : Reading, reading.Finite →
      ∀ result ∈ tokens.foldlM Reading.step reading, result.Finite := by
    clear htokens h
    induction tokens with
    | nil =>
        intro reading hreading result hresult
        obtain rfl := Option.some.inj hresult
        exact hreading
    | cons token rest ih =>
        obtain ⟨htoken, hrest⟩ := List.forall_mem_cons.mp hfinite
        intro reading hreading result hresult
        obtain ⟨next, hnext, hresult⟩ := Option.bind_eq_some_iff.mp hresult
        exact ih hrest next (Reading.finite_step hreading htoken hnext) result hresult
  unfold ofTokens? at h
  split at h
  · rename_i value hvalue
    obtain rfl := Option.some.inj h
    exact hrun (.value []) (fun frame hframe => absurd hframe List.not_mem_nil) _ hvalue
  · cases h

/-! ## Documents -/

namespace Value

theorem itemsToWritten_eq (items : List Value) : itemsToWritten items = items.map toWritten := by
  induction items with
  | nil => rfl
  | cons item rest ih => rw [itemsToWritten, ih, List.map_cons]

theorem fieldsToWritten_eq (fields : List (String × Value)) :
    fieldsToWritten fields = fields.map fun field => (some field.1, field.2.toWritten) := by
  induction fields with
  | nil => rfl
  | cons field rest ih => rw [fieldsToWritten, ih, List.map_cons]

mutual

/-- **A document has the numbers of the value it is read from.** -/
theorem finite_toWritten : ∀ {written : Written} {value : Value}, written.Finite →
    ofWritten? written = some value → value.toWritten.Finite
  | .null, _, _, h | .bool _, _, _, h => by
      obtain rfl := Option.some.inj h
      trivial
  | .string s, _, _, h => by
      obtain ⟨text, -, rfl⟩ := Option.map_eq_some_iff.mp h
      trivial
  | .number n, _, hfinite, h => by
      obtain ⟨numeral, hnumeral, rfl⟩ := Option.map_eq_some_iff.mp h
      rw [Written.Finite] at hfinite
      rw [toWritten, Written.Finite]
      intro n hn
      obtain rfl := Option.some.inj hn
      exact hfinite _ hnumeral
  | .array items, _, hfinite, h => by
      rw [Written.Finite] at hfinite
      obtain ⟨values, hvalues, rfl⟩ := Option.map_eq_some_iff.mp h
      rw [toWritten, Written.Finite, itemsToWritten_eq, Written.itemsFinite_iff]
      intro item hitem
      obtain ⟨value, hvalue, rfl⟩ := List.mem_map.mp hitem
      exact finite_items hfinite hvalues value hvalue
  | .object fields, _, hfinite, h => by
      rw [Written.Finite] at hfinite
      obtain ⟨entries, hentries, rfl⟩ := Option.map_eq_some_iff.mp h
      rw [toWritten, Written.Finite, fieldsToWritten_eq, Written.fieldsFinite_iff]
      intro field hfield
      obtain ⟨entry, hentry, rfl⟩ := List.mem_map.mp hfield
      exact finite_fields hfinite hentries entry (Dict.mem_of_mem_ofList hentry)

theorem finite_items : ∀ {items : List Written} {values : List Value}, Written.ItemsFinite items →
    ofItems? items = some values → ∀ value ∈ values, value.toWritten.Finite
  | [], _, _, h => by
      obtain rfl := Option.some.inj h
      exact fun value hvalue => absurd hvalue List.not_mem_nil
  | item :: rest, _, hfinite, h => by
      obtain ⟨first, hfirst, h⟩ := Option.bind_eq_some_iff.mp h
      obtain ⟨others, hothers, h⟩ := Option.bind_eq_some_iff.mp h
      obtain rfl := Option.some.inj h
      exact List.forall_mem_cons.mpr
        ⟨finite_toWritten hfinite.1 hfirst, finite_items hfinite.2 hothers⟩

theorem finite_fields : ∀ {fields : List (Option String × Written)}
    {entries : List (String × Value)},
    Written.FieldsFinite fields → ofFields? fields = some entries →
      ∀ entry ∈ entries, entry.2.toWritten.Finite
  | [], _, _, h => by
      obtain rfl := Option.some.inj h
      exact fun entry hentry => absurd hentry List.not_mem_nil
  | (key, field) :: rest, _, hfinite, h => by
      obtain ⟨name, -, h⟩ := Option.bind_eq_some_iff.mp h
      obtain ⟨first, hfirst, h⟩ := Option.bind_eq_some_iff.mp h
      obtain ⟨others, hothers, h⟩ := Option.bind_eq_some_iff.mp h
      obtain rfl := Option.some.inj h
      exact List.forall_mem_cons.mpr
        ⟨finite_toWritten hfinite.1 hfirst, finite_fields hfinite.2 hothers⟩

end

theorem finite_ofText? {text : List Char} {value : Value} (h : ofText? text = some value) :
    value.toWritten.Finite := by
  obtain ⟨written, hwritten, hvalue⟩ := Option.bind_eq_some_iff.mp h
  unfold ofNested? at hvalue
  split at hvalue
  · exact finite_toWritten (Written.finite_ofText? hwritten) hvalue
  · cases hvalue

theorem finite_of_mem_array? {document item : Value} {items : List Value}
    (hfinite : document.toWritten.Finite) (h : document.array? = some items)
    (hitem : item ∈ items) : item.toWritten.Finite := by
  unfold array? at h
  split at h
  · obtain rfl := Option.some.inj h
    rw [toWritten, Written.Finite, itemsToWritten_eq, Written.itemsFinite_iff] at hfinite
    exact hfinite _ (List.mem_map_of_mem hitem)
  · cases h

end Value

/-! ## Records -/

namespace Written

theorem mem_of_uniqueField? {name : String} {fields : List (String × Written)} {value : Written}
    (h : uniqueField? name fields = some (some value)) : ∃ field ∈ fields, field.2 = value := by
  unfold uniqueField? at h
  split at h
  · cases h
  · rename_i field hfield
    obtain rfl := Option.some.inj (Option.some.inj h)
    exact ⟨field, (List.mem_filter.mp (hfield ▸ List.mem_singleton_self field)).1, rfl⟩
  · cases h

/-- The fields of a record are parts of the value it is read from. -/
theorem finite_record? {names : List String} {written : Written} {fields : List (Option Written)}
    (hfinite : written.Finite) (h : written.record? names = some fields) :
    ∀ field ∈ fields, ∀ value ∈ field, value.Finite := by
  intro field hfield value hvalue
  unfold record? at h
  split at h
  · rename_i entries
    rw [Written.Finite, fieldsFinite_iff] at hfinite
    obtain ⟨keyed, hkeyed, h⟩ := Option.bind_eq_some_iff.mp h
    obtain ⟨name, -, hname⟩ := exists_of_mem_mapM h hfield
    obtain ⟨part, hpart, rfl⟩ := mem_of_uniqueField? (hname.trans (congrArg some hvalue))
    obtain ⟨entry, hentry, hread⟩ := exists_of_mem_mapM hkeyed hpart
    obtain ⟨key, -, rfl⟩ := Option.map_eq_some_iff.mp hread
    exact hfinite entry hentry
  · rename_i items
    rw [Written.Finite, itemsFinite_iff] at hfinite
    split at h
    · obtain rfl := Option.some.inj h
      rcases List.mem_append.mp hfield with hitem | hmissing
      · obtain ⟨item, hmem, rfl⟩ := List.mem_map.mp hitem
        obtain rfl := Option.some.inj hvalue
        exact hfinite item hmem
      · rw [(List.mem_replicate.mp hmissing).2] at hvalue
        cases hvalue
    · cases h
  · cases h

theorem isFinite_double? {written : Written} {x : Double} (hfinite : written.Finite)
    (h : written.double? = some x) : x.isFinite = true := by
  unfold double? at h
  split at h
  · rename_i n
    obtain ⟨numeral, hnumeral, rfl⟩ := Option.map_eq_some_iff.mp h
    rw [Written.Finite] at hfinite
    exact hfinite numeral hnumeral
  · cases h

end Written

end LoraSchedule.Json
