import LoraSchedule.Proofs.Json.Numbers
import LoraSchedule.Proofs.Schedule.Reparse

/-!
# The name and the strengths of a line

Whatever the points, weights and preset of an entry are, its line starts with
its name and its strengths, and these are read back as long as the name fits
into its field and the line into a line (`Entry.FitsLine`, `ofLines_renderChars`).
The later fields do not change them, and the lines of a text are read each by
itself (`parse_renderAll_eq_flatMap`).

The strengths of every entry that is read, from lines or from a document, are
finite (`finiteStrengths_of_mem_parse`).
-/

namespace LoraSchedule

open LoraSchedule.Number
open LoraSchedule.Json (Value Written)
open LoraSchedule.Text

/-! ## Numbers of any kind -/

/-- What is not finite is written as a word. -/
theorem formatValue_of_not_isFinite {x : Double} (hx : x.isFinite = false) :
    formatValue x ∈ ["NaN".toList, "inf".toList, "-inf".toList] := by
  rcases Binary.kind_cases x with hnan | hinfinite | hfinite
  · simp [formatValue, Binary.toFixed, hnan]
  · have hnan : x.isNaN = false := by
      simp only [Binary.isInfinite, Binary.isNaN, decide_eq_true_eq, decide_eq_false_iff_not] at *
      omega
    cases hsign : x.negative <;>
      simp [formatValue, Binary.toFixed, hnan, hinfinite, Binary.signText, hsign]
  · exact absurd (hx.symm.trans hfinite) Bool.false_ne_true

/-- Only letters stand in the text of a number besides the characters of numerals. -/
theorem isNumeralChar_or_isAlpha {c : Char} {x : Double} (h : c ∈ formatValue x) :
    isNumeralChar c = true ∨ c.isAlpha = true := by
  cases hfinite : x.isFinite with
  | true => exact Or.inl (isNumeralChar_of_mem_formatValue hfinite h)
  | false =>
      have hwords : ∀ word ∈ ["NaN".toList, "inf".toList, "-inf".toList],
          (word.all fun c => isNumeralChar c || c.isAlpha) = true := by
        decide
      have hword := hwords _ (formatValue_of_not_isFinite hfinite)
      exact Bool.or_eq_true _ _ ▸ List.all_eq_true.mp hword c h

/-- No number, infinite ones and NaN included, is written with a character that
ends a field or a line. -/
theorem end_not_mem_formatValue {c : Char} (hc : c = ':' ∨ c = '\n') (x : Double) :
    c ∉ formatValue x := by
  intro hmem
  have hchar := isNumeralChar_or_isAlpha hmem
  rcases hc with rfl | rfl <;> exact absurd hchar (by decide)

theorem end_not_mem_formatPoints {c : Char} (hc : c = ':' ∨ c = '\n') (points : List KeyPoint) :
    c ∉ formatPoints points := by
  rw [formatPoints_eq]
  refine not_mem_joinWith (by rcases hc with rfl | rfl <;> decide) ?_
  intro text htext
  obtain ⟨p, -, rfl⟩ := List.mem_map.mp htext
  rw [pointText, List.mem_append, List.mem_cons, not_or, not_or]
  exact ⟨end_not_mem_formatValue hc p.x, by rcases hc with rfl | rfl <;> decide,
    end_not_mem_formatValue hc p.y⟩

/-! ## Fields after the strengths -/

/-- An entry has the name and the strengths of another. -/
structure Entry.SameHead (e head : Entry) : Prop where
  name : e.name = head.name
  modelStrength : e.modelStrength = head.modelStrength
  clipStrength : e.clipStrength = head.clipStrength

namespace Line

theorem sameHead_applyField (e : Entry) (field : List Char) : (applyField e field).SameHead e := by
  unfold applyField
  split
  · exact ⟨rfl, rfl, rfl⟩
  · split
    · exact ⟨rfl, rfl, rfl⟩
    · split <;> exact ⟨rfl, rfl, rfl⟩

/-- **The fields after the strengths do not change the name and the strengths**,
in either encoding. -/
theorem sameHead_entryOfFields (fields : List (List Char)) :
    (entryOfFields fields).SameHead (headEntry fields) := by
  have hfold : ∀ (rest : List (List Char)) (e : Entry), (rest.foldl applyField e).SameHead e := by
    intro rest
    induction rest with
    | nil => exact fun e => ⟨rfl, rfl, rfl⟩
    | cons field rest ih =>
        intro e
        have hrest := ih (applyField e field)
        have hfirst := sameHead_applyField e field
        exact ⟨hrest.name.trans hfirst.name, hrest.modelStrength.trans hfirst.modelStrength,
          hrest.clipStrength.trans hfirst.clipStrength⟩
  unfold entryOfFields Entry.sorted
  cases Encoding.ofFields fields with
  | legacyRamp =>
      simp only
      split <;> exact ⟨rfl, rfl, rfl⟩
  | modern =>
      obtain ⟨hname, hmodel, hclip⟩ := hfold ((fields.drop 3).map trim) (headEntry fields)
      simp only
      split <;> exact ⟨hname, hmodel, hclip⟩

end Line

/-! ## Reading a line back -/

/-- The texts of an entry fit into their places: the name into a field, and all
of them into a line. -/
structure Entry.FitsLine (e : Entry) : Prop where
  colon : ':' ∉ e.name.toList
  name : '\n' ∉ e.name.toList
  extra : '\n' ∉ e.renderExtra

instance (e : Entry) : Decidable e.FitsLine :=
  decidable_of_iff (':' ∉ e.name.toList ∧ '\n' ∉ e.name.toList ∧ '\n' ∉ e.renderExtra)
    ⟨fun h => ⟨h.1, h.2.1, h.2.2⟩, fun h => ⟨h.colon, h.name, h.extra⟩⟩

namespace Entry

variable {e : Entry}

/-- The curve that an entry is written with. -/
def writtenPoints (e : Entry) : List KeyPoint := if e.points = [] then flatCurve else e.points

theorem renderChars_eq_body (e : Entry) :
    e.renderChars = opening ++ (e.name.toList ++ ':' :: (formatValue e.modelStrength ++ ':' ::
      (formatValue e.clipStrength ++ ':' :: (formatPoints e.writtenPoints ++ e.renderExtra)))) ++
        closing := by
  simp [renderChars, writtenPoints]

theorem last_renderChars (e : Entry) : e.renderChars.getLast? = some '>' := by
  rw [renderChars_eq_body, List.getLast?_append_of_ne_nil _ (by decide)]
  decide

theorem trimmed_line (e : Entry) : Trimmed e.renderChars := by
  constructor
  · intro c hc
    obtain ⟨rest, hrest⟩ := e.exists_renderChars_eq
    rw [hrest] at hc
    obtain rfl := Option.some.inj hc
    decide
  · intro c hc
    rw [last_renderChars] at hc
    obtain rfl := Option.some.inj hc
    decide

/-- The extra field is a field of its own. -/
theorem splitOn_points_renderExtra (e : Entry) :
    ∃ more, (formatPoints e.writtenPoints ++ e.renderExtra).splitOn ':' =
      formatPoints e.writtenPoints :: more := by
  have hpoints : ':' ∉ formatPoints e.writtenPoints := end_not_mem_formatPoints (Or.inl rfl) _
  have hextra : e.renderExtra = [] ∨ ∃ field, e.renderExtra = ':' :: field := by
    unfold renderExtra
    split
    · exact Or.inr ⟨_, rfl⟩
    · split
      · exact Or.inl rfl
      · exact Or.inr ⟨_, rfl⟩
  rcases hextra with hnil | ⟨field, hfield⟩
  · rw [hnil, List.append_nil, List.splitOn_eq_singleton hpoints]
    exact ⟨[], rfl⟩
  · rw [hfield, List.splitOn_append_cons_self_of_not_mem hpoints]
    exact ⟨_, rfl⟩

/-- A line whose name is one field has its strengths and its points in the next
ones. -/
theorem exists_fields?_renderChars (hname : ':' ∉ e.name.toList) :
    ∃ more, Line.fields? e.renderChars = some (e.name.toList :: formatValue e.modelStrength ::
      formatValue e.clipStrength :: formatPoints e.writtenPoints :: more) := by
  obtain ⟨more, hmore⟩ := e.splitOn_points_renderExtra
  have hvalue : ∀ x : Double, ':' ∉ formatValue x := end_not_mem_formatValue (Or.inl rfl)
  refine ⟨more, ?_⟩
  rw [Line.fields?, trim_eq_self e.trimmed_line, renderChars_eq_body, List.append_assoc,
    afterPrefix?_append]
  simp only [Option.bind_eq_bind, Option.bind_some, beforeSuffix?_append]
  rw [List.splitOn_append_cons_self_of_not_mem hname,
    List.splitOn_append_cons_self_of_not_mem (hvalue _),
    List.splitOn_append_cons_self_of_not_mem (hvalue _), hmore]
  rfl

/-- **The name and the finite strengths of a line are read back**, whatever else
it holds. -/
theorem exists_read?_renderChars (hname : ':' ∉ e.name.toList) :
    ∃ e', Line.read? e.renderChars = some e' ∧ e'.name = e.name ∧
      (e.modelStrength.isFinite = true → e'.modelStrength = Line.quantize e.modelStrength) ∧
      (e.clipStrength.isFinite = true → e'.clipStrength = Line.quantize e.clipStrength) := by
  obtain ⟨more, hfields⟩ := exists_fields?_renderChars hname
  have hhead := Line.sameHead_entryOfFields (e.name.toList :: formatValue e.modelStrength ::
    formatValue e.clipStrength :: formatPoints e.writtenPoints :: more)
  refine ⟨_, by rw [Line.read?, hfields, Option.map_some], ?_, ?_, ?_⟩
  · rw [hhead.name]
    simp [Line.headEntry, ofName]
  · intro hmodel
    rw [hhead.modelStrength]
    simp [Line.headEntry, readNumber?_formatValue hmodel]
  · intro hclip
    rw [hhead.clipStrength]
    simp [Line.headEntry, readNumber?_formatValue hclip]

theorem isLine_of_fitsLine (he : e.FitsLine) : IsLine e.renderChars := by
  refine ⟨e.renderChars_ne_nil, ?_, by rw [last_renderChars]; decide⟩
  have hvalue : ∀ x : Double, '\n' ∉ formatValue x := end_not_mem_formatValue (Or.inr rfl)
  have hpoints : '\n' ∉ formatPoints e.writtenPoints := end_not_mem_formatPoints (Or.inr rfl) _
  have hopening : '\n' ∉ opening := by decide
  have hclosing : '\n' ∉ closing := by decide
  rw [renderChars_eq_body]
  simp only [List.mem_append, List.mem_cons, not_or]
  refine ⟨⟨hopening, he.name, by decide, hvalue _, by decide, hvalue _, by decide, hpoints,
    he.extra⟩, hclosing⟩

end Entry

/-! ## Reading lines one by one -/

/-- A text that does not end with a separator ends with the end of its last
part. -/
theorem exists_splitOn_eq_concat {separator c : Char} {text : List Char}
    (hlast : text.getLast? = some c) (hc : c ≠ separator) :
    ∃ before last, text.splitOn separator = before ++ [last] ∧ last.getLast? = some c := by
  by_cases hmem : separator ∈ text.reverse
  · obtain ⟨after, before, hsplit, hnot⟩ := List.eq_append_cons_of_mem hmem
    have htext : text = before.reverse ++ separator :: after.reverse := by
      simpa using congrArg List.reverse hsplit
    have hafter : separator ∉ after.reverse := by simpa using hnot
    refine ⟨before.reverse.splitOn separator, after.reverse, ?_, ?_⟩
    · rw [htext, List.splitOn_append_cons_self, List.splitOn_eq_singleton hafter]
    · rw [htext, List.getLast?_append_of_ne_nil _ (List.cons_ne_nil _ _)] at hlast
      by_cases hnil : after.reverse = []
      · rw [hnil] at hlast
        exact absurd (Option.some.inj hlast).symm hc
      · rwa [List.getLast?_cons_of_ne_nil hnil] at hlast
  · have hnot : separator ∉ text := by simpa using hmem
    exact ⟨[], text, List.splitOn_eq_singleton hnot, hlast⟩

/-- A text that ends as a line of an entry does has the parts between line feeds
for lines. -/
theorem lines_eq_map {text : List Char} (hlast : text.getLast? = some '>') :
    lines text = (text.splitOn '\n').map dropCarriageReturn := by
  obtain ⟨before, last, hparts, hend⟩ := exists_splitOn_eq_concat hlast (by decide : '>' ≠ '\n')
  have hmem : last ∈ text.splitOn '\n' := by simp [hparts]
  have hline : IsLine last := by
    refine ⟨?_, (mem_splitOn hmem).1, by rw [hend]; decide⟩
    rintro rfl
    cases hend
  simp [lines, hparts, dropCarriageReturn_eq_self hline, hline.ne_nil]

theorem last_joinWith {rows : List (List Char)} (hne : rows ≠ [])
    (h : ∀ row ∈ rows, row.getLast? = some '>') :
    (joinWith ['\n'] rows).getLast? = some '>' := by
  induction rows with
  | nil => exact absurd rfl hne
  | cons row rest ih =>
      obtain ⟨hrow, hrest⟩ := List.forall_mem_cons.mp h
      cases rest with
      | nil => exact hrow
      | cons next others =>
          have hjoined := ih (List.cons_ne_nil _ _) hrest
          have hnonempty : joinWith ['\n'] (next :: others) ≠ [] := by
            intro hnil
            rw [hnil] at hjoined
            cases hjoined
          rw [joinWith_cons_cons, List.getLast?_append_of_ne_nil _ hnonempty, hjoined]

/-- Rows may hold line feeds: each is cut into lines by itself. -/
theorem lines_joinWith_eq_flatMap {rows : List (List Char)}
    (h : ∀ row ∈ rows, row.getLast? = some '>') :
    lines (joinWith ['\n'] rows) = rows.flatMap lines := by
  induction rows with
  | nil => rfl
  | cons row rest ih =>
      obtain ⟨hrow, hrest⟩ := List.forall_mem_cons.mp h
      cases rest with
      | nil => simp
      | cons next others =>
          have hlast := last_joinWith (List.cons_ne_nil _ _) hrest
          have hsplit : joinWith ['\n'] (row :: next :: others) =
              row ++ '\n' :: joinWith ['\n'] (next :: others) := by
            simp [joinWith_cons_cons]
          rw [lines_eq_map (last_joinWith (List.cons_ne_nil _ _) h), hsplit,
            List.splitOn_append_cons_self, List.map_append, ← lines_eq_map hrow,
            ← lines_eq_map hlast, ih hrest, ← List.flatMap_cons]

namespace Schedule

/-- **The lines of entries are read each by itself**, also where the text of an
entry breaks its line. -/
theorem parse_renderAll_eq_flatMap (entries : List Entry) :
    parse (Entry.renderAll entries) = entries.flatMap fun e => ofLines e.renderChars := by
  have hrows : ∀ row ∈ entries.map Entry.renderChars, row.getLast? = some '>' := by
    intro row hrow
    obtain ⟨e, -, rfl⟩ := List.mem_map.mp hrow
    exact e.last_renderChars
  simp only [parse, jsonItems?_renderAll, ofLines]
  rw [Entry.renderAll, String.toList_ofList, lines_joinWith_eq_flatMap hrows,
    List.filterMap_flatMap, List.flatMap_map]

/-- The line of an entry that fits is read as one entry, with its name and its
finite strengths rounded. -/
theorem ofLines_renderChars {e : Entry} (he : e.FitsLine) :
    ∃ e', ofLines e.renderChars = [e'] ∧ e'.name = e.name ∧
      (e.modelStrength.isFinite = true → e'.modelStrength = Line.quantize e.modelStrength) ∧
      (e.clipStrength.isFinite = true → e'.clipStrength = Line.quantize e.clipStrength) := by
  obtain ⟨e', hread, hsame⟩ := Entry.exists_read?_renderChars he.colon
  have hline : lines e.renderChars = [e.renderChars] := by
    have hrows : ∀ row ∈ [e.renderChars], IsLine row := by
      intro row hrow
      obtain rfl := List.mem_singleton.mp hrow
      exact Entry.isLine_of_fitsLine he
    exact lines_joinWith hrows
  refine ⟨e', ?_, hsame⟩
  rw [ofLines, hline, List.filterMap_cons_some hread, List.filterMap_nil]

end Schedule

/-! ## Entries that were read -/

/-- The strengths of an entry are finite. -/
def Entry.FiniteStrengths (e : Entry) : Prop :=
  e.modelStrength.isFinite = true ∧ e.clipStrength.isFinite = true

theorem finiteStrengths_entryOfFields (fields : List (List Char)) :
    (Line.entryOfFields fields).FiniteStrengths := by
  have hhead := Line.sameHead_entryOfFields fields
  have hlegible := Line.legible_headEntry fields
  exact ⟨hhead.modelStrength ▸ hlegible.modelStrength, hhead.clipStrength ▸ hlegible.clipStrength⟩

theorem finite_orDefault {standard x : Double} {field : Option Written}
    (hstandard : standard.isFinite = true) (hfield : ∀ value ∈ field, value.Finite)
    (h : Written.orDefault standard Written.double? field = some x) : x.isFinite = true := by
  cases field with
  | none =>
      obtain rfl := Option.some.inj h
      exact hstandard
  | some value => exact Written.isFinite_double? (hfield value rfl) h

theorem finiteStrengths_ofWritten? {written : Written} {e : Entry} (hfinite : written.Finite)
    (h : Entry.ofWritten? written = some e) : e.FiniteStrengths := by
  unfold Entry.ofWritten? at h
  obtain ⟨fields, hfields, h⟩ := Option.bind_eq_some_iff.mp h
  have hparts := Written.finite_record? hfinite hfields
  split at h
  · rename_i name model clip points enabled architecture vectors preset
    simp only [Option.bind_eq_bind, Option.bind_eq_some_iff] at h
    obtain ⟨_, -, m, hm, c, hc, _, -, _, -, _, -, _, -, _, -, h⟩ := h
    obtain rfl := Option.some.inj h
    have hfull : (Binary.ofNat 1 : Double).isFinite = true := Binary.isFinite_ofNat (by decide)
    exact ⟨finite_orDefault hfull (hparts model (by simp)) hm,
      finite_orDefault hfull (hparts clip (by simp)) hc⟩
  · cases h

/-- The documents of a JSON list have finite numbers only. -/
theorem Schedule.finite_of_jsonItems? {text : List Char} {items : List Value}
    (h : Schedule.jsonItems? text = some items) : ∀ item ∈ items, item.toWritten.Finite := by
  unfold Schedule.jsonItems? at h
  simp only at h
  split at h
  · obtain ⟨document, hread, harray⟩ := Option.bind_eq_some_iff.mp h
    exact fun item hitem => Value.finite_of_mem_array? (Value.finite_ofText? hread) harray hitem
  · cases h

/-- **The strengths of every entry that is read are finite.** -/
theorem finiteStrengths_of_mem_parse {text : String} {e : Entry} (he : e ∈ Schedule.parse text) :
    e.FiniteStrengths := by
  unfold Schedule.parse at he
  split at he
  · rename_i items hitems
    obtain ⟨item, hitem, hentry⟩ := List.mem_filterMap.mp he
    obtain ⟨read, hwritten, rfl⟩ := Option.map_eq_some_iff.mp hentry
    -- sorting the points leaves the strengths as they are
    have hfinite : read.FiniteStrengths :=
      finiteStrengths_ofWritten? (Schedule.finite_of_jsonItems? hitems item hitem) hwritten
    exact hfinite
  · obtain ⟨line, -, hread⟩ := List.mem_filterMap.mp he
    obtain ⟨fields, -, rfl⟩ := Option.map_eq_some_iff.mp hread
    exact finiteStrengths_entryOfFields fields

section Lines

variable {line : List Char} {fields : List (List Char)}

/-- A character that is not in a line, or ends a field, is in no text of the entry
that the line is read as, in either encoding. -/
theorem avoids_of_fields? {c : Char} (hfields : Line.fields? line = some fields)
    (hline : c = ':' ∨ c ∉ line) : (Line.entryOfFields fields).Avoids c := by
  cases hencoding : Line.Encoding.ofFields fields with
  | modern => exact Line.avoids_entryOfFields hfields hencoding hline
  | legacyRamp =>
      have hhead : (Line.headEntry fields).Avoids c :=
        Line.avoids_headEntry fun field => Line.not_mem_of_mem_fields? hfields hline
      simp only [Line.entryOfFields, hencoding, Entry.sorted]
      split <;> exact ⟨hhead.name, hhead.key, hhead.preset⟩

theorem lineFeed_not_mem_renderExtra {e : Entry} (he : e.Avoids '\n') : '\n' ∉ e.renderExtra := by
  unfold Entry.renderExtra
  split
  · rename_i id hactive
    rw [List.mem_append, not_or]
    exact ⟨by decide, he.preset id (Entry.activePreset?_eq_some_iff.mp hactive).1⟩
  · split
    · exact List.not_mem_nil
    · rw [List.mem_append, not_or, formatVectors_eq]
      refine ⟨by decide, not_mem_joinWith (by decide) ?_⟩
      intro text htext
      obtain ⟨weight, hweight, rfl⟩ := List.mem_map.mp htext
      rw [weightText, List.mem_append, List.mem_cons, not_or, not_or]
      exact ⟨he.key weight hweight, by decide, end_not_mem_formatValue (Or.inr rfl) weight.2⟩

/-- Whatever a line is read as fits into a line. -/
theorem fitsLine_of_mem_ofLines {text : List Char} {e : Entry} (he : e ∈ Schedule.ofLines text) :
    e.FitsLine := by
  obtain ⟨line, hline, hread⟩ := List.mem_filterMap.mp he
  obtain ⟨fields, hfields, rfl⟩ := Option.map_eq_some_iff.mp hread
  have hlineFeed := avoids_of_fields? hfields (Or.inr (lineFeed_not_mem_of_mem_lines hline))
  exact ⟨(avoids_of_fields? hfields (Or.inl rfl)).name, hlineFeed.name,
    lineFeed_not_mem_renderExtra hlineFeed⟩

/-- What a text of lines is read as fits into lines again. -/
theorem fitsLine_of_mem_parse {text : String} (htext : Schedule.jsonItems? text.toList = none)
    {e : Entry} (he : e ∈ Schedule.parse text) : e.FitsLine := by
  simp only [Schedule.parse, htext] at he
  exact fitsLine_of_mem_ofLines he

end Lines

end LoraSchedule
