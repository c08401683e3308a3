import LoraSchedule.Proofs.Schedule.FieldText

/-!
# Reading what was written

A settled entry is written as a line that is read, in the modern encoding, as
the entry rounded to four decimals (`read?_renderChars`); and the rounded entry
is written as the same line (`renderChars_rounded`).  Whatever a modern line is
read as is settled, so writing after reading is stable from the first time on
(`reparse_stable`), line by line and for whole texts.
-/

namespace LoraSchedule

open LoraSchedule.Number
open LoraSchedule.Text

/-! ## The entry that is read back -/

/-- The entry that the line of an entry is read as.  Weights are not written
next to an active preset, nor is a preset that is not active. -/
def Entry.rounded (e : Entry) : Entry where
  name := e.name
  modelStrength := Line.quantize e.modelStrength
  clipStrength := Line.quantize e.clipStrength
  points := e.points.map KeyPoint.rounded
  enabled := true
  architecture := .unknown
  vectors := if e.activePreset?.isSome then ∅ else e.vectors.map fun _ => Line.quantize
  preset := e.activePreset?

/-- The encoding of a line that has the form of an entry. -/
def Line.encoding? (line : List Char) : Option Line.Encoding :=
  (Line.fields? line).map Line.Encoding.ofFields

namespace Entry

variable {e : Entry}

theorem activePreset?_eq_some_iff {id : String} :
    e.activePreset? = some id ↔ e.preset = some id ∧ id ≠ "" ∧ id ≠ Preset.customId := by
  rw [activePreset?, Option.filter_eq_some_iff, decide_eq_true_eq]

@[simp] theorem activePreset?_rounded : e.rounded.activePreset? = e.activePreset? := by
  rw [activePreset?, rounded, activePreset?, Option.filter_filter]
  simp only [Bool.and_self]

/-! ## The fields of a line -/

/-- The fields after the points: there is one at most. -/
def extraFields (e : Entry) : List (List Char) :=
  match e.activePreset? with
  | some id => ["preset=".toList ++ id.toList]
  | none => if e.vectors.isEmpty then [] else ["vectors=".toList ++ formatVectors e.vectors]

/-- The fields that the line of an entry with points consists of. -/
def lineFields (e : Entry) : List (List Char) :=
  [e.name.toList, formatValue e.modelStrength, formatValue e.clipStrength, formatPoints e.points] ++
    e.extraFields

/-- The three ways in which a line can end. -/
theorem extraFields_cases (e : Entry) :
    (∃ id, e.activePreset? = some id ∧ e.extraFields = ["preset=".toList ++ id.toList] ∧
        e.renderExtra = ':' :: ("preset=".toList ++ id.toList)) ∨
      (e.activePreset? = none ∧ e.vectors.isEmpty = true ∧ e.extraFields = [] ∧
        e.renderExtra = []) ∨
      (e.activePreset? = none ∧ e.vectors.isEmpty = false ∧
        e.extraFields = ["vectors=".toList ++ formatVectors e.vectors] ∧
        e.renderExtra = ':' :: ("vectors=".toList ++ formatVectors e.vectors)) := by
  cases hactive : e.activePreset? with
  | some id =>
      exact Or.inl ⟨id, rfl, by simp [extraFields, hactive], by simp [renderExtra, hactive]⟩
  | none =>
      cases hempty : e.vectors.isEmpty with
      | true => simp [extraFields, renderExtra, hactive, hempty]
      | false => simp [extraFields, renderExtra, hactive, hempty]

theorem renderChars_eq (hne : e.points ≠ []) :
    e.renderChars = opening ++ joinWith [':'] e.lineFields ++ closing := by
  rw [renderChars, if_neg hne, lineFields]
  rcases e.extraFields_cases with ⟨id, -, hfields, htext⟩ | ⟨-, -, hfields, htext⟩ |
    ⟨-, -, hfields, htext⟩
  all_goals
    rw [hfields, htext]
    simp [joinWith_cons_cons]

theorem trimmed_of_mem_extraFields (he : e.Legible) {field : List Char}
    (hfield : field ∈ e.extraFields) : Trimmed field := by
  rcases e.extraFields_cases with ⟨id, hactive, hfields, -⟩ | ⟨-, -, hfields, -⟩ |
    ⟨-, -, hfields, -⟩
  · rw [hfields, List.mem_singleton] at hfield
    have hword : Trimmed "preset".toList := trimmed_of_all (by decide)
    exact hfield ▸ hword.append_cons (by decide)
      (he.trimmed id (activePreset?_eq_some_iff.mp hactive).1)
  · exact absurd hfield (hfields ▸ List.not_mem_nil)
  · rw [hfields, List.mem_singleton] at hfield
    have hword : Trimmed "vectors".toList := trimmed_of_all (by decide)
    exact hfield ▸ hword.append_cons (by decide) (trimmed_formatVectors he.vectors)

/-- Characters that no text of an entry holds are not in the fields, either,
unless the fields need them for numbers and separators. -/
theorem not_mem_lineFields (he : e.Legible) {c : Char} (havoids : e.Avoids c)
    (hc : c = ':' ∨ c = '\n') {field : List Char} (hfield : field ∈ e.lineFields) : c ∉ field := by
  have hnumeral : isNumeralChar c = false := by rcases hc with rfl | rfl <;> decide
  have hcomma : c ≠ ',' := by rcases hc with rfl | rfl <;> decide
  have hsemicolon : c ≠ ';' := by rcases hc with rfl | rfl <;> decide
  have hassignment : c ≠ '=' := by rcases hc with rfl | rfl <;> decide
  have hpreset : c ∉ "preset=".toList := by rcases hc with rfl | rfl <;> decide
  have hvectors : c ∉ "vectors=".toList := by rcases hc with rfl | rfl <;> decide
  rw [lineFields, List.mem_append] at hfield
  rcases hfield with hfront | hextra
  · simp only [List.mem_cons, List.not_mem_nil, or_false] at hfront
    rcases hfront with rfl | rfl | rfl | rfl
    · exact havoids.name
    · exact not_mem_formatValue he.modelStrength hnumeral
    · exact not_mem_formatValue he.clipStrength hnumeral
    · exact not_mem_formatPoints he.points hnumeral hcomma hsemicolon
  · rcases e.extraFields_cases with ⟨id, hactive, hfields, -⟩ | ⟨-, -, hfields, -⟩ |
      ⟨-, -, hfields, -⟩
    · rw [hfields, List.mem_singleton] at hextra
      rw [hextra, List.mem_append, not_or]
      exact ⟨hpreset, havoids.preset id (activePreset?_eq_some_iff.mp hactive).1⟩
    · exact absurd hextra (hfields ▸ List.not_mem_nil)
    · rw [hfields, List.mem_singleton] at hextra
      rw [hextra, List.mem_append, not_or]
      exact ⟨hvectors,
        not_mem_formatVectors he.vectors havoids.key hnumeral hassignment hsemicolon⟩

/-! ## Reading a line back -/

theorem trimmed_renderChars (he : e.Settled) : Trimmed e.renderChars := by
  rw [renderChars_eq he.points_ne_nil]
  constructor
  · intro c hc
    obtain rfl : '<' = c := Option.some.inj hc
    decide
  · intro c hc
    rw [List.getLast?_append_of_ne_nil _ (by decide)] at hc
    obtain rfl : '>' = c := Option.some.inj hc
    decide

theorem fields?_renderChars (he : e.Settled) : Line.fields? e.renderChars = some e.lineFields := by
  have hsplit : (joinWith [':'] e.lineFields).splitOn ':' = e.lineFields :=
    splitOn_joinWith (by simp [lineFields]) fun field =>
      not_mem_lineFields he.toLegible he.toAvoids (Or.inl rfl)
  rw [Line.fields?, trim_eq_self (trimmed_renderChars he), renderChars_eq he.points_ne_nil,
    List.append_assoc, afterPrefix?_append]
  simp [hsplit]

theorem encoding_lineFields (he : e.Settled) : Line.Encoding.ofFields e.lineFields = .modern := by
  have hfourth : e.lineFields[3]? = some (formatPoints e.points) := rfl
  rw [Line.Encoding.ofFields, hfourth]
  exact if_neg fun hramp => hramp.2.2 (Or.inr (Or.inl (comma_mem_formatPoints he.points_ne_nil)))

/-- The field of the points adds the points. -/
theorem applyField_formatPoints (he : e.Settled) (head : Entry) :
    Line.applyField head (formatPoints e.points) =
      { head with points := head.points ++ e.points.map KeyPoint.rounded } := by
  have hpreset : afterPrefix? "preset=".toList (formatPoints e.points) = none :=
    afterPrefix?_eq_none (by decide : 'p' ∈ "preset=".toList)
      (not_mem_formatPoints he.points (by decide) (by decide) (by decide))
  have hvectors : afterPrefix? "vectors=".toList (formatPoints e.points) = none :=
    afterPrefix?_eq_none (by decide : 'v' ∈ "vectors=".toList)
      (not_mem_formatPoints he.points (by decide) (by decide) (by decide))
  simp only [Line.applyField, hpreset, hvectors, comma_mem_formatPoints he.points_ne_nil, if_true,
    readPoints_formatPoints he.points_ne_nil he.points, he.sorted]

/-- The last field adds the preset or the weights. -/
theorem foldl_applyField_extraFields (he : e.Legible) {head : Entry} (hvectors : head.vectors = ∅)
    (hpreset : head.preset = none) :
    e.extraFields.foldl Line.applyField head =
      { head with vectors := e.rounded.vectors, preset := e.activePreset? } := by
  rcases e.extraFields_cases with ⟨id, hactive, hfields, -⟩ | ⟨hactive, hempty, hfields, -⟩ |
    ⟨hactive, hempty, hfields, -⟩
  · have hid := he.trimmed id (activePreset?_eq_some_iff.mp hactive).1
    have hread : Line.applyField head ("preset=".toList ++ id.toList) =
        { head with preset := some id } := by
      simp only [Line.applyField, afterPrefix?_append, trim_eq_self hid, String.ofList_toList]
    rw [hfields, List.foldl_cons, List.foldl_nil, hread]
    simp [rounded, hactive, hvectors]
  · have hnone : e.vectors.map (fun _ => Line.quantize) = ∅ := by
      refine Dict.ext_toList ?_
      have hnil : e.vectors.toList = [] := by simpa [Dict.isEmpty] using hempty
      simp only [Dict.map, hnil, List.map_nil]
      rfl
    rw [hfields, List.foldl_nil]
    simp [rounded, hactive, hnone, ← hvectors, ← hpreset]
  · have hread : Line.applyField head ("vectors=".toList ++ formatVectors e.vectors) =
        { head with vectors := e.vectors.map fun _ => Line.quantize } := by
      have hnot : afterPrefix? "preset=".toList ("vectors=".toList ++ formatVectors e.vectors) =
          none := rfl
      simp only [Line.applyField, hnot, afterPrefix?_append, hvectors,
        addVectors_formatVectors hempty he.vectors]
    rw [hfields, List.foldl_cons, List.foldl_nil, hread]
    simp [rounded, hactive, hpreset]

theorem headEntry_lineFields (he : e.Settled) :
    Line.headEntry e.lineFields = { Entry.ofName e.name with
      modelStrength := Line.quantize e.modelStrength
      clipStrength := Line.quantize e.clipStrength } := by
  simp [Line.headEntry, lineFields, ofName, readNumber?_formatValue he.modelStrength,
    readNumber?_formatValue he.clipStrength]

theorem entryOfFields_lineFields (he : e.Settled) :
    Line.entryOfFields e.lineFields = e.rounded := by
  have htrim : (e.lineFields.drop 3).map trim = formatPoints e.points :: e.extraFields := by
    have hself : (formatPoints e.points :: e.extraFields).map trim =
        (formatPoints e.points :: e.extraFields).map id := by
      refine List.map_congr_left fun field hfield => trim_eq_self ?_
      rcases List.mem_cons.mp hfield with rfl | hextra
      · exact trimmed_formatPoints he.points
      · exact trimmed_of_mem_extraFields he.toLegible hextra
    exact hself.trans (List.map_id _)
  have hne : e.points.map KeyPoint.rounded ≠ [] := mt List.map_eq_nil_iff.mp he.points_ne_nil
  have hsorted := sortPoints_map_rounded he.points he.sorted
  unfold Line.entryOfFields
  simp only [encoding_lineFields he, headEntry_lineFields he, htrim, List.foldl_cons,
    applyField_formatPoints he]
  rw [foldl_applyField_extraFields he.toLegible rfl rfl]
  simp [ofName, sorted, hne, hsorted, rounded]

/-- **The line of a settled entry is read as the entry rounded.** -/
theorem read?_renderChars (he : e.Settled) : Line.read? e.renderChars = some e.rounded := by
  rw [Line.read?, fields?_renderChars he, Option.map_some, entryOfFields_lineFields he]

theorem encoding?_renderChars (he : e.Settled) :
    Line.encoding? e.renderChars = some .modern := by
  rw [Line.encoding?, fields?_renderChars he, Option.map_some, encoding_lineFields he]

/-- **Rounding an entry does not change its line.** -/
theorem renderChars_rounded (he : e.Settled) : e.rounded.renderChars = e.renderChars := by
  have hne : e.rounded.points ≠ [] := mt List.map_eq_nil_iff.mp he.points_ne_nil
  have hextra : e.rounded.extraFields = e.extraFields := by
    cases hactive : e.activePreset? with
    | some id => simp [extraFields, hactive]
    | none =>
        have hvectors : e.rounded.vectors = e.vectors.map fun _ => Line.quantize := by
          simp [rounded, hactive]
        have hempty : (e.vectors.map fun _ => Line.quantize).isEmpty = e.vectors.isEmpty := by
          simp [Dict.isEmpty, Dict.map]
        simp only [extraFields, activePreset?_rounded, hactive, hvectors, hempty,
          formatVectors_rounded he.vectors]
  rw [renderChars_eq hne, renderChars_eq he.points_ne_nil, lineFields, lineFields, hextra]
  simp only [rounded, formatValue_quantize he.modelStrength, formatValue_quantize he.clipStrength,
    formatPoints_rounded he.points he.sorted]

/-! ## Texts of several lines -/

theorem isLine_renderChars (he : e.Settled) (hlineFeed : e.Avoids '\n') : IsLine e.renderChars := by
  refine ⟨e.renderChars_ne_nil, fun hmem => ?_, ?_⟩ <;> rw [renderChars_eq he.points_ne_nil] at *
  · rcases List.mem_append.mp hmem with hfront | hclosing
    · rcases List.mem_append.mp hfront with hopening | hfields
      · exact absurd hopening (by decide)
      · refine not_mem_joinWith (by decide) (fun field hfield => ?_) hfields
        exact not_mem_lineFields he.toLegible hlineFeed (Or.inr rfl) hfield
    · exact absurd hclosing (by decide)
  · rw [List.getLast?_append_of_ne_nil _ (by decide)]
    decide

end Entry

namespace Schedule

/-- A text that starts with an entry is no JSON list. -/
theorem jsonItems?_renderAll (entries : List Entry) :
    jsonItems? (Entry.renderAll entries).toList = none := by
  have hhead : ∀ c ∈ (Entry.renderAll entries).toList.head?, c = '<' := by
    rw [Entry.renderAll, String.toList_ofList]
    cases entries with
    | nil => simp
    | cons e rest =>
        obtain ⟨line, hline⟩ := e.exists_renderChars_eq
        cases rest <;> simp [hline, joinWith_cons_cons]
  have hnot : (trim (Entry.renderAll entries).toList).head? ≠ some '[' := by
    intro hbracket
    have hmem := head?_trim (fun c hc => hhead c hc ▸ by decide) hbracket
    exact absurd (hhead _ hmem) (by decide)
  exact if_neg hnot

/-- **Settled entries that are written and read are the entries rounded, in their
order.** -/
theorem parse_renderAll {entries : List Entry}
    (hentries : ∀ e ∈ entries, e.Settled ∧ e.Avoids '\n') :
    parse (Entry.renderAll entries) = entries.map Entry.rounded := by
  have hlines : lines (Entry.renderAll entries).toList = entries.map Entry.renderChars := by
    rw [Entry.renderAll, String.toList_ofList]
    refine lines_joinWith ?_
    intro row hrow
    obtain ⟨e, he, rfl⟩ := List.mem_map.mp hrow
    exact Entry.isLine_renderChars (hentries e he).1 (hentries e he).2
  unfold parse
  rw [jsonItems?_renderAll]
  simp only [ofLines, hlines, List.filterMap_map]
  rw [← List.filterMap_eq_map]
  refine List.filterMap_congr ?_
  intro e he
  rw [Function.comp_apply, Function.comp_apply, Entry.read?_renderChars (hentries e he).1]

/-- A text without ramps is read as settled entries. -/
theorem settled_of_mem_parse {text : String} (htext : jsonItems? text.toList = none)
    (hmodern : ∀ line ∈ lines text.toList, ∀ encoding ∈ Line.encoding? line, encoding = .modern)
    {e : Entry} (he : e ∈ parse text) : e.Settled ∧ e.Avoids '\n' := by
  simp only [parse, htext] at he
  obtain ⟨line, hline, hread⟩ := List.mem_filterMap.mp he
  obtain ⟨fields, hfields, rfl⟩ := Option.map_eq_some_iff.mp hread
  have hencoding : Line.Encoding.ofFields fields = .modern :=
    hmodern line hline _ (Option.mem_def.mpr (by rw [Line.encoding?, hfields, Option.map_some]))
  exact ⟨Line.settled_entryOfFields hfields hencoding,
    Line.avoids_entryOfFields hfields hencoding (Or.inr (lineFeed_not_mem_of_mem_lines hline))⟩

theorem renderAll_map_rounded {entries : List Entry} (hentries : ∀ e ∈ entries, e.Settled) :
    Entry.renderAll (entries.map Entry.rounded) = Entry.renderAll entries := by
  rw [Entry.renderAll, Entry.renderAll, List.map_map]
  exact congrArg _ (congrArg _ (List.map_congr_left fun e he =>
    Entry.renderChars_rounded (hentries e he)))

/-- **Writing after reading is stable.**  What a line in the modern encoding is
read as is written as a line in the modern encoding; that is read as the entry
with all numbers rounded to four decimals, which is written as the same line.
So a text without ramps is written the same after it has been written and read
any number of times, with the same entries in the same order. -/
theorem reparse_stable :
    (∀ (line : List Char) (e : Entry), Line.read? line = some e →
      Line.encoding? line = some .modern →
      Line.encoding? e.renderChars = some .modern ∧
        ∃ e', Line.read? e.renderChars = some e' ∧ e'.renderChars = e.renderChars ∧
          e'.name = e.name ∧ e'.activePreset? = e.activePreset? ∧
          e'.modelStrength = Line.quantize e.modelStrength ∧
          e'.clipStrength = Line.quantize e.clipStrength ∧
          e'.points = e.points.map (fun p => ⟨Line.quantize p.x, Line.quantize p.y⟩) ∧
          (e.activePreset? = none → e'.vectors = e.vectors.map fun _ => Line.quantize)) ∧
    ∀ text : String, jsonItems? text.toList = none →
      (∀ line ∈ lines text.toList, ∀ encoding ∈ Line.encoding? line, encoding = .modern) →
      parse (Entry.renderAll (parse text)) = (parse text).map Entry.rounded ∧
        Entry.renderAll (parse (Entry.renderAll (parse text))) = Entry.renderAll (parse text) := by
  constructor
  · intro line e hread hmodern
    obtain ⟨fields, hfields, rfl⟩ := Option.map_eq_some_iff.mp hread
    have hencoding : Line.Encoding.ofFields fields = .modern := by
      simpa [Line.encoding?, hfields] using hmodern
    have he := Line.settled_entryOfFields hfields hencoding
    refine ⟨Entry.encoding?_renderChars he, (Line.entryOfFields fields).rounded,
      Entry.read?_renderChars he, Entry.renderChars_rounded he, rfl, Entry.activePreset?_rounded,
      rfl, rfl, rfl, ?_⟩
    intro hactive
    simp [Entry.rounded, hactive]
  · intro text htext hmodern
    have hentries : ∀ e ∈ parse text, e.Settled ∧ e.Avoids '\n' :=
      fun e he => settled_of_mem_parse htext hmodern he
    have hparse := parse_renderAll hentries
    refine ⟨hparse, ?_⟩
    rw [hparse]
    exact renderAll_map_rounded fun e he => (hentries e he).1

/-- A line with blanks, a bad strength, points out of order and a weight that is
rounded to a negative zero; and a text in which it stands between others. -/
theorem reparse_stable_mixed_line :
    (∃ e e', Line.read? "<lora:ink: 0.8 :x:1,0.12345;0,1:vectors=mid=-0.00001>".toList = some e ∧
      Line.read? e.renderChars = some e' ∧ e'.renderChars = e.renderChars) ∧
    Entry.renderAll (parse (Entry.renderAll
        (parse "a\n<lora:ink: 0.8 :x:1,0.12345;0,1:vectors=mid=-0.00001>\n<lora:b:preset= C >"))) =
      Entry.renderAll
        (parse "a\n<lora:ink: 0.8 :x:1,0.12345;0,1:vectors=mid=-0.00001>\n<lora:b:preset= C >") := by
  refine ⟨?_, ?_⟩
  · have hread : (Line.read? "<lora:ink: 0.8 :x:1,0.12345;0,1:vectors=mid=-0.00001>".toList).isSome =
        true := by
      decide
    obtain ⟨e, he⟩ := Option.isSome_iff_exists.mp hread
    obtain ⟨-, e', he', htext, -⟩ := reparse_stable.1 _ e he (by decide)
    exact ⟨e, e', he, he', htext⟩
  · exact (reparse_stable.2 _ (by decide) (by decide)).2

end Schedule

end LoraSchedule
