import LoraSchedule.CommandLine.Run
import LoraSchedule.Proofs.Schedule.Ramps
import LoraSchedule.Proofs.Statistics.Document

/-!
# Entries read back from documents

An entry is printed with all its fields, under names that are kept apart, and a
list of printed entries is a document of four levels at most.  Entries come out
of a schedule text with their points in order (`Schedule.sorted_of_mem_parse`),
so reading the list sorts nothing: the printed entries are read as the entries
(`Schedule.ofDocuments_toJson`), whichever syntax they came from.
-/

namespace LoraSchedule

open LoraSchedule.Json
open LoraSchedule.Number
open LoraSchedule.Text

/-! ## Records -/

theorem Architecture.ofName_name (a : Architecture) : Architecture.ofName a.name = a := by
  cases a <;> decide

theorem KeyPoint.ofWritten?_toJson (p : KeyPoint) :
    KeyPoint.ofWritten? p.toJson.sortFields.toWritten = some p := by
  have hrecord := Written.record?_sortFields [("x", .ofDouble p.x), ("y", .ofDouble p.y)]
    (by simp) ["x", "y"]
  rw [KeyPoint.ofWritten?, KeyPoint.toJson, hrecord]
  simp [Dict.lookup_cons_eq_if, Written.required, Value.ofDouble, Value.sortFields,
    Value.toWritten, Written.double?, Numeral.toDouble]

namespace Entry

variable {e : Entry}

theorem sorted_sorted (e : Entry) : e.sorted.sorted = e.sorted := by
  have hpoints : sortPoints (sortPoints e.points) = sortPoints e.points :=
    sortPoints_of_pairwise (pairwise_sortPoints e.points)
  rw [sorted, sorted, hpoints]

/-- **A printed entry is read as the entry**, also with its fields in another
order. -/
theorem ofWritten?_toJson (e : Entry) : ofWritten? e.toJson.sortFields.toWritten = some e := by
  have hpoints : Written.list? KeyPoint.ofWritten?
      (Value.array (e.points.map KeyPoint.toJson)).sortFields.toWritten = some e.points := by
    rw [Value.sortFields_array]
    exact Written.list?_array fun p _ => p.ofWritten?_toJson
  have hvectors : Written.dict? Written.double?
      (Value.ofDict (e.vectors.map fun _ => Value.ofDouble)).sortFields.toWritten =
        some e.vectors := by
    rw [Value.sortFields_ofDict]
    exact Written.dict?_ofDict fun entry _ => rfl
  rw [ofWritten?, toJson, Written.record?_sortFields _ (by cases e.preset <;> simp)]
  generalize Value.array (e.points.map KeyPoint.toJson) = points at hpoints
  generalize Value.ofDict (e.vectors.map fun _ => Value.ofDouble) = vectors at hvectors
  obtain ⟨name, modelStrength, clipStrength, _, enabled, architecture, _, preset⟩ := e
  cases preset <;>
    simp [fieldNames, Dict.lookup_cons_eq_if, Written.required, Written.orDefault, hpoints,
      hvectors, Value.ofDouble, Value.sortFields, Value.toWritten, Written.string?,
      Written.double?, Written.bool?, Written.optional?, Numeral.toDouble,
      Architecture.ofName_name, ofName]

/-- The field of a preset holds a text. -/
theorem exists_of_mem_preset {preset : Option String} {field : String × Value}
    (h : field ∈ (preset.map fun id => ("preset", Value.string id)).toList) :
    ∃ id, field.2 = .string id := by
  cases preset with
  | none => cases h
  | some id => exact ⟨id, by rw [List.mem_singleton.mp h]⟩

theorem printable_toJson (he : e.IsFinite) : e.toJson.Printable := by
  have hpoints : (Value.array (e.points.map KeyPoint.toJson)).Printable :=
    Value.printable_array fun p hp => ⟨(he.points p hp).1, (he.points p hp).2, trivial⟩
  have hvectors : (Value.ofDict (e.vectors.map fun _ => Value.ofDouble)).Printable :=
    Value.printable_ofDict he.vectors
  rw [toJson, Value.Printable, Value.fieldsPrintable_iff]
  refine List.forall_mem_append.mpr ⟨?_, ?_⟩
  · simp only [List.forall_mem_cons, List.not_mem_nil, false_imp_iff, implies_true, and_true]
    exact ⟨trivial, he.modelStrength, he.clipStrength, hpoints, trivial, trivial, hvectors⟩
  · intro field hfield
    obtain ⟨id, hid⟩ := exists_of_mem_preset hfield
    rw [hid]
    trivial

/-- An entry holds points, which hold numbers. -/
theorem depth_toJson (e : Entry) : e.toJson.toWritten.depth ≤ 1 + (1 + 1) := by
  have hpoints : (Value.array (e.points.map KeyPoint.toJson)).toWritten.depth ≤ 1 + 1 :=
    Value.depth_array_le (List.forall_mem_map.mpr fun p _ => le_rfl)
  have hvectors : (Value.ofDict (e.vectors.map fun _ => Value.ofDouble)).toWritten.depth ≤ 1 + 0 :=
    Value.depth_object_le (List.forall_mem_map.mpr fun entry _ => le_rfl)
  refine Value.depth_object_le (List.forall_mem_append.mpr ⟨?_, ?_⟩)
  · simp only [List.forall_mem_cons, List.not_mem_nil, false_imp_iff, implies_true, and_true]
    exact ⟨Nat.zero_le _, Nat.zero_le _, Nat.zero_le _, hpoints, Nat.zero_le _, Nat.zero_le _,
      hvectors.trans (by decide)⟩
  · intro field hfield
    obtain ⟨id, hid⟩ := exists_of_mem_preset hfield
    rw [hid]
    exact Nat.zero_le _

end Entry

/-! ## Numbers of a document -/

theorem KeyPoint.isFinite_ofWritten? {written : Written} {p : KeyPoint} (hfinite : written.Finite)
    (h : KeyPoint.ofWritten? written = some p) : p.IsFinite := by
  unfold KeyPoint.ofWritten? at h
  obtain ⟨fields, hfields, h⟩ := Option.bind_eq_some_iff.mp h
  have hparts := Written.finite_record? hfinite hfields
  split at h
  · rename_i x y
    obtain ⟨first, hfirst, h⟩ := Option.bind_eq_some_iff.mp h
    obtain ⟨second, hsecond, h⟩ := Option.bind_eq_some_iff.mp h
    obtain rfl := Option.some.inj h
    obtain ⟨written, hwritten, hx⟩ := Option.bind_eq_some_iff.mp hfirst
    obtain ⟨written', hwritten', hy⟩ := Option.bind_eq_some_iff.mp hsecond
    exact ⟨Written.isFinite_double? (hparts x (by simp) written hwritten) hx,
      Written.isFinite_double? (hparts y (by simp) written' hwritten') hy⟩
  · cases h

/-- **The numbers of an entry that is read from a document are finite.** -/
theorem Entry.isFinite_ofWritten? {written : Written} {e : Entry} (hfinite : written.Finite)
    (h : Entry.ofWritten? written = some e) : e.IsFinite := by
  obtain ⟨hmodel, hclip⟩ := finiteStrengths_ofWritten? hfinite h
  unfold Entry.ofWritten? at h
  obtain ⟨fields, hfields, h⟩ := Option.bind_eq_some_iff.mp h
  have hparts := Written.finite_record? hfinite hfields
  split at h
  · rename_i name model clip points enabled architecture vectors preset
    simp only [Option.bind_eq_bind, Option.bind_eq_some_iff] at h
    obtain ⟨_, -, _, -, _, -, list, hlist, _, -, _, -, dict, hdict, _, -, h⟩ := h
    obtain rfl := Option.some.inj h
    refine ⟨hmodel, hclip, fun p hp => ?_, fun weight hweight => ?_⟩
    · cases points with
      | none =>
          obtain rfl := Option.some.inj hlist
          cases hp
      | some part =>
          obtain ⟨point, hpoint, hread⟩ :=
            Written.exists_of_mem_list? (hparts _ (by simp) part rfl) hlist hp
          exact KeyPoint.isFinite_ofWritten? hpoint hread
    · cases vectors with
      | none =>
          obtain rfl := Option.some.inj hdict
          cases hweight
      | some part =>
          obtain ⟨value, hvalue, hread⟩ :=
            Written.exists_of_mem_dict? (hparts _ (by simp) part rfl) hdict hweight
          exact Written.isFinite_double? hvalue hread
  · cases h

namespace Schedule

/-- **A text that is a JSON list has no infinite numbers.** -/
theorem isFinite_of_jsonItems? {text : String} {items : List Value}
    (htext : jsonItems? text.toList = some items) : ∀ e ∈ parse text, e.IsFinite := by
  intro e he
  simp only [parse, htext] at he
  obtain ⟨item, hitem, hentry⟩ := List.mem_filterMap.mp he
  obtain ⟨read, hread, rfl⟩ := Option.map_eq_some_iff.mp hentry
  have hfinite := Entry.isFinite_ofWritten? (finite_of_jsonItems? htext item hitem) hread
  exact ⟨hfinite.modelStrength, hfinite.clipStrength,
    fun p hp => hfinite.points p (mem_sortPoints.mp hp), hfinite.vectors⟩

/-! ## Lists of entries -/

variable {text : String} {entries : List Entry}

/-- **Entries come out of a text with their points in order**, in either syntax. -/
theorem sorted_of_mem_parse {e : Entry} (he : e ∈ parse text) : e.sorted = e := by
  unfold parse at he
  split at he
  · obtain ⟨item, -, hitem⟩ := List.mem_filterMap.mp he
    obtain ⟨read, -, rfl⟩ := Option.map_eq_some_iff.mp hitem
    exact read.sorted_sorted
  · obtain ⟨line, -, hline⟩ := List.mem_filterMap.mp he
    obtain ⟨fields, -, rfl⟩ := Option.map_eq_some_iff.mp hline
    exact Entry.sorted_sorted _

/-- The document that holds entries. -/
def document (entries : List Entry) : Value := .array (entries.map Entry.toJson)

/-- **The documents of entries in order are read as the entries.** -/
theorem ofDocuments_toJson (hentries : ∀ e ∈ entries, e.sorted = e) :
    Entry.ofDocuments (entries.map fun e => e.toJson.sortFields) = entries := by
  rw [Entry.ofDocuments, List.filterMap_map]
  refine (List.filterMap_congr fun e he => ?_).trans List.filterMap_some
  rw [Function.comp_apply, e.ofWritten?_toJson, Option.map_some, hentries e he]

/-- A printed list starts with its bracket, and blanks are only inside. -/
theorem trimmed_printed (items : List Value) :
    ∀ text ∈ [(Value.array items).render, (Value.array items).compact],
      Trimmed text ∧ text.head? = some '[' := by
  have hbrackets : ∀ inner : List Char, Trimmed ('[' :: (inner ++ [']'])) := by
    intro inner
    constructor
    · exact fun c hc => Option.some.inj hc ▸ rfl
    · rw [← List.cons_append, List.getLast?_concat]
      exact fun c hc => Option.some.inj hc ▸ rfl
  simp only [List.forall_mem_cons, List.not_mem_nil, false_imp_iff, implies_true, and_true]
  refine ⟨?_, hbrackets _, rfl⟩
  cases items with
  | nil => exact ⟨hbrackets [], rfl⟩
  | cons item rest => exact ⟨hbrackets _, rfl⟩

theorem ofText?_printed (hentries : ∀ e ∈ entries, e.IsFinite) :
    ∀ text ∈ [(document entries).render, (document entries).compact],
      Value.ofText? text = some (.array (entries.map fun e => e.toJson.sortFields)) := by
  intro text htext
  have hprintable : (document entries).Printable :=
    Value.printable_array fun e he => Entry.printable_toJson (hentries e he)
  have hdepth : (document entries).toWritten.depth ≤ 1 + (1 + (1 + 1)) :=
    Value.depth_array_le (List.forall_mem_map.mpr fun e _ => e.depth_toJson)
  rw [Value.ofText?_of_written (Value.ofText?_printed hprintable text htext)
    (hdepth.trans (by decide)), document, Value.sortFields_array]

/-- **A printed list of entries is read as the entries.** -/
theorem parse_printed (hsorted : ∀ e ∈ entries, e.sorted = e)
    (hfinite : ∀ e ∈ entries, e.IsFinite) :
    ∀ text ∈ [(document entries).render, (document entries).compact],
      parse (String.ofList text) = entries ∧
        ofText (String.ofList text) = entries.filter Entry.enabled := by
  intro text htext
  obtain ⟨htrimmed, hhead⟩ := trimmed_printed _ text htext
  have hitems := ofText?_printed hfinite text htext
  constructor
  · have hjson : jsonItems? text = some (entries.map fun e => e.toJson.sortFields) := by
      simp [jsonItems?, trim_eq_self htrimmed, hhead, hitems, Value.array?]
    simp only [parse, String.toList_ofList, hjson]
    exact ofDocuments_toJson hsorted
  · rw [ofText, String.toList_ofList, trim_eq_self htrimmed, hitems, Option.map_some,
      Option.getD_some, ofDocument, selectedItems, ofDocuments_toJson hsorted]

end Schedule

open Schedule in
/-- **Documents carry the same entries as texts, and statistics whole.**  The
entries of any text, with finite numbers, printed as the command prints them or
without blanks, are read as these entries, and as a schedule those of them that
are enabled; statistics with finite numbers are read as they are. -/
theorem printed_documents_read_back :
    (∀ text : String, (∀ e ∈ parse text, e.IsFinite) →
      (parse text ≠ [] →
        String.ofList (document (parse text)).render ∈ CommandLine.parseLines text) ∧
      ∀ written ∈ [(document (parse text)).render, (document (parse text)).compact],
        parse (String.ofList written) = parse text ∧
        ofText (String.ofList written) = (parse text).filter Entry.enabled) ∧
    ∀ s : Statistics Double, s.IsFinite →
      ∀ written ∈ [s.toJson.render, s.toJson.compact],
        Statistics.ofText? (String.ofList written) = some s := by
  refine ⟨fun text hfinite => ⟨fun hne => ?_, ?_⟩, fun s hs => Statistics.ofText?_printed hs⟩
  · unfold CommandLine.parseLines
    split
    case h_1 hnone => exact absurd hnone hne
    case h_2 => simp [document]
  · exact parse_printed (fun e he => sorted_of_mem_parse he) hfinite

open Schedule in
/-- A list with an entry that is not enabled, with a negative zero and its points
in no order, and one with a preset of no name; statistics with one block. -/
theorem printed_documents_read_back_unordered :
    (∃ text : String, text = "[\x7b\"lora_name\":\"pen\",\"enabled\":false,\"points\":" ++
        "[\x7b\"x\":1,\"y\":-0.0\x7d,\x7b\"x\":0,\"y\":0.5\x7d]\x7d," ++
        "\x7b\"lora_name\":\"ink\",\"preset\":\"\"\x7d]" ∧
      (∀ e ∈ parse text, e.IsFinite) ∧ (parse text).map Entry.enabled = [false, true] ∧
      String.ofList (document (parse text)).render ∈ CommandLine.parseLines text ∧
      parse (String.ofList (document (parse text)).render) = parse text ∧
      ofText (String.ofList (document (parse text)).render) = (parse text).filter Entry.enabled) ∧
    ∃ s : Statistics Double, s.IsFinite ∧ s.blockIds = ["IN00"] ∧
      Statistics.ofText? (String.ofList s.toJson.render) = some s := by
  constructor
  · obtain ⟨text, htext⟩ : ∃ text : String,
        text = "[\x7b\"lora_name\":\"pen\",\"enabled\":false,\"points\":" ++
          "[\x7b\"x\":1,\"y\":-0.0\x7d,\x7b\"x\":0,\"y\":0.5\x7d]\x7d," ++
          "\x7b\"lora_name\":\"ink\",\"preset\":\"\"\x7d]" := ⟨_, rfl⟩
    have hjson : (jsonItems? text.toList).isSome = true := by
      rw [htext]
      decide +kernel
    obtain ⟨items, hitems⟩ := Option.isSome_iff_exists.mp hjson
    have hfinite := isFinite_of_jsonItems? hitems
    have henabled : (parse text).map Entry.enabled = [false, true] := by
      rw [htext]
      decide +kernel
    have hne : parse text ≠ [] := fun hnil => by simp [hnil] at henabled
    obtain ⟨hprinted, hread⟩ := printed_documents_read_back.1 text hfinite
    obtain ⟨hparse, henabledOnly⟩ := hread _ (List.mem_cons_self ..)
    exact ⟨text, htext, hfinite, henabled, hprinted hne, hparse, henabledOnly⟩
  · have hfinite : Statistics.IsFinite ⟨Binary.ofNat 2, Dict.ofList [("IN00", Binary.ofNat 2)],
        Dict.ofList [("IN00", ⟨.style, .input⟩)], Binary.zero false, Binary.zero true⟩ :=
      ⟨by decide +kernel, by decide +kernel, by decide, by decide⟩
    exact ⟨_, hfinite, by decide,
      printed_documents_read_back.2 _ hfinite _ (List.mem_cons_self ..)⟩

end LoraSchedule
