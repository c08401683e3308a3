import LoraSchedule.Proofs.Json.Fields
import LoraSchedule.Proofs.Json.Numbers
import LoraSchedule.Proofs.Json.Printed

/-!
# Records of documents

An object whose fields have names of their own is read as a record field by
field (`record?_toWritten`), also where a document has put its fields in order
(`record?_sortFields`).  Lists and dictionaries are read back if their values
are (`list?_array`, `dict?_ofDict`).
-/

namespace LoraSchedule.Json

/-! ## Order of fields -/

namespace Value

theorem sortItems_eq (items : List Value) : sortItems items = items.map sortFields := by
  induction items with
  | nil => rfl
  | cons item rest ih => rw [sortItems, ih, List.map_cons]

theorem sortEach_eq (fields : List (String × Value)) :
    sortEach fields = fields.map fun field => (field.1, field.2.sortFields) := by
  induction fields with
  | nil => rfl
  | cons field rest ih => rw [sortEach, ih, List.map_cons]

theorem sortFields_array {α : Type} (print : α → Value) (items : List α) :
    (array (items.map print)).sortFields =
      array (items.map fun item => (print item).sortFields) := by
  rw [sortFields, sortItems_eq, List.map_map]
  rfl

theorem sortFields_ofDict {α : Type} (print : α → Value) (d : Dict α) :
    (ofDict (d.map fun _ => print)).sortFields =
      ofDict (d.map fun _ value => (print value).sortFields) := by
  have hordered : sortEach (d.map fun _ => print).toList =
      (d.map fun _ value => (print value).sortFields).toList := by
    rw [sortEach_eq, Dict.map, Dict.map, List.map_map]
    rfl
  rw [ofDict, sortFields, hordered, Dict.ofList_toList, ofDict]

/-! ## Numbers of a document -/

theorem itemsPrintable_iff {items : List Value} :
    ItemsPrintable items ↔ ∀ item ∈ items, item.Printable := by
  induction items with
  | nil => simp [ItemsPrintable]
  | cons item rest ih => simp [ItemsPrintable, ih]

theorem fieldsPrintable_iff {fields : List (String × Value)} :
    FieldsPrintable fields ↔ ∀ field ∈ fields, field.2.Printable := by
  induction fields with
  | nil => simp [FieldsPrintable]
  | cons field rest ih => simp [FieldsPrintable, ih]

theorem printable_array {α : Type} {print : α → Value} {items : List α}
    (h : ∀ item ∈ items, (print item).Printable) : (array (items.map print)).Printable := by
  rw [Printable, itemsPrintable_iff]
  exact List.forall_mem_map.mpr h

theorem printable_ofDict {α : Type} {print : α → Value} {d : Dict α}
    (h : ∀ entry ∈ d.toList, (print entry.2).Printable) :
    (ofDict (d.map fun _ => print)).Printable := by
  rw [ofDict, Printable, fieldsPrintable_iff]
  exact List.forall_mem_map.mpr h

/-! ## Depth -/

theorem depth_array_le {items : List Value} {limit : Nat}
    (h : ∀ item ∈ items, item.toWritten.depth ≤ limit) :
    (array items).toWritten.depth ≤ 1 + limit := by
  rw [toWritten, Written.depth, itemsToWritten_eq]
  refine Nat.add_le_add_left ?_ 1
  induction items with
  | nil => exact Nat.zero_le limit
  | cons item rest ih =>
      obtain ⟨hitem, hrest⟩ := List.forall_mem_cons.mp h
      exact max_le hitem (ih hrest)

theorem depth_object_le {fields : List (String × Value)} {limit : Nat}
    (h : ∀ field ∈ fields, field.2.toWritten.depth ≤ limit) :
    (object fields).toWritten.depth ≤ 1 + limit := by
  rw [toWritten, Written.depth, fieldsToWritten_eq]
  refine Nat.add_le_add_left ?_ 1
  induction fields with
  | nil => exact Nat.zero_le limit
  | cons field rest ih =>
      obtain ⟨hfield, hrest⟩ := List.forall_mem_cons.mp h
      exact max_le hfield (ih hrest)

theorem depth_lt_array {items : List Value} {item : Value} (h : item ∈ items) :
    item.toWritten.depth < (array items).toWritten.depth := by
  rw [toWritten, Written.depth, itemsToWritten_eq]
  induction h with
  | head => rw [List.map_cons, Written.itemsDepth]; omega
  | tail _ _ ih => rw [List.map_cons, Written.itemsDepth]; omega

theorem depth_lt_object {fields : List (String × Value)} {field : String × Value}
    (h : field ∈ fields) : field.2.toWritten.depth < (object fields).toWritten.depth := by
  rw [toWritten, Written.depth, fieldsToWritten_eq]
  induction h with
  | head => rw [List.map_cons, Written.fieldsDepth]; omega
  | tail _ _ ih => rw [List.map_cons, Written.fieldsDepth]; omega

/-- **A text that spells a document means it with its fields in order**, if it is
not too deep. -/
theorem ofText?_of_written {text : List Char} {value : Value}
    (htext : Written.ofText? text = some value.toWritten)
    (hdepth : value.toWritten.depth ≤ depthLimit) : ofText? text = some value.sortFields := by
  rw [ofText?, htext, Option.bind_eq_bind, Option.bind_some, ofNested?, Nat.zero_add,
    if_pos hdepth, ofWritten?_toWritten]

end Value

/-! ## Records -/

namespace Written

theorem uniqueField?_of_nodup {fields : List (String × Written)}
    (h : (fields.map Prod.fst).Nodup) (name : String) :
    uniqueField? name fields = some (fields.lookup name) := by
  induction fields with
  | nil => rfl
  | cons field rest ih =>
      obtain ⟨hfresh, hrest⟩ := List.nodup_cons.mp h
      rw [Dict.lookup_cons_eq_if, uniqueField?, List.filter_cons]
      by_cases hsame : field.1 = name
      · have hnone : (rest.filter fun field => decide (field.1 = name)) = [] := by
          rw [List.filter_eq_nil_iff]
          intro other hother hkey
          exact hfresh (List.mem_map.mpr ⟨other, hother, (of_decide_eq_true hkey).trans hsame.symm⟩)
        simp [hsame, hnone]
      · rw [if_neg (by simpa using hsame), if_neg (Ne.symm hsame), ← ih hrest, uniqueField?]

/-- A field that a record reads is what stands first under its name. -/
theorem eq_lookup_of_uniqueField? {name : String} {fields : List (String × Written)}
    {found : Option Written} (h : uniqueField? name fields = some found) :
    found = fields.lookup name := by
  induction fields generalizing found with
  | nil => exact (Option.some.inj h).symm
  | cons field rest ih =>
      rw [Dict.lookup_cons_eq_if]
      unfold uniqueField? at h ih
      rw [List.filter_cons] at h
      by_cases hsame : field.1 = name
      · rw [if_pos (decide_eq_true hsame)] at h
        rw [if_pos hsame.symm]
        split at h
        case h_1 hfilter => cases hfilter
        case h_2 only hfilter =>
          obtain ⟨rfl, -⟩ := List.cons.inj hfilter
          exact (Option.some.inj h).symm
        case h_3 => cases h
      · rw [if_neg (by simpa using hsame)] at h
        rw [if_neg (Ne.symm hsame)]
        exact ih h

variable (fields : List (String × Value))

theorem keyed?_fieldsToWritten : keyed? (Value.fieldsToWritten fields) =
    some (fields.map fun field => (field.1, field.2.toWritten)) := by
  rw [keyed?, Value.fieldsToWritten_eq, List.mapM_map]
  exact mapM_eq_some_map fun field _ => rfl

theorem record?_object (names : List String) : (Value.object fields).toWritten.record? names =
    names.mapM fun name =>
      uniqueField? name (fields.map fun field => (field.1, field.2.toWritten)) := by
  have hkeyed := keyed?_fieldsToWritten fields
  rw [keyed?] at hkeyed
  rw [Value.toWritten, record?, hkeyed]
  rfl

/-- **A record reads under each of its names what an object has there.** -/
theorem record?_toWritten (h : (fields.map Prod.fst).Nodup) (names : List String) :
    (Value.object fields).toWritten.record? names =
      some (names.map fun name => (fields.lookup name).map Value.toWritten) := by
  have hnodup : ((fields.map fun field => (field.1, field.2.toWritten)).map Prod.fst).Nodup := by
    rwa [List.map_map]
  rw [record?_object]
  refine mapM_eq_some_map fun name _ => ?_
  rw [uniqueField?_of_nodup hnodup, Dict.lookup_map_values fun _ => Value.toWritten]

/-- The same where names of other fields may be repeated. -/
theorem eq_of_record? {names : List String} {values : List (Option Written)}
    (h : (Value.object fields).toWritten.record? names = some values) :
    values = names.map fun name => (fields.lookup name).map Value.toWritten := by
  rw [record?_object] at h
  have hread := forall₂_of_mapM h
  clear h
  induction hread with
  | nil => rfl
  | cons hvalue _ ih =>
      have hlookup := eq_lookup_of_uniqueField? hvalue
      rw [List.map_cons, ih, hlookup, Dict.lookup_map_values fun _ => Value.toWritten]

/-- The order of the fields does not matter. -/
theorem record?_sortFields (h : (fields.map Prod.fst).Nodup) (names : List String) :
    (Value.object fields).sortFields.toWritten.record? names =
      some (names.map fun name => (fields.lookup name).map fun value =>
        value.sortFields.toWritten) := by
  have hnodup : ((Value.sortEach fields).map Prod.fst).Nodup := by
    rwa [Value.sortEach_eq, List.map_map]
  rw [Value.sortFields, record?_toWritten _ (Dict.nodup_of_ascending (Dict.ascending _))]
  congr 2
  funext name
  have hget := Dict.get?_ofList_of_nodup hnodup name
  rw [Dict.get?] at hget
  rw [hget, Value.sortEach_eq, Dict.lookup_map_values fun _ => Value.sortFields, Option.map_map]
  rfl

/-! ## Lists and dictionaries -/

variable {α : Type} {read? : Written → Option α} {print : α → Value}

theorem list?_array {items : List α}
    (h : ∀ item ∈ items, read? (print item).toWritten = some item) :
    list? read? (Value.array (items.map print)).toWritten = some items := by
  rw [Value.toWritten, list?, Value.itemsToWritten_eq, List.map_map]
  exact mapM_map_eq_some h

theorem dict?_ofDict {d : Dict α}
    (h : ∀ entry ∈ d.toList, read? (print entry.2).toWritten = some entry.2) :
    dict? read? (Value.ofDict (d.map fun _ => print)).toWritten = some d := by
  have hread : (Value.fieldsToWritten (d.map fun _ => print).toList).mapM
      (fun field => do return (← field.1, ← read? field.2)) = some d.toList := by
    rw [Value.fieldsToWritten_eq, Dict.map, List.map_map]
    refine mapM_map_eq_some fun entry hentry => ?_
    simp [h entry hentry]
  rw [Value.ofDict, Value.toWritten, dict?, hread]
  simp

/-- The items of a list are read from values with finite numbers. -/
theorem exists_of_mem_list? {written : Written} {items : List α} (hfinite : written.Finite)
    (h : list? read? written = some items) {item : α} (hitem : item ∈ items) :
    ∃ part : Written, part.Finite ∧ read? part = some item := by
  unfold list? at h
  split at h
  · rw [Written.Finite, itemsFinite_iff] at hfinite
    obtain ⟨part, hpart, hread⟩ := exists_of_mem_mapM h hitem
    exact ⟨part, hfinite part hpart, hread⟩
  · cases h

theorem exists_of_mem_dict? {written : Written} {d : Dict α} (hfinite : written.Finite)
    (h : dict? read? written = some d) {entry : String × α} (hentry : entry ∈ d.toList) :
    ∃ part : Written, part.Finite ∧ read? part = some entry.2 := by
  unfold dict? at h
  split at h
  · rw [Written.Finite, fieldsFinite_iff] at hfinite
    obtain ⟨entries, hentries, h⟩ := Option.bind_eq_some_iff.mp h
    obtain rfl := Option.some.inj h
    obtain ⟨field, hfield, hread⟩ := exists_of_mem_mapM hentries (Dict.mem_of_mem_ofList hentry)
    obtain ⟨key, -, hread⟩ := Option.bind_eq_some_iff.mp hread
    obtain ⟨value, hvalue, hread⟩ := Option.bind_eq_some_iff.mp hread
    obtain rfl := Option.some.inj hread
    exact ⟨field.2, hfinite field hfield, hvalue⟩
  · cases h

end Written

end LoraSchedule.Json
