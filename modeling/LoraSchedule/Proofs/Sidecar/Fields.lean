import LoraSchedule.Proofs.Json.Decoding
import LoraSchedule.Sidecar

/-!
# Sidecars read from objects

Whatever an object has under other names, a sidecar that is read from it has what
stands under its own names (`eq_ofFields`).  Reading fails in one way only: all
fields may be of any kind but the section of the provider, which has to be an
object or a short list (`ofWritten?_object`).
-/

namespace LoraSchedule.Sidecar

open LoraSchedule.Json (Numeral Value Written)

/-! ## What values say -/

/-- A text that is not empty says itself, and a number says its numeral.  Values of
other kinds say nothing. -/
inductive Says : Value → String → Prop
  | text {s : String} (hne : s ≠ "") : Says (.string s) s
  | number (n : Numeral) : Says (.number n) (String.ofList n.render)

theorem scalarText?_eq_some_iff {value : Value} {text : String} :
    scalarText? value = some text ↔ Says value text := by
  constructor
  · intro h
    cases value with
    | string s =>
        rw [scalarText?] at h
        split at h
        · cases h
        · obtain rfl := Option.some.inj h
          exact .text ‹_›
    | number n =>
        obtain rfl := Option.some.inj h
        exact .number n
    | _ => cases h
  · intro h
    cases h with
    | text hne => exact if_neg hne
    | number n => rfl

/-! ## Fields by their names -/

/-- What an object has under a name; `null` counts as not written. -/
def present? (fields : List (String × Value)) (name : String) : Option Value :=
  match fields.lookup name with
  | some .null => none
  | found => found

/-- What a document keeps of it: the same with all fields in order. -/
def stored? (fields : List (String × Value)) (name : String) : Option Value :=
  (present? fields name).map Value.sortFields

/-- The names of the fields in a provider's section, in the order in which a list
has their values. -/
def sectionNames : List String := ["tags", "baseModel", "trainedWords"]

/-- The fields of a provider's section. -/
def sectionFields : Value → List (String × Value)
  | .object fields => fields
  | .array items => sectionNames.zip items
  | _ => []

/-- The values that can be read as a provider's section. -/
inductive IsSection : Value → Prop
  | absent : IsSection .null
  | object (fields : List (String × Value)) : IsSection (.object fields)
  | list {items : List Value} (hlength : items.length ≤ 3) : IsSection (.array items)

/-- What an object has under the provider's name is a section, if there is anything. -/
def HasSection (fields : List (String × Value)) : Prop :=
  ∀ written, fields.lookup "civitai" = some written → IsSection written

/-- The notes with the fields of a section. -/
def notesOf (fields : List (String × Value)) : ProviderNotes where
  tags := stored? fields "tags"
  baseModel := stored? fields "baseModel"
  trainedWords := stored? fields "trainedWords"

/-- The sidecar with the fields of an object. -/
def ofFields (fields : List (String × Value)) : Sidecar where
  trainedWords := stored? fields "trainedWords"
  baseModel := stored? fields "baseModel"
  baseModelSnake := stored? fields "base_model"
  sdVersion := stored? fields "sd_version"
  modelSpecArchitecture := stored? fields "modelspec.architecture"
  provider := (present? fields "civitai").map fun written => notesOf (sectionFields written)

/-! ## Reading one field -/

variable {fields : List (String × Value)} {name : String}

theorem lookup_of_present? {value : Value} (h : present? fields name = some value) :
    fields.lookup name = some value := by
  unfold present? at h
  split at h
  · cases h
  · exact h

theorem present?_of_lookup {value : Value} (h : fields.lookup name = some value)
    (hnull : value ≠ .null) : present? fields name = some value := by
  unfold present?
  split
  case h_1 hother => exact absurd (Option.some.inj (h.symm.trans hother)) hnull
  case h_2 => exact h

theorem ne_null_of_present? {value : Value} (h : present? fields name = some value) :
    value ≠ .null := by
  rintro rfl
  rw [present?, lookup_of_present? h] at h
  cases h

/-- A field that may be `null` is read if it is written. -/
theorem orDefault_optional? {α : Type} (read? : Written → Option α) :
    Written.orDefault none (Written.optional? read?)
        ((fields.lookup name).map Value.toWritten) =
      match present? fields name with
      | none => some none
      | some value => (read? value.toWritten).map some := by
  unfold present?
  cases fields.lookup name with
  | none => rfl
  | some value => cases value <;> rfl

variable {outer : Nat}

theorem field?_eq_some {found : Option Value}
    (h : field? outer ((fields.lookup name).map Value.toWritten) = some found) :
    found = stored? fields name := by
  rw [field?, orDefault_optional?] at h
  rw [stored?]
  cases hpresent : present? fields name with
  | none =>
      rw [hpresent] at h
      exact (Option.some.inj h).symm
  | some value =>
      rw [hpresent] at h
      obtain ⟨document, hdocument, rfl⟩ := Option.map_eq_some_iff.mp h
      unfold Value.ofNested? at hdocument
      split at hdocument
      · rw [Value.ofWritten?_toWritten] at hdocument
        exact hdocument.symm
      · cases hdocument

/-- The values of an object are not nested too deep when it stands inside `outer`
containers. -/
def Fits (outer : Nat) (fields : List (String × Value)) : Prop :=
  ∀ name value, fields.lookup name = some value →
    outer + 1 + value.toWritten.depth ≤ Value.depthLimit

theorem field?_of_fits (h : Fits outer fields) :
    field? (outer + 1) ((fields.lookup name).map Value.toWritten) = some (stored? fields name) := by
  rw [field?, orDefault_optional?, stored?]
  cases hpresent : present? fields name with
  | none => rfl
  | some value =>
      have hdepth := h name value (lookup_of_present? hpresent)
      simp only [Value.ofNested?, if_pos hdepth, Value.ofWritten?_toWritten]
      rfl

/-- The parts of what can be read are not nested too deep. -/
theorem fits_of_depth_le
    (h : outer + (Value.object fields).toWritten.depth ≤ Value.depthLimit) : Fits outer fields := by
  intro name value hvalue
  have hmem : (name, value) ∈ fields := by
    obtain ⟨before, after, rfl, -⟩ := List.lookup_eq_some_iff.mp hvalue
    exact List.mem_append_right _ (List.mem_cons_self ..)
  have hdepth : value.toWritten.depth < (Value.object fields).toWritten.depth :=
    Value.depth_lt_object hmem
  omega

/-! ## Reading the section of the provider -/

/-- A list is read as an object with the first names. -/
theorem record?_list {items : List Value} (hlength : items.length ≤ 3) :
    (Value.array items).toWritten.record? sectionNames =
      some (sectionNames.map fun name =>
        ((sectionFields (.array items)).lookup name).map Value.toWritten) := by
  match items with
  | [] | [_] | [_, _] | [_, _, _] => rfl
  | _ :: _ :: _ :: _ :: _ =>
      simp only [List.length_cons] at hlength
      omega

theorem isSection_of_record? {written : Value} {values : List (Option Written)}
    (h : written.toWritten.record? sectionNames = some values) :
    IsSection written ∧ values = sectionNames.map fun name =>
      ((sectionFields written).lookup name).map Value.toWritten := by
  cases written with
  | object fields => exact ⟨.object fields, Written.eq_of_record? fields h⟩
  | array items =>
      have hlength : items.length ≤ 3 := by
        by_contra hlong
        rw [Value.toWritten, Written.record?, Value.itemsToWritten_eq,
          if_neg (by simpa [sectionNames] using hlong)] at h
        cases h
      rw [record?_list hlength] at h
      exact ⟨.list hlength, (Option.some.inj h).symm⟩
  | _ => cases h

theorem isSection_of_ofWritten? {written : Value} {notes : ProviderNotes}
    (h : ProviderNotes.ofWritten? written.toWritten = some notes) :
    IsSection written ∧ notes = notesOf (sectionFields written) := by
  obtain ⟨values, hvalues, h⟩ := Option.bind_eq_some_iff.mp h
  obtain ⟨hsection, rfl⟩ := isSection_of_record? hvalues
  obtain ⟨tags, htags, h⟩ := Option.bind_eq_some_iff.mp h
  obtain ⟨baseModel, hbaseModel, h⟩ := Option.bind_eq_some_iff.mp h
  obtain ⟨words, hwords, h⟩ := Option.bind_eq_some_iff.mp h
  refine ⟨hsection, ?_⟩
  rw [← Option.some.inj h, field?_eq_some htags, field?_eq_some hbaseModel, field?_eq_some hwords]
  rfl

theorem ofWritten?_of_isSection {written : Value} (hsection : IsSection written)
    (hnull : written ≠ .null) (hkeys : ((sectionFields written).map Prod.fst).Nodup)
    (hfits : Fits 1 (sectionFields written)) :
    ProviderNotes.ofWritten? written.toWritten = some (notesOf (sectionFields written)) := by
  have hrecord : written.toWritten.record? sectionNames =
      some (sectionNames.map fun name =>
        ((sectionFields written).lookup name).map Value.toWritten) := by
    cases hsection with
    | absent => exact absurd rfl hnull
    | object fields => exact Written.record?_toWritten fields hkeys sectionNames
    | list hlength => exact record?_list hlength
  rw [sectionNames] at hrecord
  rw [ProviderNotes.ofWritten?, hrecord]
  simp only [List.map_cons, List.map_nil, Option.bind_eq_bind, Option.bind_some,
    field?_of_fits hfits, Option.pure_def]
  rfl

/-! ## Reading a sidecar -/

/-- **A sidecar that is read from an object has what stands there under its
names**, and what stands under the provider's name is a section. -/
theorem eq_ofFields {s : Sidecar} (h : ofWritten? (Value.object fields).toWritten = some s) :
    s = ofFields fields ∧ HasSection fields := by
  obtain ⟨values, hvalues, h⟩ := Option.bind_eq_some_iff.mp h
  obtain rfl := Written.eq_of_record? fields hvalues
  obtain ⟨words, hwords, h⟩ := Option.bind_eq_some_iff.mp h
  obtain ⟨baseModel, hbaseModel, h⟩ := Option.bind_eq_some_iff.mp h
  obtain ⟨snake, hsnake, h⟩ := Option.bind_eq_some_iff.mp h
  obtain ⟨version, hversion, h⟩ := Option.bind_eq_some_iff.mp h
  obtain ⟨spec, hspec, h⟩ := Option.bind_eq_some_iff.mp h
  obtain ⟨provider, hprovider, h⟩ := Option.bind_eq_some_iff.mp h
  have hnotes : provider =
        (present? fields "civitai").map (fun written => notesOf (sectionFields written)) ∧
      ∀ written ∈ present? fields "civitai", IsSection written := by
    rw [orDefault_optional?] at hprovider
    cases hpresent : present? fields "civitai" with
    | none =>
        rw [hpresent] at hprovider
        exact ⟨(Option.some.inj hprovider).symm, fun written hwritten => nomatch hwritten⟩
    | some written =>
        rw [hpresent] at hprovider
        obtain ⟨notes, hread, rfl⟩ := Option.map_eq_some_iff.mp hprovider
        obtain ⟨hsection, rfl⟩ := isSection_of_ofWritten? hread
        exact ⟨rfl, fun other hother => Option.some.inj hother ▸ hsection⟩
  obtain ⟨rfl, hsection⟩ := hnotes
  constructor
  · rw [← Option.some.inj h, field?_eq_some hwords, field?_eq_some hbaseModel,
      field?_eq_some hsnake, field?_eq_some hversion, field?_eq_some hspec]
    rfl
  · intro written hwritten
    by_cases hnull : written = .null
    · exact hnull ▸ .absent
    · exact hsection written (present?_of_lookup hwritten hnull)

/-- A value from which the notes of a provider can be read. -/
structure IsReadable (written : Value) : Prop where
  isSection : IsSection written
  apart : ((sectionFields written).map Prod.fst).Nodup
  fits : Fits 1 (sectionFields written)

/-- **The section of the provider is all that can keep an object from being
read.** -/
theorem ofWritten?_object (hkeys : (fields.map Prod.fst).Nodup) (hfits : Fits 0 fields)
    (hprovider : ∀ written ∈ fields.lookup "civitai", IsReadable written) :
    ofWritten? (Value.object fields).toWritten = some (ofFields fields) := by
  have hnotes : Written.orDefault none (Written.optional? ProviderNotes.ofWritten?)
        ((fields.lookup "civitai").map Value.toWritten) =
      some ((present? fields "civitai").map fun written => notesOf (sectionFields written)) := by
    rw [orDefault_optional?]
    cases hpresent : present? fields "civitai" with
    | none => rfl
    | some written =>
        obtain ⟨hsection, hapart, hfits⟩ := hprovider written (lookup_of_present? hpresent)
        have hread := ofWritten?_of_isSection hsection (ne_null_of_present? hpresent) hapart hfits
        simp only [hread, Option.map_some]
  rw [ofWritten?, Written.record?_toWritten fields hkeys]
  simp only [List.map_cons, List.map_nil, Option.bind_eq_bind, Option.bind_some,
    field?_of_fits hfits, hnotes, Option.pure_def]
  rfl

end LoraSchedule.Sidecar
