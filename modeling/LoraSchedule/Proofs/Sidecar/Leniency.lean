import LoraSchedule.Proofs.Sidecar.Architecture
import LoraSchedule.Proofs.Sidecar.Words

/-!
# Fields that cannot be used

A field of a sidecar may have a value of any kind.  One that the field cannot use
is as good as none (`reads_usable_fields`), so it takes nothing else away.  There
are two exceptions: without a proper section for its provider an object cannot be
read at all (`misread_section`), and a value for the words of a sidecar that is no
list hides those of the provider.
-/

namespace LoraSchedule.Sidecar

open LoraSchedule.Json (Value Written)

/-! ## Usable fields -/

/-- The names of fields with a single value. -/
def singleNames : List String := ["baseModel", "base_model", "sd_version", "modelspec.architecture"]

/-- The names of fields with a list. -/
def listNames : List String := ["trainedWords", "tags"]

/-- Whether a value is of a kind that a field can use: single values are texts that
are not empty, or numbers. -/
def isUsable (name : String) (value : Value) : Bool :=
  if name ∈ singleNames then (scalarText? value).isSome
  else if name ∈ listNames then value.array?.isSome
  else true

/-- The fields of which some part is kept. -/
def keep (part? : String → Value → Option Value) (fields : List (String × Value)) :
    List (String × Value) :=
  fields.filterMap fun field => (part? field.1 field.2).map fun value => (field.1, value)

/-- A value is kept if its field can use it. -/
def usableValue? (name : String) (value : Value) : Option Value :=
  if isUsable name value then some value else none

/-- Of a provider's section the usable fields are kept; a short list is a section as
it stands, and values of other kinds are none. -/
def usableSection? : Value → Option Value
  | .object inner => some (.object (keep usableValue? inner))
  | .array items => if items.length ≤ 3 then some (.array items) else none
  | _ => none

def usablePart? (name : String) (value : Value) : Option Value :=
  if name = "civitai" then usableSection? value else usableValue? name value

/-- An object without its fields of unusable kind. -/
def usable (fields : List (String × Value)) : List (String × Value) := keep usablePart? fields

/-! ## Look-ups -/

variable {part? : String → Value → Option Value} {fields : List (String × Value)} {name : String}

theorem sublist_keys_keep : ((keep part? fields).map Prod.fst).Sublist (fields.map Prod.fst) := by
  induction fields with
  | nil => exact List.Sublist.refl _
  | cons field rest ih =>
      rw [keep, List.filterMap_cons, List.map_cons]
      cases part? field.1 field.2 with
      | none => exact ih.cons field.1
      | some value => exact ih.cons_cons field.1

theorem mem_keep_iff {value : Value} :
    (name, value) ∈ keep part? fields ↔
      ∃ whole, (name, whole) ∈ fields ∧ part? name whole = some value := by
  rw [keep, List.mem_filterMap]
  constructor
  · rintro ⟨⟨key, whole⟩, hmem, hpart⟩
    obtain ⟨kept, hkept, heq⟩ := Option.map_eq_some_iff.mp hpart
    obtain ⟨rfl, rfl⟩ := Prod.mk.inj heq
    exact ⟨whole, hmem, hkept⟩
  · rintro ⟨whole, hmem, hpart⟩
    exact ⟨(name, whole), hmem, by simp [hpart]⟩

/-- Under names of their own, fields are kept one by one. -/
theorem lookup_keep (hkeys : (fields.map Prod.fst).Nodup) (name : String) :
    (keep part? fields).lookup name = (fields.lookup name).bind (part? name) := by
  refine Option.ext fun value => ?_
  rw [Dict.lookup_eq_some_iff_mem (hkeys.sublist sublist_keys_keep), mem_keep_iff,
    Option.bind_eq_some_iff]
  exact exists_congr fun whole => and_congr_left' (Dict.lookup_eq_some_iff_mem hkeys).symm

/-! ## What a field says -/

/-- **A field of unusable kind says as much as none.** -/
theorem bind_stored?_keep {α : Type} {say? : Value → Option α}
    (hkeys : (fields.map Prod.fst).Nodup)
    (hpart : ∀ value, part? name value = usableValue? name value)
    (hmute : ∀ value, isUsable name value = false → say? value.sortFields = none) :
    (stored? (keep part? fields) name).bind say? = (stored? fields name).bind say? := by
  unfold stored? present?
  rw [lookup_keep hkeys]
  cases fields.lookup name with
  | none => rfl
  | some value =>
      rw [Option.bind_some, hpart, usableValue?]
      cases husable : isUsable name value with
      | true => rfl
      | false =>
          have hnone := hmute value husable
          cases value with
          | null => rfl
          | _ => exact hnone.symm

theorem scalarText?_sortFields (value : Value) :
    scalarText? value.sortFields = scalarText? value := by
  cases value <;> rfl

theorem array?_sortFields_eq_none {value : Value} (h : value.array?.isSome = false) :
    value.sortFields.array? = none := by
  cases value with
  | array items => cases h
  | _ => rfl

theorem bind_scalarText?_keep (hkeys : (fields.map Prod.fst).Nodup)
    (hpart : ∀ value, part? name value = usableValue? name value) (hname : name ∈ singleNames) :
    (stored? (keep part? fields) name).bind scalarText? =
      (stored? fields name).bind scalarText? := by
  refine bind_stored?_keep hkeys hpart fun value hvalue => ?_
  rw [isUsable, if_pos hname] at hvalue
  rw [scalarText?_sortFields]
  exact Option.not_isSome_iff_eq_none.mp (by simp [hvalue])

theorem bind_array?_keep (hkeys : (fields.map Prod.fst).Nodup)
    (hpart : ∀ value, part? name value = usableValue? name value) (hname : name ∈ listNames) :
    (stored? (keep part? fields) name).bind Value.array? =
      (stored? fields name).bind Value.array? := by
  refine bind_stored?_keep hkeys hpart fun value hvalue => ?_
  have hsingle : name ∉ singleNames := by
    have hapart : ∀ name ∈ listNames, name ∉ singleNames := by decide
    exact hapart name hname
  rw [isUsable, if_neg hsingle, if_pos hname] at hvalue
  exact array?_sortFields_eq_none hvalue

/-! ## What is left of a sidecar -/

/-- An object whose sections have names of their own, too. -/
structure HasOwnNames (fields : List (String × Value)) : Prop where
  apart : (fields.map Prod.fst).Nodup
  inner : ∀ inner, fields.lookup "civitai" = some (.object inner) → (inner.map Prod.fst).Nodup

theorem usablePart?_eq (hname : name ≠ "civitai") (value : Value) :
    usablePart? name value = usableValue? name value := if_neg hname

theorem ne_civitai_of_mem (hname : name ∈ singleNames ++ listNames) : name ≠ "civitai" := by
  rintro rfl
  exact absurd hname (by decide)

theorem isSection_of_usableSection? {written kept : Value}
    (h : usableSection? written = some kept) : IsSection kept := by
  cases written with
  | object inner => exact Option.some.inj h ▸ .object _
  | array items =>
      rw [usableSection?] at h
      split at h
      case isTrue hlength => exact Option.some.inj h ▸ .list hlength
      case isFalse => cases h
  | _ => cases h

theorem present?_usable (h : HasOwnNames fields) : present? (usable fields) "civitai" =
    (present? fields "civitai").bind usableSection? := by
  have hlookup : (usable fields).lookup "civitai" =
      (fields.lookup "civitai").bind usableSection? := lookup_keep h.apart "civitai"
  unfold present?
  rw [hlookup]
  cases fields.lookup "civitai" with
  | none => rfl
  | some written =>
      cases written with
      | array items =>
          by_cases hlength : items.length ≤ 3
          · simp only [Option.bind_some, usableSection?, if_pos hlength]
          · simp only [Option.bind_some, usableSection?, if_neg hlength]
      | _ => rfl

/-- **The section of the provider says as much as before.** -/
theorem bind_provider_usable {α : Type} (h : HasOwnNames fields)
    (hsection : HasSection fields) (say? : Value → Option α)
    (field? : ProviderNotes → Option Value)
    (hfield : ∀ inner, field? (notesOf inner) = stored? inner name)
    (hkeep : ∀ inner, (inner.map Prod.fst).Nodup →
      (stored? (keep usableValue? inner) name).bind say? = (stored? inner name).bind say?) :
    ((ofFields (usable fields)).provider.bind field?).bind say? =
      ((ofFields fields).provider.bind field?).bind say? := by
  rw [ofFields, ofFields, present?_usable h]
  cases hpresent : present? fields "civitai" with
  | none => rfl
  | some written =>
      -- Only an object loses fields: a list is a section as it stands, and nothing else is one.
      cases written with
      | object inner =>
          have hinner := hkeep inner (h.inner inner (lookup_of_present? hpresent))
          rw [← hfield, ← hfield] at hinner
          exact hinner
      | array items =>
          cases hsection _ (lookup_of_present? hpresent) with
          | list hlength => rw [Option.bind_some, usableSection?, if_pos hlength]
      | null => exact absurd rfl (ne_null_of_present? hpresent)
      | _ => cases hsection _ (lookup_of_present? hpresent)

theorem tags_usable (h : HasOwnNames fields) (hsection : HasSection fields) :
    (ofFields (usable fields)).tags = (ofFields fields).tags := by
  have htags := bind_provider_usable h hsection Value.array? ProviderNotes.tags (fun _ => rfl)
    fun inner hinner => bind_array?_keep hinner (fun _ => rfl) (by decide)
  exact congrArg (fun found => Option.getD found []) htags

theorem filterMap_baseModelFields (s : Sidecar) :
    s.baseModelFields.filterMap scalarText? =
      [s.baseModel.bind scalarText?, s.baseModelSnake.bind scalarText?,
        s.sdVersion.bind scalarText?, s.modelSpecArchitecture.bind scalarText?,
        (s.provider.bind ProviderNotes.baseModel).bind scalarText?].filterMap id := by
  rw [baseModelFields, List.filterMap_filterMap]
  rfl

theorem baseModelFields_usable (h : HasOwnNames fields) (hsection : HasSection fields) :
    (ofFields (usable fields)).baseModelFields.filterMap scalarText? =
      (ofFields fields).baseModelFields.filterMap scalarText? := by
  have hsingle : ∀ name ∈ singleNames,
      (stored? (usable fields) name).bind scalarText? = (stored? fields name).bind scalarText? := by
    intro name hname
    have hother := ne_civitai_of_mem (List.mem_append_left _ hname)
    exact bind_scalarText?_keep h.apart (usablePart?_eq hother) hname
  have hprovider := bind_provider_usable h hsection scalarText? ProviderNotes.baseModel
    (fun _ => rfl) fun inner hinner => bind_scalarText?_keep hinner (fun _ => rfl) (by decide)
  simp only [singleNames, List.forall_mem_cons] at hsingle
  obtain ⟨hbaseModel, hsnake, hversion, hspec, -⟩ := hsingle
  rw [filterMap_baseModelFields, filterMap_baseModelFields, hprovider]
  simp only [ofFields, hbaseModel, hsnake, hversion, hspec]

/-- **What a field cannot use has no say in the family.** -/
theorem architecture?_usable (h : HasOwnNames fields) (hsection : HasSection fields) :
    (ofFields (usable fields)).architecture? = (ofFields fields).architecture? :=
  architecture?_congr (by rw [tags_usable h hsection]) (baseModelFields_usable h hsection)

theorem not_hides_usable (h : HasOwnNames fields) :
    ∀ value ∈ (ofFields (usable fields)).trainedWords, ¬Hides value := by
  intro value hvalue hhides
  obtain ⟨whole, hwhole, rfl⟩ := Option.map_eq_some_iff.mp hvalue
  have hkept := lookup_of_present? hwhole
  rw [usable, lookup_keep h.apart] at hkept
  obtain ⟨found, -, hpart⟩ := Option.bind_eq_some_iff.mp hkept
  rw [usablePart?_eq (by decide), usableValue?] at hpart
  split at hpart
  · obtain rfl := Option.some.inj hpart
    cases found with
    | array items => cases hhides
    | _ => contradiction
  · cases hpart

/-- **What a field cannot use has no say in the words**, unless it hides those of
the provider. -/
theorem words_usable (h : HasOwnNames fields) (hsection : HasSection fields)
    (hhides : ∀ value ∈ (ofFields fields).trainedWords, ¬Hides value) :
    (ofFields (usable fields)).words = (ofFields fields).words := by
  refine words_congr hhides (not_hides_usable h) ?_ ?_
  · exact bind_array?_keep h.apart (usablePart?_eq (by decide)) (by decide)
  · exact bind_provider_usable h hsection Value.array? ProviderNotes.trainedWords (fun _ => rfl)
      fun inner hinner => bind_array?_keep hinner (fun _ => rfl) (by decide)

/-! ## Reading what is left -/

/-- Keeping parts does not nest them deeper. -/
theorem depth_keep_le (hpart : ∀ name value kept, part? name value = some kept →
      kept.toWritten.depth ≤ value.toWritten.depth) :
    (Value.object (keep part? fields)).toWritten.depth ≤ (Value.object fields).toWritten.depth := by
  -- An object is one deeper than the deepest of its fields.
  have hkept : ∀ field ∈ keep part? fields,
      field.2.toWritten.depth ≤ (Value.object fields).toWritten.depth - 1 := by
    intro field hfield
    obtain ⟨whole, hwhole, hkept⟩ := mem_keep_iff.mp hfield
    have hle := hpart field.1 whole field.2 hkept
    have hlt : whole.toWritten.depth < _ := Value.depth_lt_object hwhole
    omega
  have hle := Value.depth_object_le hkept
  have hpos : 1 ≤ (Value.object fields).toWritten.depth := Nat.le_add_right 1 _
  omega

theorem depth_usableValue?_le (name : String) (value kept : Value)
    (h : usableValue? name value = some kept) :
    kept.toWritten.depth ≤ value.toWritten.depth := by
  rw [usableValue?] at h
  split at h
  · exact Option.some.inj h ▸ Nat.le_refl _
  · cases h

theorem depth_usablePart?_le (name : String) (value kept : Value)
    (h : usablePart? name value = some kept) :
    kept.toWritten.depth ≤ value.toWritten.depth := by
  unfold usablePart? at h
  split at h
  · unfold usableSection? at h
    split at h
    · exact Option.some.inj h ▸ depth_keep_le depth_usableValue?_le
    · split at h
      · exact Option.some.inj h ▸ Nat.le_refl _
      · cases h
    · cases h
  · exact depth_usableValue?_le name value kept h

theorem hasOwnNames_usable (h : HasOwnNames fields) : HasOwnNames (usable fields) where
  apart := h.apart.sublist sublist_keys_keep
  inner := by
    intro kept hkept
    rw [usable, lookup_keep h.apart] at hkept
    obtain ⟨written, hwritten, hpart⟩ := Option.bind_eq_some_iff.mp hkept
    rw [usablePart?, if_pos rfl] at hpart
    cases written with
    | object inner =>
        obtain rfl := Value.object.inj (Option.some.inj hpart)
        exact (h.inner inner hwritten).sublist sublist_keys_keep
    | array items =>
        rw [usableSection?] at hpart
        split at hpart <;> cases hpart
    | _ => cases hpart

theorem hasSection_usable (h : HasOwnNames fields) : HasSection (usable fields) := by
  intro kept hkept
  rw [usable, lookup_keep h.apart] at hkept
  obtain ⟨written, -, hpart⟩ := Option.bind_eq_some_iff.mp hkept
  exact isSection_of_usableSection? hpart

/-- A section that is not nested too deep can be read. -/
theorem isReadable_of_depth_le {written : Value} (hsection : IsSection written)
    (hinner : ∀ inner, written = .object inner → (inner.map Prod.fst).Nodup)
    (hdepth : 1 + written.toWritten.depth ≤ Value.depthLimit) : IsReadable written where
  isSection := hsection
  apart := by
    cases hsection with
    | absent => exact List.nodup_nil
    | object inner => exact hinner inner rfl
    | @list items _ =>
        have hnames : ((sectionNames.zip items).map Prod.fst).Sublist sectionNames := by
          rw [List.zip_eq_zip_take_min, List.map_fst_zip (by simp)]
          exact List.take_sublist _ _
        exact hnames.nodup (by decide)
  fits := by
    cases hsection with
    | absent => exact fun name value hvalue => nomatch hvalue
    | object inner => exact fits_of_depth_le hdepth
    | @list items _ =>
        intro name value hvalue
        have hmem : value ∈ items := by
          have hpair : (name, value) ∈ sectionNames.zip items := by
            obtain ⟨before, after, heq, -⟩ := List.lookup_eq_some_iff.mp hvalue
            rw [sectionFields] at heq
            rw [heq]
            exact List.mem_append_right _ (List.mem_cons_self ..)
          exact (List.of_mem_zip hpair).2
        have hlt := Value.depth_lt_array hmem
        omega

/-- **An object is read if it has a section**, whatever its other fields are. -/
theorem ofWritten?_of_hasSection (h : HasOwnNames fields) (hsection : HasSection fields)
    (hdepth : (Value.object fields).toWritten.depth ≤ Value.depthLimit) :
    ofWritten? (Value.object fields).toWritten = some (ofFields fields) := by
  have hfits : Fits 0 fields := fits_of_depth_le (by rwa [Nat.zero_add])
  refine ofWritten?_object h.apart hfits fun written hwritten => ?_
  have hle := hfits "civitai" written hwritten
  refine isReadable_of_depth_le (hsection written hwritten) ?_ (by omega)
  rintro inner rfl
  exact h.inner inner hwritten

/-- **Reading with and without unusable fields.**  An object with names of its own is
read if and only if what it has under the provider's name is a section.  Without
its fields of unusable kind it is always read; the family is the same, and so are
the words, unless a value that is no list hides them. -/
theorem reads_usable_fields {fields : List (String × Value)} (h : HasOwnNames fields)
    (hdepth : (Value.object fields).toWritten.depth ≤ Value.depthLimit) :
    ((ofWritten? (Value.object fields).toWritten).isSome ↔ HasSection fields) ∧
    ∃ rest, ofWritten? (Value.object (usable fields)).toWritten = some rest ∧
      ∀ s, ofWritten? (Value.object fields).toWritten = some s →
        s.architecture? = rest.architecture? ∧
        ((∀ value ∈ s.trainedWords, ¬Hides value) → s.words = rest.words) ∧
        ((∃ value ∈ s.trainedWords, Hides value) → s.words = []) := by
  have hrest : ofWritten? (Value.object (usable fields)).toWritten =
      some (ofFields (usable fields)) :=
    ofWritten?_of_hasSection (hasOwnNames_usable h) (hasSection_usable h)
      ((depth_keep_le depth_usablePart?_le).trans hdepth)
  refine ⟨⟨?_, ?_⟩, _, hrest, ?_⟩
  · intro hsome
    obtain ⟨s, hs⟩ := Option.isSome_iff_exists.mp hsome
    exact (eq_ofFields hs).2
  · intro hsection
    rw [ofWritten?_of_hasSection h hsection hdepth]
    rfl
  · intro s hs
    obtain ⟨rfl, hsection⟩ := eq_ofFields hs
    refine ⟨(architecture?_usable h hsection).symm, ?_, ?_⟩
    · intro hhides
      exact (words_usable h hsection hhides).symm
    · rintro ⟨value, hvalue, hhides⟩
      exact words_of_hides hvalue hhides

/-- An object with values of unusable kind, a family and words. -/
def mixedFields : List (String × Value) :=
  [("baseModel", .bool true), ("sd_version", .string "Pony"), ("trainedWords", .null),
    ("civitai", .object [("tags", .string "sdxl"), ("trainedWords", .array [.string "ink"])])]

/-- What can be used of it is found. -/
theorem reads_usable_fields_mixed :
    HasOwnNames mixedFields ∧ (Value.object mixedFields).toWritten.depth ≤ Value.depthLimit ∧
      HasSection mixedFields ∧
      usable mixedFields = [("sd_version", .string "Pony"),
        ("civitai", .object [("trainedWords", .array [.string "ink"])])] ∧
      ∃ s rest, ofWritten? (Value.object mixedFields).toWritten = some s ∧
        ofWritten? (Value.object (usable mixedFields)).toWritten = some rest ∧
        s.architecture? = some .pony ∧ rest.architecture? = some .pony ∧
        s.words = ["ink"] ∧ rest.words = ["ink"] := by
  have hnames : HasOwnNames mixedFields := by
    refine ⟨by decide, ?_⟩
    intro inner hinner
    obtain rfl := Value.object.inj (Option.some.inj hinner)
    decide
  have hdepth : (Value.object mixedFields).toWritten.depth ≤ Value.depthLimit := by decide
  have hread : ofWritten? (Value.object mixedFields).toWritten = some (ofFields mixedFields) := rfl
  have hpony : (ofFields mixedFields).architecture? = some .pony := by decide +kernel
  have hwords : (ofFields mixedFields).words = ["ink"] := rfl
  have hhides : ∀ value ∈ (ofFields mixedFields).trainedWords, ¬Hides value := fun _ => nofun
  obtain ⟨hdecodes, rest, hrest, hsame⟩ := reads_usable_fields hnames hdepth
  obtain ⟨harchitecture, hsameWords, -⟩ := hsame _ hread
  exact ⟨hnames, hdepth, hdecodes.mp (hread ▸ rfl), rfl, _, rest, hread, hrest, hpony,
    harchitecture ▸ hpony, hwords, hsameWords hhides ▸ hwords⟩

/-- An object with a family and a text in the place of its provider's section. -/
def misreadFields : List (String × Value) :=
  [("baseModel", .string "Pony"), ("civitai", .string "x")]

/-- The text takes the family away. -/
theorem misread_section :
    ¬ ∀ fields, HasOwnNames fields →
      (Value.object fields).toWritten.depth ≤ Value.depthLimit →
      ∃ s rest, ofWritten? (Value.object fields).toWritten = some s ∧
        ofWritten? (Value.object (usable fields)).toWritten = some rest ∧
        s.architecture? = rest.architecture? ∧ s.words = rest.words := by
  intro h
  have hnames : HasOwnNames misreadFields := ⟨by decide, fun inner hinner => nomatch hinner⟩
  obtain ⟨s, -, hread, -⟩ := h misreadFields hnames (by decide)
  cases (eq_ofFields hread).2 (.string "x") rfl

end LoraSchedule.Sidecar
