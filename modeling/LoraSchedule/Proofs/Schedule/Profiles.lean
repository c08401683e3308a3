import LoraSchedule.Proofs.Json.Outermost
import LoraSchedule.Proofs.Schedule.Document
import LoraSchedule.Proofs.Schedule.Sorting

/-!
# Structured schedules

A document selects a list of items, its own or that of its active profile
(`Selects`), and the items are read one by one (`ReadsItems`): those that are no
entries or not enabled are left out, the others get their points in order.

So a structured schedule depends on the selected items only, and on each of them
by itself (`Schedule.structured_schedule`).  Read by lines or as a document, a
text that is a JSON list has the same entries.
-/

namespace LoraSchedule

open LoraSchedule.Json LoraSchedule.Text

/-! ## The selected items -/

/-- The profile that an object names as active. -/
inductive ActiveProfile (fields : List (String × Value)) : String → Prop
  | named {name : String} (h : fields.lookup "active_profile" = some (.string name)) :
      ActiveProfile fields name
  | standard (h : ∀ name, fields.lookup "active_profile" ≠ some (.string name)) :
      ActiveProfile fields "Default"

/-- The items of a profile: it is a list, or an object with a list. -/
inductive HoldsItems : Value → List Value → Prop
  | list (items : List Value) : HoldsItems (.array items) items
  | object {fields : List (String × Value)} {items : List Value}
      (h : fields.lookup "loras" = some (.array items)) : HoldsItems (.object fields) items

/-- The items that a document selects: it is a list, or an object with an active
profile. -/
inductive Selects : Value → List Value → Prop
  | list (items : List Value) : Selects (.array items) items
  | profile {fields profiles : List (String × Value)} {name : String} {profile : Value}
      {items : List Value} (hactive : ActiveProfile fields name)
      (hprofiles : fields.lookup "profiles" = some (.object profiles))
      (hprofile : profiles.lookup name = some profile) (hitems : HoldsItems profile items) :
      Selects (.object fields) items

namespace Schedule

/-- The name of the active profile. -/
def activeName (fields : List (String × Value)) : String :=
  ((fields.lookup "active_profile").bind Value.string?).getD defaultProfile

/-- **One profile is active.** -/
theorem activeName_eq {fields : List (String × Value)} {name : String}
    (h : ActiveProfile fields name) : activeName fields = name := by
  cases h with
  | named h => simp [activeName, h, Value.string?]
  | standard h =>
      cases hfield : fields.lookup "active_profile" with
      | none => simp [activeName, hfield, defaultProfile]
      | some value =>
          have hother : value.string? = none := by
            cases value <;> first | rfl | exact absurd hfield (h _)
          simp [activeName, hfield, hother, defaultProfile]

theorem activeProfile_activeName (fields : List (String × Value)) :
    ActiveProfile fields (activeName fields) := by
  by_cases hnamed : ∃ name, fields.lookup "active_profile" = some (.string name)
  · obtain ⟨name, hname⟩ := hnamed
    rw [activeName_eq (.named hname)]
    exact .named hname
  · rw [not_exists] at hnamed
    rw [activeName_eq (.standard hnamed)]
    exact .standard hnamed

theorem profileItems_of_holdsItems {profile : Value} {items : List Value}
    (h : HoldsItems profile items) : profileItems profile = items := by
  cases h with
  | list => rfl
  | object h => simp [profileItems, Value.field?, Value.object?, Value.array?, h]

theorem profileItems_eq_nil {profile : Value} (h : ∀ items, ¬HoldsItems profile items) :
    profileItems profile = [] := by
  cases profile with
  | array items => exact absurd (.list items) (h items)
  | object fields =>
      cases hfield : fields.lookup "loras" with
      | none => simp [profileItems, Value.field?, Value.object?, hfield]
      | some value =>
          cases value with
          | array items => exact absurd (.object hfield) (h items)
          | _ => simp [profileItems, Value.field?, Value.object?, Value.array?, hfield]
  | _ => rfl

theorem selectedItems_object (fields : List (String × Value)) :
    selectedItems (.object fields) =
      (((fields.lookup "profiles").bind fun profiles =>
        profiles.field? (activeName fields)).map profileItems).getD [] :=
  rfl

/-- **A document selects at most one list.** -/
theorem selectedItems_of_selects {document : Value} {items : List Value}
    (h : Selects document items) : selectedItems document = items := by
  cases h with
  | list => rfl
  | profile hactive hprofiles hprofile hitems =>
      rw [selectedItems_object, hprofiles, activeName_eq hactive]
      simp [Value.field?, Value.object?, hprofile, profileItems_of_holdsItems hitems]

theorem selectedItems_eq_nil {document : Value} (h : ∀ items, ¬Selects document items) :
    selectedItems document = [] := by
  cases document with
  | array items => exact absurd (.list items) (h items)
  | object fields =>
      rw [selectedItems_object]
      cases hprofiles : fields.lookup "profiles" with
      | none => rfl
      | some value =>
          cases value with
          | object profiles =>
              cases hprofile : profiles.lookup (activeName fields) with
              | none => simp [Value.field?, Value.object?, hprofile]
              | some profile =>
                  have hnone : profileItems profile = [] :=
                    profileItems_eq_nil fun items hitems => h items
                      (.profile (activeProfile_activeName fields) hprofiles hprofile hitems)
                  simp [Value.field?, Value.object?, hprofile, hnone]
          | _ => rfl
  | _ => rfl

end Schedule

/-! ## Items one by one -/

/-- An item that gives no entry to a schedule: it is none, or is not enabled. -/
def IsPassedOver (item : Value) : Prop :=
  ∀ e, Entry.ofWritten? item.toWritten = some e → e.enabled = false

/-- The enabled entries among the items of a list, in their order, each with its
points sorted stably. -/
inductive ReadsItems : List Value → List Entry → Prop
  | nil : ReadsItems [] []
  | entry {item : Value} {items : List Value} {e : Entry} {points : List KeyPoint}
      {entries : List Entry} (hitem : Entry.ofWritten? item.toWritten = some e)
      (henabled : e.enabled = true) (hpoints : StablySorts points e.points)
      (hrest : ReadsItems items entries) :
      ReadsItems (item :: items) ({ e with points } :: entries)
  | passedOver {item : Value} {items : List Value} {entries : List Entry}
      (hitem : IsPassedOver item) (hrest : ReadsItems items entries) :
      ReadsItems (item :: items) entries

namespace Schedule

/-- The entries of a schedule among some items. -/
def readItems (items : List Value) : List Entry :=
  (Entry.ofDocuments items).filter Entry.enabled

theorem readItems_append (first second : List Value) :
    readItems (first ++ second) = readItems first ++ readItems second := by
  rw [readItems, Entry.ofDocuments, List.filterMap_append, List.filter_append]
  rfl

theorem readItems_of_isPassedOver {item : Value} (h : IsPassedOver item) :
    readItems [item] = [] := by
  cases hitem : Entry.ofWritten? item.toWritten with
  | none => simp [readItems, Entry.ofDocuments, hitem]
  | some e =>
      have hdisabled : e.sorted.enabled = false := h e hitem
      simp [readItems, Entry.ofDocuments, hitem, hdisabled]

theorem readItems_of_entry {item : Value} {e : Entry}
    (hitem : Entry.ofWritten? item.toWritten = some e) (henabled : e.enabled = true) :
    readItems [item] = [e.sorted] := by
  have hkept : e.sorted.enabled = true := henabled
  simp [readItems, Entry.ofDocuments, hitem, hkept]

/-- An item is an enabled entry, or is passed over. -/
theorem isPassedOver_or (item : Value) : IsPassedOver item ∨
    ∃ e, Entry.ofWritten? item.toWritten = some e ∧ e.enabled = true := by
  by_cases h : IsPassedOver item
  · exact .inl h
  · simp only [IsPassedOver, not_forall, Bool.not_eq_false] at h
    obtain ⟨e, hitem, henabled⟩ := h
    exact .inr ⟨e, hitem, henabled⟩

/-- **Items are read one by one.** -/
theorem readsItems_iff {items : List Value} {entries : List Entry} :
    ReadsItems items entries ↔ readItems items = entries := by
  constructor
  · intro h
    induction h with
    | nil => rfl
    | @entry item items e points entries hitem henabled hpoints _ ih =>
        obtain rfl := stablySorts_iff.mp hpoints
        rw [← List.singleton_append, readItems_append, readItems_of_entry hitem henabled, ih]
        rfl
    | @passedOver item items entries hitem _ ih =>
        rw [← List.singleton_append, readItems_append, readItems_of_isPassedOver hitem, ih]
        rfl
  · rintro rfl
    induction items with
    | nil => exact .nil
    | cons item items ih =>
        rw [← List.singleton_append, readItems_append]
        rcases isPassedOver_or item with hitem | ⟨e, hitem, henabled⟩
        · rw [readItems_of_isPassedOver hitem]
          exact .passedOver hitem ih
        · rw [readItems_of_entry hitem henabled]
          exact .entry hitem henabled (stablySorts_sortPoints e.points) ih

/-! ## Schedule texts -/

section Texts

variable {text other : String} {document document' : Value}

theorem ofText_eq (hdocument : Value.ofText? (trim text.toList) = some document) :
    ofText text = readItems (selectedItems document) := by
  rw [ofText, hdocument]
  rfl

theorem ofText_of_selects {items : List Value}
    (hdocument : Value.ofText? (trim text.toList) = some document)
    (hitems : Selects document items) : ofText text = readItems items := by
  rw [ofText_eq hdocument, selectedItems_of_selects hitems]

theorem ofText_eq_nil (hdocument : Value.ofText? (trim text.toList) = some document)
    (hnone : ∀ items, ¬Selects document items) : ofText text = [] := by
  rw [ofText_eq hdocument, selectedItems_eq_nil hnone]
  rfl

/-- **A JSON list is the same schedule in both syntaxes.** -/
theorem ofText_of_list {items : List Value}
    (hdocument : Value.ofText? (trim text.toList) = some (.array items)) :
    ofText text = (parse text).filter Entry.enabled := by
  rw [ofText_of_selects hdocument (.list items), parse, jsonItems?_eq_some_iff.mpr hdocument]
  rfl

/-- **An item fails alone**: with one that is passed over in its place, the others
are read as before. -/
theorem ofText_of_replaced {before after : List Value} {item failing : Value}
    (hdocument : Value.ofText? (trim text.toList) = some document)
    (hdocument' : Value.ofText? (trim other.toList) = some document')
    (hitems : Selects document (before ++ item :: after))
    (hitems' : Selects document' (before ++ failing :: after)) (hfailing : IsPassedOver failing) :
    ∃ first last, ReadsItems before first ∧ ReadsItems after last ∧
      ofText other = first ++ last ∧
      (IsPassedOver item ∧ ofText text = first ++ last ∨
        ∃ e, ReadsItems [item] [e] ∧ ofText text = first ++ e :: last) := by
  have hsplit : ∀ middle, readItems (before ++ middle :: after) =
      readItems before ++ (readItems [middle] ++ readItems after) := by
    intro middle
    rw [readItems_append, ← List.singleton_append, readItems_append]
  refine ⟨readItems before, readItems after, readsItems_iff.mpr rfl, readsItems_iff.mpr rfl, ?_, ?_⟩
  · rw [ofText_of_selects hdocument' hitems', hsplit, readItems_of_isPassedOver hfailing,
      List.nil_append]
  · rw [ofText_of_selects hdocument hitems, hsplit]
    rcases isPassedOver_or item with hitem | ⟨e, hitem, henabled⟩
    · exact .inl ⟨hitem, by rw [readItems_of_isPassedOver hitem, List.nil_append]⟩
    · have hone := readItems_of_entry hitem henabled
      exact .inr ⟨e.sorted, readsItems_iff.mpr hone, by rw [hone, List.singleton_append]⟩

/-- **Other profiles than the active one do not count.** -/
theorem ofText_of_active {fields fields' profiles profiles' : List (String × Value)}
    {name : String} (hdocument : Value.ofText? (trim text.toList) = some (.object fields))
    (hdocument' : Value.ofText? (trim other.toList) = some (.object fields'))
    (hactive : ActiveProfile fields name) (hactive' : ActiveProfile fields' name)
    (hprofiles : fields.lookup "profiles" = some (.object profiles))
    (hprofiles' : fields'.lookup "profiles" = some (.object profiles'))
    (hsame : profiles.lookup name = profiles'.lookup name) : ofText other = ofText text := by
  rw [ofText_eq hdocument, ofText_eq hdocument', selectedItems_object, selectedItems_object,
    hprofiles, hprofiles', activeName_eq hactive, activeName_eq hactive']
  simp [Value.field?, Value.object?, hsame]

end Texts

/-- **A structured schedule is read item by item.**  Its entries are the enabled
ones among the items that its document selects, in their order and with their
points sorted stably; where nothing is selected, or the text is no document,
there are none.  An item that is passed over takes nothing else with it, and the
profiles that are not active do not count.  A JSON list has the enabled entries
that it has as a text of entries. -/
theorem structured_schedule (text : String) :
    (∀ document, Value.ofText? (trim text.toList) = some document →
      (∀ items, Selects document items →
        ∀ entries, ofText text = entries ↔ ReadsItems items entries) ∧
      ((∀ items, ¬Selects document items) → ofText text = []) ∧
      ((∃ items, document = .array items) → ofText text = (parse text).filter Entry.enabled)) ∧
    (Value.ofText? (trim text.toList) = none → ofText text = []) ∧
    (∀ other document document' before item failing after,
      Value.ofText? (trim text.toList) = some document →
      Value.ofText? (trim other.toList) = some document' →
      Selects document (before ++ item :: after) → Selects document' (before ++ failing :: after) →
      IsPassedOver failing →
      ∃ first last, ReadsItems before first ∧ ReadsItems after last ∧
        ofText other = first ++ last ∧
        (IsPassedOver item ∧ ofText text = first ++ last ∨
          ∃ e, ReadsItems [item] [e] ∧ ofText text = first ++ e :: last)) ∧
    ∀ other fields fields' profiles profiles' name,
      Value.ofText? (trim text.toList) = some (.object fields) →
      Value.ofText? (trim other.toList) = some (.object fields') →
      ActiveProfile fields name → ActiveProfile fields' name →
      fields.lookup "profiles" = some (.object profiles) →
      fields'.lookup "profiles" = some (.object profiles') →
      profiles.lookup name = profiles'.lookup name → ofText other = ofText text := by
  refine ⟨fun document hdocument => ⟨fun items hitems entries => ?_, ofText_eq_nil hdocument, ?_⟩,
    fun hnone => ?_, fun _ _ _ _ _ _ _ => ofText_of_replaced, fun _ _ _ _ _ _ => ofText_of_active⟩
  · rw [ofText_of_selects hdocument hitems, readsItems_iff]
  · rintro ⟨items, rfl⟩
    exact ofText_of_list hdocument
  · rw [ofText, hnone]
    rfl

/-- A document whose default profile has one item. -/
def oneItem (item : Value) (others : List (String × Value)) : Value :=
  .object [("profiles", .object (("Default", .object [("loras", .array [item])]) :: others))]

theorem selects_oneItem (item : Value) (others : List (String × Value)) :
    Selects (oneItem item others) [item] :=
  .profile (.standard (by simp [Dict.lookup_cons_eq_if])) rfl rfl (.object rfl)

theorem ofText?_oneItem (item : Value) (others : List (String × Value))
    (hprintable : (oneItem item others).Printable)
    (hdepth : (oneItem item others).toWritten.depth ≤ Value.depthLimit)
    (hsorted : (oneItem item others).sortFields = oneItem item others)
    (htrimmed : Trimmed (oneItem item others).compact) :
    Value.ofText? (trim (String.ofList (oneItem item others).compact).toList) =
      some (oneItem item others) := by
  have hwritten := Value.ofText?_printed hprintable _ (List.mem_cons_of_mem _ List.mem_cons_self)
  rw [String.toList_ofList, trim_eq_self htrimmed, Value.ofText?_of_written hwritten hdepth,
    hsorted]

/-- A profile with one entry; the same with an item in its place that is none, and
with another profile; and a text that is no document. -/
theorem structured_schedule_of_one_item :
    (∃ text failing further : String, ∃ item : Value,
      Value.ofText? (trim text.toList) = some (oneItem item []) ∧
      Value.ofText? (trim failing.toList) = some (oneItem .null []) ∧
      Value.ofText? (trim further.toList) = some (oneItem item [("Night", .null)]) ∧
      ReadsItems [item] (ofText text) ∧ (ofText text).map Entry.name = ["moon"] ∧
      ofText failing = [] ∧ ofText further = ofText text) ∧
    ofText "\x7boops" = [] := by
  obtain ⟨moon, hmoon⟩ : ∃ moon : Value, moon = .object [("lora_name", .string "moon")] := ⟨_, rfl⟩
  have htext := ofText?_oneItem moon []
    (by simp [hmoon, oneItem, Value.Printable, Value.ItemsPrintable, Value.FieldsPrintable])
    (by rw [hmoon]; decide) (by rw [hmoon]; rfl) (trimmed_of_all (by rw [hmoon]; decide))
  have hfailing := ofText?_oneItem .null []
    (by simp [oneItem, Value.Printable, Value.ItemsPrintable, Value.FieldsPrintable])
    (by decide) rfl (trimmed_of_all (by decide))
  have hfurther := ofText?_oneItem moon [("Night", .null)]
    (by simp [hmoon, oneItem, Value.Printable, Value.ItemsPrintable, Value.FieldsPrintable])
    (by rw [hmoon]; decide) (by rw [hmoon]; rfl) (trimmed_of_all (by rw [hmoon]; decide))
  obtain ⟨hread, -, hreplaced, hprofiles⟩ := structured_schedule
    (String.ofList (oneItem moon []).compact)
  refine ⟨⟨_, _, _, moon, htext, hfailing, hfurther, ?_, by rw [hmoon]; decide +kernel, ?_, ?_⟩, ?_⟩
  · exact ((hread _ htext).1 _ (selects_oneItem moon []) _).mp rfl
  · have hnull : IsPassedOver .null := fun e he => by cases he
    obtain ⟨first, last, hfirst, hlast, heq, -⟩ := hreplaced _ _ _ [] moon .null [] htext hfailing
      (selects_oneItem moon []) (selects_oneItem .null []) hnull
    cases hfirst
    cases hlast
    exact heq
  · exact hprofiles _ _ _ _ _ "Default" htext hfurther (.standard (by simp [Dict.lookup_cons_eq_if]))
      (.standard (by simp [Dict.lookup_cons_eq_if])) rfl rfl rfl
  · exact (structured_schedule _).2.1 (Option.isNone_iff_eq_none.mp (by decide +kernel))

end Schedule

end LoraSchedule
