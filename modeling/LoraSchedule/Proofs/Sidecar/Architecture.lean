import LoraSchedule.Proofs.Sidecar.Fields

/-!
# The family that a sidecar names

A sidecar may name several families, in the tags of its provider and in the
fields for a base model.  The first family other than SDXL itself counts, tags
before fields; SDXL counts if a field names it and nothing is more specific
(`architecture?_rule`).
-/

namespace LoraSchedule.Sidecar

open LoraSchedule.Json (Value)

/-! ## What is named -/

/-- A value names the family of the strongest keyword in what it says. -/
def Names (value : Value) (a : Architecture) : Prop :=
  ∃ text, Says value text ∧ Architecture.ofKeyword? text = some a

/-- The first family other than SDXL itself that some values name. -/
def FirstSpecific (values : List Value) (a : Architecture) : Prop :=
  ∃ before value after, values = before ++ value :: after ∧ Names value a ∧ a ≠ .sdxl ∧
    ∀ earlier ∈ before, ∀ b, Names earlier b → b = .sdxl

/-- The family that a sidecar names, if any. -/
inductive NamesFamily (s : Sidecar) : Option Architecture → Prop
  | tag {a : Architecture} (htag : FirstSpecific s.tags a) : NamesFamily s (some a)
  | field {a : Architecture} (htags : ∀ b, ¬FirstSpecific s.tags b)
      (hfield : FirstSpecific s.baseModelFields a) : NamesFamily s (some a)
  | generic (htags : ∀ b, ¬FirstSpecific s.tags b)
      (hfields : ∀ b, ¬FirstSpecific s.baseModelFields b)
      (hsdxl : ∃ value ∈ s.baseModelFields, Names value .sdxl) : NamesFamily s (some .sdxl)
  | nothing (htags : ∀ b, ¬FirstSpecific s.tags b)
      (hfields : ∀ b, ¬FirstSpecific s.baseModelFields b)
      (hsdxl : ∀ value ∈ s.baseModelFields, ¬Names value .sdxl) : NamesFamily s none

/-! ## Finding it -/

variable {values : List Value} {a : Architecture}

theorem family?_eq_some_iff {value : Value} :
    (scalarText? value >>= Architecture.ofKeyword?) = some a ↔ Names value a := by
  rw [Option.bind_eq_bind, Option.bind_eq_some_iff, Names]
  refine exists_congr fun text => and_congr_left fun _ => scalarText?_eq_some_iff

theorem mem_families_iff : a ∈ families values ↔ ∃ value ∈ values, Names value a := by
  rw [families, List.mem_filterMap]
  exact exists_congr fun value => and_congr_right fun _ => family?_eq_some_iff

theorem not_isGeneric_iff : (!a.isGeneric) = true ↔ a ≠ .sdxl := by
  simp [Architecture.isGeneric]

theorem find?_families_iff :
    (families values).find? (fun a => !a.isGeneric) = some a ↔ FirstSpecific values a := by
  constructor
  · intro h
    obtain ⟨hspecific, earlier, later, hsplit, hearlier⟩ := List.find?_eq_some_iff_append.mp h
    obtain ⟨before, rest, rfl, rfl, hrest⟩ := List.filterMap_eq_append_iff.mp hsplit
    obtain ⟨between, value, after, rfl, hbetween, hvalue, -⟩ := List.filterMap_eq_cons_iff.mp hrest
    refine ⟨before ++ between, value, after, by simp, family?_eq_some_iff.mp hvalue,
      not_isGeneric_iff.mp hspecific, ?_⟩
    intro other hother b hnames
    rcases List.mem_append.mp hother with hbefore | hmute
    · have hgeneric := hearlier b (mem_families_iff.mpr ⟨other, hbefore, hnames⟩)
      by_contra hne
      rw [not_isGeneric_iff.mpr hne] at hgeneric
      cases hgeneric
    · have hnone := hbetween other hmute
      rw [family?_eq_some_iff.mpr hnames] at hnone
      cases hnone
  · rintro ⟨before, value, after, rfl, hnames, hspecific, hbefore⟩
    have hfirst : (families before).find? (fun a => !a.isGeneric) = none := by
      rw [List.find?_eq_none]
      intro b hb hnot
      obtain ⟨earlier, hearlier, hb⟩ := mem_families_iff.mp hb
      exact not_isGeneric_iff.mp hnot (hbefore earlier hearlier b hb)
    have hvalue : families (value :: after) = a :: families after :=
      List.filterMap_cons_some (family?_eq_some_iff.mpr hnames)
    have hsplit : families (before ++ value :: after) =
        families before ++ families (value :: after) := List.filterMap_append
    rw [hsplit, hvalue, List.find?_append, hfirst, Option.none_or]
    exact List.find?_cons_of_pos (not_isGeneric_iff.mpr hspecific)

theorem find?_families_eq_none_iff :
    (families values).find? (fun a => !a.isGeneric) = none ↔ ∀ a, ¬FirstSpecific values a := by
  rw [Option.eq_none_iff_forall_ne_some]
  exact forall_congr' fun a => not_congr find?_families_iff

/-- Where nothing more specific is named, the last family named is SDXL, if any. -/
theorem getLast?_families (h : ∀ b, ¬FirstSpecific values b) :
    (families values).getLast? = some a ↔ a = .sdxl ∧ ∃ value ∈ values, Names value .sdxl := by
  have hgeneric : ∀ b ∈ families values, b = .sdxl := by
    intro b hb
    by_contra hne
    exact List.find?_eq_none.mp (find?_families_eq_none_iff.mpr h) b hb (not_isGeneric_iff.mpr hne)
  constructor
  · intro hlast
    have hmem := List.mem_of_getLast? hlast
    obtain rfl := hgeneric a hmem
    exact ⟨rfl, mem_families_iff.mp hmem⟩
  · rintro ⟨rfl, hnamed⟩
    obtain ⟨b, hb⟩ := Option.isSome_iff_exists.mp
      (List.getLast?_isSome.mpr (List.ne_nil_of_mem (mem_families_iff.mpr hnamed)))
    rw [hb, hgeneric b (List.mem_of_getLast? hb)]

/-! ## The rule -/

variable {s : Sidecar}

theorem architecture?_of_tag (htag : FirstSpecific s.tags a) : s.architecture? = some a := by
  rw [architecture?, find?_families_iff.mpr htag]

theorem architecture?_of_field (htags : ∀ b, ¬FirstSpecific s.tags b)
    (hfield : FirstSpecific s.baseModelFields a) : s.architecture? = some a := by
  rw [architecture?, find?_families_eq_none_iff.mpr htags]
  simp only [find?_families_iff.mpr hfield]

theorem architecture?_of_neither (htags : ∀ b, ¬FirstSpecific s.tags b)
    (hfields : ∀ b, ¬FirstSpecific s.baseModelFields b) :
    s.architecture? = (families s.baseModelFields).getLast? := by
  rw [architecture?, find?_families_eq_none_iff.mpr htags]
  simp only [find?_families_eq_none_iff.mpr hfields]

theorem architecture?_of_namesFamily {answer : Option Architecture} (h : NamesFamily s answer) :
    s.architecture? = answer := by
  cases h with
  | tag htag => exact architecture?_of_tag htag
  | field htags hfield => exact architecture?_of_field htags hfield
  | generic htags hfields hsdxl =>
      rw [architecture?_of_neither htags hfields]
      exact (getLast?_families hfields).mpr ⟨rfl, hsdxl⟩
  | nothing htags hfields hsdxl =>
      rw [architecture?_of_neither htags hfields, Option.eq_none_iff_forall_ne_some]
      intro a ha
      obtain ⟨-, value, hvalue, hnames⟩ := (getLast?_families hfields).mp ha
      exact hsdxl value hvalue hnames

/-- Some case of the rule applies. -/
theorem exists_namesFamily (s : Sidecar) : ∃ answer, NamesFamily s answer := by
  by_cases htags : ∃ a, FirstSpecific s.tags a
  · obtain ⟨a, htag⟩ := htags
    exact ⟨_, .tag htag⟩
  · rw [not_exists] at htags
    by_cases hfields : ∃ a, FirstSpecific s.baseModelFields a
    · obtain ⟨a, hfield⟩ := hfields
      exact ⟨_, .field htags hfield⟩
    · rw [not_exists] at hfields
      by_cases hsdxl : ∃ value ∈ s.baseModelFields, Names value .sdxl
      · exact ⟨_, .generic htags hfields hsdxl⟩
      · exact ⟨_, .nothing htags hfields fun value hvalue hnames =>
          hsdxl ⟨value, hvalue, hnames⟩⟩

/-- **The answer is what the rule says.** -/
theorem architecture?_iff {answer : Option Architecture} :
    s.architecture? = answer ↔ NamesFamily s answer := by
  constructor
  · rintro rfl
    obtain ⟨answer, hanswer⟩ := exists_namesFamily s
    rwa [architecture?_of_namesFamily hanswer]
  · exact architecture?_of_namesFamily

/-- Where a family other than SDXL is named, there is a first one. -/
theorem exists_firstSpecific {value : Value} (hvalue : value ∈ values) (hnames : Names value a)
    (hspecific : a ≠ .sdxl) : ∃ b, FirstSpecific values b := by
  by_contra hnone
  rw [not_exists] at hnone
  exact List.find?_eq_none.mp (find?_families_eq_none_iff.mpr hnone) a
    (mem_families_iff.mpr ⟨value, hvalue, hnames⟩) (not_isGeneric_iff.mpr hspecific)

/-- **SDXL hides no family that is more specific.** -/
theorem exists_specific_of_names {value : Value} (hvalue : value ∈ s.tags ++ s.baseModelFields)
    (hnames : Names value a) (hspecific : a ≠ .sdxl) :
    ∃ b, s.architecture? = some b ∧ b ≠ .sdxl := by
  by_cases htags : ∃ b, FirstSpecific s.tags b
  · obtain ⟨b, htag⟩ := htags
    obtain ⟨-, -, -, -, -, hb, -⟩ := id htag
    exact ⟨b, architecture?_of_tag htag, hb⟩
  · rw [not_exists] at htags
    have hfield : value ∈ s.baseModelFields := by
      refine (List.mem_append.mp hvalue).resolve_left fun htag => ?_
      obtain ⟨b, hb⟩ := exists_firstSpecific htag hnames hspecific
      exact htags b hb
    obtain ⟨b, hfield⟩ := exists_firstSpecific hfield hnames hspecific
    obtain ⟨-, -, -, -, -, hb, -⟩ := id hfield
    exact ⟨b, architecture?_of_field htags hfield, hb⟩

/-- The families that some values name depend on what the values say. -/
theorem families_eq (values : List Value) :
    families values = (values.filterMap scalarText?).filterMap Architecture.ofKeyword? := by
  rw [List.filterMap_filterMap]
  rfl

/-- **Values that say nothing have no influence.** -/
theorem architecture?_congr {other : Sidecar}
    (htags : other.tags.filterMap scalarText? = s.tags.filterMap scalarText?)
    (hfields : other.baseModelFields.filterMap scalarText? =
      s.baseModelFields.filterMap scalarText?) :
    other.architecture? = s.architecture? := by
  simp only [architecture?, families_eq, htags, hfields]

/-- **The family that a sidecar names.**  The first tag of the provider that names a
family other than SDXL decides, else the first field for a base model that does,
else SDXL if such a field names it.  So SDXL hides no other family, wherever it
stands; values that say nothing have no influence; and the tags and fields are
those that a document has under their names. -/
theorem architecture?_rule (s : Sidecar) :
    (∀ answer, s.architecture? = answer ↔ NamesFamily s answer) ∧
    (∀ value ∈ s.tags ++ s.baseModelFields, ∀ a, Names value a → a ≠ .sdxl →
      ∃ b, s.architecture? = some b ∧ b ≠ .sdxl) ∧
    (∀ other : Sidecar, other.tags.filterMap scalarText? = s.tags.filterMap scalarText? →
      other.baseModelFields.filterMap scalarText? = s.baseModelFields.filterMap scalarText? →
      other.architecture? = s.architecture?) ∧
    ∀ fields, ofWritten? (Value.object fields).toWritten = some s → s = ofFields fields := by
  refine ⟨fun answer => architecture?_iff, ?_, ?_, ?_⟩
  · intro value hvalue a hnames hspecific
    exact exists_specific_of_names hvalue hnames hspecific
  · intro other htags hfields
    exact architecture?_congr htags hfields
  · intro fields hread
    exact (eq_ofFields hread).1

/-- An object that names SDXL twice and, in the last place, one of its lineages. -/
def lineageFields : List (String × Value) :=
  [("baseModel", .string "SDXL 1.0"),
    ("civitai", .object [("tags", .array [.bool true, .string "sdxl"]),
      ("baseModel", .string "Pony")])]

/-- The lineage is found. -/
theorem architecture?_rule_lineage :
    ∃ s, ofWritten? (Value.object lineageFields).toWritten = some s ∧ s = ofFields lineageFields ∧
      NamesFamily s (some .pony) ∧ ∃ b, s.architecture? = some b ∧ b ≠ .sdxl := by
  have hread : ofWritten? (Value.object lineageFields).toWritten =
      some (ofFields lineageFields) := rfl
  have hanswer : (ofFields lineageFields).architecture? = some .pony := by decide +kernel
  have hpony : Names (.string "Pony") .pony := ⟨"Pony", .text (by decide), by decide +kernel⟩
  have hvalues : (ofFields lineageFields).tags ++ (ofFields lineageFields).baseModelFields =
      [.bool true, .string "sdxl", .string "SDXL 1.0", .string "Pony"] := rfl
  obtain ⟨hrule, hspecific, -, hfields⟩ := architecture?_rule (ofFields lineageFields)
  refine ⟨_, hread, hfields lineageFields hread, (hrule _).mp hanswer, ?_⟩
  exact hspecific (.string "Pony") (by simp [hvalues]) .pony hpony (by decide)

end LoraSchedule.Sidecar
