import LoraSchedule.Dict.Lemmas
import LoraSchedule.Proofs.Schedule.ValueText

/-!
# What the modern encoding can give

The entries that lines in the modern encoding are read as are *legible*: their
numbers are finite, and their names, the ids of their blocks and of their
presets hold no character that would end the field they are written in.  Each
field keeps an entry legible (`legible_applyField`), so all of them do, whatever
they are and in whatever order they stand (`settled_entryOfFields`).
-/

namespace LoraSchedule

open LoraSchedule.Number
open LoraSchedule.Text

/-! ## Points in order -/

theorem mem_sortPoints {p : KeyPoint} {points : List KeyPoint} :
    p ∈ sortPoints points ↔ p ∈ points :=
  List.mem_mergeSort

theorem sortPoints_eq_nil_iff {points : List KeyPoint} : sortPoints points = [] ↔ points = [] := by
  rw [← List.length_eq_zero_iff, sortPoints, List.length_mergeSort, List.length_eq_zero_iff]

theorem sortPoints_of_pairwise {points : List KeyPoint}
    (h : points.Pairwise fun a b => a.x.totalAtMost b.x = true) : sortPoints points = points :=
  List.mergeSort_of_pairwise h

theorem pairwise_sortPoints (points : List KeyPoint) :
    (sortPoints points).Pairwise fun a b => a.x.totalAtMost b.x = true := by
  refine List.pairwise_mergeSort ?_ ?_ points
  · exact fun a b c => Binary.totalAtMost_trans
  · exact fun a b => a.x.totalAtMost_total b.x

/-! ## Legible entries -/

/-- The texts of an entry do not hold a character. -/
structure Entry.Avoids (c : Char) (e : Entry) : Prop where
  name : c ∉ e.name.toList
  key : ∀ weight ∈ e.vectors.toList, c ∉ weight.1.toList
  preset : ∀ id ∈ e.preset, c ∉ id.toList

/-- A text that can be written as the id of a block. -/
structure IsBlockKey (key : List Char) : Prop where
  trimmed : Trimmed key
  pair : ';' ∉ key
  assignment : '=' ∉ key

/-- Weights that can be written out. -/
def WeightsLegible (vectors : Dict Double) : Prop :=
  ∀ weight ∈ vectors.toList, IsBlockKey weight.1.toList ∧ weight.2.isFinite = true

/-- A point at a finite place with a finite strength. -/
def KeyPoint.IsFinite (p : KeyPoint) : Prop := p.x.isFinite = true ∧ p.y.isFinite = true

/-- Every number is finite, and no text has blanks or separators that would be
taken for the line's own. -/
structure Entry.Legible (e : Entry) : Prop where
  modelStrength : e.modelStrength.isFinite = true
  clipStrength : e.clipStrength.isFinite = true
  points : ∀ p ∈ e.points, p.IsFinite
  vectors : WeightsLegible e.vectors
  trimmed : ∀ id ∈ e.preset, Trimmed id.toList

/-- A legible entry whose texts fit into fields, with a curve whose points are in
order. -/
structure Entry.Settled (e : Entry) : Prop extends Entry.Legible e, Entry.Avoids ':' e where
  points_ne_nil : e.points ≠ []
  sorted : sortPoints e.points = e.points

namespace Line

/-! ## Numbers, weights and points -/

theorem isFinite_readNumber? {text : List Char} {x : Double} (h : readNumber? text = some x) :
    x.isFinite = true := by
  rw [readNumber?, readFinite?, Option.filter_eq_some_iff] at h
  exact h.2

theorem isFinite_readPoint? {pair : List Char} {p : KeyPoint} (h : readPoint? pair = some p) :
    p.IsFinite := by
  unfold readPoint? at h
  split at h
  · simp only [Option.bind_eq_bind, Option.bind_eq_some_iff] at h
    obtain ⟨x, hx, y, hy, hp⟩ := h
    obtain rfl := Option.some.inj hp
    exact ⟨isFinite_readNumber? hx, isFinite_readNumber? hy⟩
  · cases h

/-- What is left of a part without certain characters does not hold them, either. -/
theorem not_mem_trim {c : Char} {text : List Char} (h : c ∉ text) : c ∉ trim text :=
  fun hmem => h (mem_of_mem_trim hmem)

section Weights

variable {vectors : Dict Double}

theorem not_mem_key_addVector {c : Char} (hvectors : ∀ weight ∈ vectors.toList, c ∉ weight.1.toList)
    {pair : List Char} (hpair : c ∉ pair) :
    ∀ weight ∈ (addVector vectors pair).toList, c ∉ weight.1.toList := by
  unfold addVector
  split
  · exact hvectors
  · rename_i key value hsplit
    have hkey : c ∉ key := by
      intro hmem
      rcases Option.or_eq_some_iff.mp hsplit with hassignment | ⟨-, hcolon⟩
      · exact hpair ((splitOnce?_eq_some_iff.mp hassignment).1 ▸ List.mem_append_left _ hmem)
      · exact hpair ((splitOnce?_eq_some_iff.mp hcolon).1 ▸ List.mem_append_left _ hmem)
    split
    · exact hvectors
    · intro weight hweight
      rcases Dict.mem_insertEntry hweight with rfl | hmem
      · rw [String.toList_ofList]
        exact not_mem_trim hkey
      · exact hvectors weight hmem

theorem weightsLegible_addVector (hvectors : WeightsLegible vectors) {pair : List Char}
    (hcolon : ':' ∉ pair) (hsemicolon : ';' ∉ pair) : WeightsLegible (addVector vectors pair) := by
  unfold addVector
  -- Without a colon in it, the pair can only be split at an equals sign.
  rw [splitOnce?_eq_none_iff.mpr hcolon, Option.or_none]
  split
  · exact hvectors
  · rename_i key value hsplit
    obtain ⟨rfl, hassignment⟩ := splitOnce?_eq_some_iff.mp hsplit
    split
    · exact hvectors
    · rename_i number hnumber
      intro weight hweight
      rcases Dict.mem_insertEntry hweight with rfl | hmem
      · refine ⟨⟨?_, ?_, ?_⟩, isFinite_readNumber? hnumber⟩ <;> rw [String.toList_ofList]
        · exact trimmed_trim key
        · exact not_mem_trim fun hmem => hsemicolon (List.mem_append_left _ hmem)
        · exact not_mem_trim hassignment
      · exact hvectors weight hmem

/-- Weights are added pair by pair, and each pair is a part of the text. -/
theorem addVectors_induction {motive : Dict Double → Prop} {text : List Char}
    (hvectors : motive vectors)
    (hpair : ∀ vectors pair, motive vectors → (∀ c, c ∉ text → c ∉ pair) → ';' ∉ pair →
      motive (addVector vectors pair)) : motive (addVectors vectors text) := by
  have hparts : ∀ pair ∈ ((text.splitOn ';').map trim).filter (· ≠ []),
      (∀ c, c ∉ text → c ∉ pair) ∧ ';' ∉ pair := by
    intro pair hmem
    obtain ⟨part, hpart, rfl⟩ := List.mem_map.mp (List.mem_of_mem_filter hmem)
    obtain ⟨hsemicolon, hsubset⟩ := mem_splitOn hpart
    exact ⟨fun c hc => not_mem_trim fun hin => hc (hsubset c hin), not_mem_trim hsemicolon⟩
  exact List.foldlRecOn _ _ hvectors fun vectors hsoFar pair hmem =>
    hpair vectors pair hsoFar (hparts pair hmem).1 (hparts pair hmem).2

theorem weightsLegible_addVectors (hvectors : WeightsLegible vectors) {text : List Char}
    (hcolon : ':' ∉ text) : WeightsLegible (addVectors vectors text) :=
  addVectors_induction hvectors fun _ _ hsoFar hsubset hsemicolon =>
    weightsLegible_addVector hsoFar (hsubset ':' hcolon) hsemicolon

end Weights

theorem isFinite_of_mem_readPoints {text : List Char} {p : KeyPoint} (h : p ∈ readPoints text) :
    p.IsFinite := by
  obtain ⟨pair, -, hpair⟩ := List.mem_filterMap.mp h
  exact isFinite_readPoint? hpair

/-! ## Entries -/

section Fields

variable {e : Entry} {field line : List Char} {fields : List (List Char)}

theorem avoids_applyField {c : Char} (he : e.Avoids c) (hfield : c ∉ field) :
    (applyField e field).Avoids c := by
  unfold applyField
  split
  · rename_i id hid
    refine ⟨he.name, he.key, ?_⟩
    intro preset hpreset
    obtain rfl := Option.some.inj hpreset
    rw [String.toList_ofList]
    refine not_mem_trim ?_
    intro hmem
    apply hfield
    rw [afterPrefix?_eq_some_iff.mp hid]
    exact List.mem_append_right _ hmem
  · split
    · rename_i pairs hpairs
      have hnot : c ∉ pairs := by
        intro hmem
        rw [afterPrefix?_eq_some_iff.mp hpairs] at hfield
        exact hfield (List.mem_append_right _ hmem)
      have hkey : ∀ weight ∈ (addVectors e.vectors pairs).toList, c ∉ weight.1.toList :=
        addVectors_induction (motive := fun d => ∀ weight ∈ d.toList, c ∉ weight.1.toList) he.key
          fun _ _ hsoFar hsubset _ => not_mem_key_addVector hsoFar (hsubset c hnot)
      exact ⟨he.name, hkey, he.preset⟩
    · split
      · exact ⟨he.name, he.key, he.preset⟩
      · exact he

/-- **Each field keeps an entry legible.** -/
theorem legible_applyField (he : e.Legible) (hfield : ':' ∉ field) :
    (applyField e field).Legible := by
  unfold applyField
  split
  · refine { he with trimmed := fun preset hpreset => ?_ }
    obtain rfl := Option.some.inj hpreset
    rw [String.toList_ofList]
    exact trimmed_trim _
  · split
    · rename_i pairs hpairs
      refine { he with vectors := weightsLegible_addVectors he.vectors fun hmem => hfield ?_ }
      rw [afterPrefix?_eq_some_iff.mp hpairs]
      exact List.mem_append_right _ hmem
    · split
      · refine { he with points := fun p hp => ?_ }
        rcases List.mem_append.mp hp with hold | hnew
        · exact he.points p hold
        · exact isFinite_of_mem_readPoints hnew
      · exact he

theorem avoids_headEntry {c : Char} (hfields : ∀ field ∈ fields, c ∉ field) :
    (headEntry fields).Avoids c := by
  refine ⟨?_, fun weight hweight => absurd hweight List.not_mem_nil, ?_⟩
  · show c ∉ (String.ofList (fields[0]?.getD [])).toList
    rw [String.toList_ofList]
    cases hfirst : fields[0]? with
    | none => simp
    | some field => exact hfields field (List.mem_of_getElem? hfirst)
  · intro id hid
    exact absurd hid (by simp [headEntry, Entry.ofName])

theorem legible_headEntry (fields : List (List Char)) : (headEntry fields).Legible := by
  have hstrength : ∀ index : Nat, ((fields[index]? >>= readNumber?).getD
      (Binary.ofNat 1 : Double)).isFinite = true := by
    intro index
    cases hread : fields[index]? >>= readNumber? with
    | none => exact Binary.isFinite_ofNat (by decide)
    | some x =>
        obtain ⟨field, -, hx⟩ := Option.bind_eq_some_iff.mp hread
        exact isFinite_readNumber? hx
  refine ⟨hstrength 1, hstrength 2, ?_, ?_, ?_⟩
  · exact fun p hp => absurd hp List.not_mem_nil
  · exact fun weight hweight => absurd hweight List.not_mem_nil
  · exact fun id hid => absurd hid (by simp [headEntry, Entry.ofName])

theorem isFinite_of_mem_flatCurve {p : KeyPoint} (h : p ∈ flatCurve) : p.IsFinite := by
  have hzero : (Binary.ofNat 0 : Double).isFinite = true := Binary.isFinite_ofNat (by decide)
  have hone : (Binary.ofNat 1 : Double).isFinite = true := Binary.isFinite_ofNat (by decide)
  have hall : ∀ p ∈ flatCurve, p.IsFinite := by
    simp [flatCurve, KeyPoint.IsFinite, hzero, hone]
  exact hall p h

/-- Reading ends with points in order: those that were read, else the flat
curve. -/
theorem exists_entryOfFields (hmodern : Encoding.ofFields fields = .modern) :
    ∃ points, entryOfFields fields =
        { ((fields.drop 3).map trim).foldl applyField (headEntry fields) with
          points := sortPoints points } ∧
      points ≠ [] ∧
      (points = (((fields.drop 3).map trim).foldl applyField (headEntry fields)).points ∨
        points = flatCurve) := by
  simp only [entryOfFields, hmodern, Entry.sorted]
  split
  · exact ⟨flatCurve, rfl, by decide, Or.inr rfl⟩
  · rename_i hne
    exact ⟨_, rfl, hne, Or.inl rfl⟩

theorem not_mem_of_mem_fields? {c : Char} (hfields : fields? line = some fields)
    (hline : c = ':' ∨ c ∉ line) (h : field ∈ fields) : c ∉ field := by
  unfold fields? at hfields
  simp only [Option.bind_eq_bind, Option.bind_eq_some_iff] at hfields
  obtain ⟨inner, hinner, body, hbody, hsplit⟩ := hfields
  obtain rfl := Option.some.inj hsplit
  obtain ⟨hcolon, hsubset⟩ := mem_splitOn h
  rcases hline with rfl | hnot
  · exact hcolon
  · refine fun hmem => hnot (mem_of_mem_trim ?_)
    rw [afterPrefix?_eq_some_iff.mp hinner, beforeSuffix?_eq_some_iff.mp hbody]
    exact List.mem_append_right _ (List.mem_append_left _ (hsubset c hmem))

/-- A character that is not in a line, or cannot be in a field, is in no text of
the entry that the line is read as. -/
theorem avoids_entryOfFields {c : Char} (hfields : fields? line = some fields)
    (hmodern : Encoding.ofFields fields = .modern) (hline : c = ':' ∨ c ∉ line) :
    (entryOfFields fields).Avoids c := by
  have hnot : ∀ field ∈ fields, c ∉ field := fun field => not_mem_of_mem_fields? hfields hline
  have hfold : (((fields.drop 3).map trim).foldl applyField (headEntry fields)).Avoids c := by
    refine List.foldlRecOn _ _ (avoids_headEntry hnot) ?_
    intro e he field hfield
    obtain ⟨part, hpart, rfl⟩ := List.mem_map.mp hfield
    exact avoids_applyField he (not_mem_trim (hnot part (List.mem_of_mem_drop hpart)))
  obtain ⟨points, hentry, -, -⟩ := exists_entryOfFields hmodern
  rw [hentry]
  exact ⟨hfold.name, hfold.key, hfold.preset⟩

/-- **What a line in the modern encoding is read as can be written in full.** -/
theorem settled_entryOfFields (hfields : fields? line = some fields)
    (hmodern : Encoding.ofFields fields = .modern) : (entryOfFields fields).Settled := by
  have hfold : (((fields.drop 3).map trim).foldl applyField (headEntry fields)).Legible := by
    refine List.foldlRecOn _ _ (legible_headEntry fields) ?_
    intro e he field hfield
    obtain ⟨part, hpart, rfl⟩ := List.mem_map.mp hfield
    exact legible_applyField he
      (not_mem_trim (not_mem_of_mem_fields? hfields (Or.inl rfl) (List.mem_of_mem_drop hpart)))
  have havoids := avoids_entryOfFields hfields hmodern (Or.inl rfl)
  obtain ⟨points, hentry, hne, hpoints⟩ := exists_entryOfFields hmodern
  have hfinite : ∀ p ∈ points, p.IsFinite := by
    rcases hpoints with rfl | rfl
    · exact hfold.points
    · exact fun p => isFinite_of_mem_flatCurve
  rw [hentry] at havoids ⊢
  refine { hfold, havoids with points := fun p hp => ?_, points_ne_nil := ?_, sorted := ?_ }
  · exact hfinite p (mem_sortPoints.mp hp)
  · exact fun hnil => hne (sortPoints_eq_nil_iff.mp hnil)
  · exact sortPoints_of_pairwise (pairwise_sortPoints points)

end Fields

end Line

end LoraSchedule
