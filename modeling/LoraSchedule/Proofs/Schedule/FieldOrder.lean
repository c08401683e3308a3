import LoraSchedule.Proofs.Schedule.Pairs
import LoraSchedule.Proofs.Schedule.Sorting

/-!
# The order of the fields of a line

In the modern encoding each field after the strengths adds what it holds to the
entry: a preset, block weights or points (`applyField_eq`).  Fields that hold
different things commute, up to the order of points at different places
(`alike_applyField_comm`); and as the points are sorted in the end, such fields
may stand in any order (`read?_field_order`).  A field that holds nothing may be
left out.

The order counts only where two fields set the preset, assign to one key, or have
points at one place.  Within one field nothing is said: it is read as a whole.
-/

namespace LoraSchedule

open LoraSchedule.Number
open LoraSchedule.Text

namespace Line

/-! ## What a field holds -/

/-- The preset that a field sets. -/
def presetOf? (field : List Char) : Option String :=
  (afterPrefix? "preset=".toList field).map fun id => String.ofList (trim id)

/-- The block weights that a field assigns. -/
def weightsOf (field : List Char) : List (String × Double) :=
  ((afterPrefix? "vectors=".toList field).map assignments).getD []

/-- The points that a field lists. -/
def pointsOf (field : List Char) : List KeyPoint :=
  if afterPrefix? "preset=".toList field = none ∧ afterPrefix? "vectors=".toList field = none ∧
      ',' ∈ field then
    readPoints field
  else []

/-- A field is read by adding what it holds. -/
theorem applyField_eq (e : Entry) (field : List Char) :
    applyField e field =
      { e with
        preset := (presetOf? field).or e.preset
        vectors := e.vectors.insertAll (weightsOf field)
        points := e.points ++ pointsOf field } := by
  unfold applyField presetOf? weightsOf pointsOf
  cases hpreset : afterPrefix? "preset=".toList field with
  | some id =>
      -- no field starts with both words
      have hvectors : afterPrefix? "vectors=".toList field = none := by
        rw [afterPrefix?_eq_some_iff.mp hpreset]
        rfl
      simp only [hvectors, Option.map_some, Option.map_none, Option.getD_none, Option.some_or,
        Dict.insertAll_nil, reduceCtorEq, false_and, if_false, List.append_nil]
  | none =>
      cases hvectors : afterPrefix? "vectors=".toList field with
      | some pairs => simp [addVectors_eq]
      | none => by_cases hcomma : ',' ∈ field <;> simp [hcomma]

/-- A field without a comma, and without a word that says what it holds; an empty
one, for example. -/
structure IsIdle (field : List Char) : Prop where
  comma : ',' ∉ field
  preset : ¬"preset=".toList <+: field
  vectors : ¬"vectors=".toList <+: field

theorem afterPrefix?_eq_none_iff {beginning text : List Char} :
    afterPrefix? beginning text = none ↔ ¬beginning <+: text := by
  rw [Option.eq_none_iff_forall_not_mem, List.prefix_iff_exists_append_eq, not_exists]
  refine forall_congr' fun rest => not_congr ?_
  rw [Option.mem_def, afterPrefix?_eq_some_iff, eq_comm]

/-- A field that holds nothing changes nothing. -/
theorem applyField_of_isIdle {field : List Char} (h : IsIdle field) (e : Entry) :
    applyField e field = e := by
  unfold applyField
  rw [afterPrefix?_eq_none_iff.mpr h.preset, afterPrefix?_eq_none_iff.mpr h.vectors]
  exact if_neg h.comma

/-! ## Fields that commute -/

/-- Two fields do not both set the preset, and have no key and no place in
common. -/
structure Apart (field other : List Char) : Prop where
  preset : presetOf? field = none ∨ presetOf? other = none
  keys : ∀ key ∈ (weightsOf field).map Prod.fst, key ∉ (weightsOf other).map Prod.fst
  places : ∀ x ∈ (pointsOf field).map KeyPoint.x, x ∉ (pointsOf other).map KeyPoint.x

instance (field other : List Char) : Decidable (Apart field other) :=
  decidable_of_iff
    ((presetOf? field = none ∨ presetOf? other = none) ∧
      (∀ key ∈ (weightsOf field).map Prod.fst, key ∉ (weightsOf other).map Prod.fst) ∧
      ∀ x ∈ (pointsOf field).map KeyPoint.x, x ∉ (pointsOf other).map KeyPoint.x)
    ⟨fun h => ⟨h.1, h.2.1, h.2.2⟩, fun h => ⟨h.preset, h.keys, h.places⟩⟩

theorem Apart.symm {field other : List Char} (h : Apart field other) : Apart other field where
  preset := h.preset.symm
  keys key hother hfield := h.keys key hfield hother
  places x hother hfield := h.places x hfield hother

/-- Of two values that are not both there, either may come first. -/
theorem or_or_comm {α : Type} {first second : Option α} (h : first = none ∨ second = none)
    (rest : Option α) : first.or (second.or rest) = second.or (first.or rest) := by
  rcases h with rfl | rfl <;> simp

theorem lookup_eq_none_of_not_mem {key : String} {weights : List (String × Double)}
    (h : key ∉ weights.map Prod.fst) : weights.reverse.lookup key = none := by
  rw [List.lookup_eq_none_iff]
  intro weight hweight
  rw [bne_iff_ne]
  rintro rfl
  exact h (List.mem_map_of_mem (List.mem_reverse.mp hweight))

/-- Weights under different keys may be put in in either order. -/
theorem insertAll_comm {first second : List (String × Double)}
    (h : ∀ key ∈ first.map Prod.fst, key ∉ second.map Prod.fst) (d : Dict Double) :
    (d.insertAll first).insertAll second = (d.insertAll second).insertAll first := by
  refine Dict.ext_get? fun key => ?_
  simp only [Dict.get?_insertAll]
  apply or_or_comm
  by_cases hkey : key ∈ first.map Prod.fst
  · exact Or.inl (lookup_eq_none_of_not_mem (h key hkey))
  · exact Or.inr (lookup_eq_none_of_not_mem hkey)

theorem pointsAt_append (x : Double) (first second : List KeyPoint) :
    pointsAt x (first ++ second) = pointsAt x first ++ pointsAt x second :=
  List.filter_append ..

/-- Entries that differ at most in the order of points at different places. -/
structure Alike (e e' : Entry) : Prop where
  others : { e with points := [] } = { e' with points := [] }
  runs : ∀ x, pointsAt x e.points = pointsAt x e'.points

namespace Alike

variable {e e' e'' : Entry}

theorem refl (e : Entry) : Alike e e := ⟨rfl, fun _ => rfl⟩

theorem trans (hfirst : Alike e e') (hsecond : Alike e' e'') : Alike e e'' :=
  ⟨hfirst.others.trans hsecond.others, fun x => (hfirst.runs x).trans (hsecond.runs x)⟩

/-- A field treats entries alike that are alike. -/
theorem applyField (h : Alike e e') (field : List Char) :
    Alike (applyField e field) (applyField e' field) := by
  rw [applyField_eq, applyField_eq]
  refine ⟨?_, fun x => ?_⟩
  · exact congrArg (fun d : Entry => { d with
      preset := (presetOf? field).or d.preset
      vectors := d.vectors.insertAll (weightsOf field) })
      h.others
  · rw [pointsAt_append, pointsAt_append, h.runs]

theorem foldl (h : Alike e e') (fields : List (List Char)) :
    Alike (fields.foldl Line.applyField e) (fields.foldl Line.applyField e') := by
  induction fields generalizing e e' with
  | nil => exact h
  | cons field rest ih => exact ih (h.applyField field)

theorem points_eq_nil_iff (h : Alike e e') : e.points = [] ↔ e'.points = [] := by
  have hempty : ∀ {points others : List KeyPoint}, (∀ x, pointsAt x points = pointsAt x others) →
      points = [] → others = [] := by
    rintro points others hruns rfl
    refine List.eq_nil_iff_forall_not_mem.mpr fun p hp => ?_
    exact List.not_mem_nil (mem_of_runs (fun x => (hruns x).symm) hp)
  exact ⟨hempty h.runs, hempty fun x => (h.runs x).symm⟩

/-- Entries that are alike are the same once their points are sorted. -/
theorem sorted_eq (h : Alike e e') : e.sorted = e'.sorted := by
  have hsorted : ∀ d : Entry, d.sorted = { { d with points := [] } with
      points := sortPoints d.points } := fun d => rfl
  rw [hsorted, hsorted, h.others, sortPoints_congr h.runs]

end Alike

/-- **Fields that hold different things may be read in either order.** -/
theorem alike_applyField_comm {field other : List Char} (h : Apart field other) (e : Entry) :
    Alike (applyField (applyField e field) other) (applyField (applyField e other) field) := by
  rw [applyField_eq, applyField_eq, applyField_eq, applyField_eq]
  constructor
  · simp only [or_or_comm h.preset.symm e.preset, insertAll_comm h.keys e.vectors]
  · intro x
    simp only [pointsAt_append, List.append_assoc]
    -- one of the fields has no point at this place
    have hnone : pointsAt x (pointsOf field) = [] ∨ pointsAt x (pointsOf other) = [] := by
      by_contra hboth
      rw [not_or] at hboth
      obtain ⟨p, hp⟩ := List.exists_mem_of_ne_nil _ hboth.1
      obtain ⟨q, hq⟩ := List.exists_mem_of_ne_nil _ hboth.2
      obtain ⟨hpfield, rfl⟩ := mem_pointsAt.mp hp
      obtain ⟨hqother, hplace⟩ := mem_pointsAt.mp hq
      exact h.places p.x (List.mem_map_of_mem hpfield) (hplace ▸ List.mem_map_of_mem hqother)
    rcases hnone with hfield | hother
    · rw [hfield, List.nil_append, List.append_nil]
    · rw [hother, List.nil_append, List.append_nil]

/-- **Fields that hold different things may be read in any order.** -/
theorem alike_foldl_of_perm {fields fields' : List (List Char)} (h : fields.Perm fields')
    (hapart : fields.Pairwise Apart) (e : Entry) :
    Alike (fields.foldl applyField e) (fields'.foldl applyField e) := by
  induction h generalizing e with
  | nil => exact Alike.refl e
  | cons field _ ih => exact ih hapart.tail (applyField e field)
  | swap field other rest =>
      have hfirst : Apart other field := (List.pairwise_cons.mp hapart).1 field List.mem_cons_self
      exact (alike_applyField_comm hfirst e).foldl rest
  | trans hfirst _ ih ih' =>
      have hapart' := (hfirst.pairwise_iff Apart.symm).mp hapart
      exact (ih hapart e).trans (ih' hapart' e)

/-! ## Lines -/

section Lines

variable {line line' : List Char} {fields fields' : List (List Char)}

theorem headEntry_congr (h : fields.take 3 = fields'.take 3) :
    headEntry fields = headEntry fields' := by
  have hfield : ∀ index < 3, fields[index]? = fields'[index]? := by
    intro index hindex
    rw [← List.getElem?_take_of_lt hindex, h, List.getElem?_take_of_lt hindex]
  simp only [headEntry, hfield 0 (by decide), hfield 1 (by decide), hfield 2 (by decide)]

/-- An entry is completed by the flat curve, if it has no points, and sorted. -/
theorem entryOfFields_congr (hmodern : Encoding.ofFields fields = .modern)
    (hmodern' : Encoding.ofFields fields' = .modern)
    (h : Alike (((fields.drop 3).map trim).foldl applyField (headEntry fields))
      (((fields'.drop 3).map trim).foldl applyField (headEntry fields'))) :
    entryOfFields fields = entryOfFields fields' := by
  simp only [entryOfFields, hmodern, hmodern', h.points_eq_nil_iff]
  split
  · refine Alike.sorted_eq ⟨?_, fun x => rfl⟩
    exact congrArg (fun d : Entry => { d with points := [] }) h.others
  · exact h.sorted_eq

/-- **The order of the fields of a modern line does not count.**  Lines with the
same name and strengths, and the same fields after them in any order, are read as
the same entry, if no two of these fields set the preset, assign to one key or
have points at one place.  A field that holds nothing can be put in or left out
anywhere. -/
theorem read?_field_order (hfields : fields? line = some fields)
    (hfields' : fields? line' = some fields') (hmodern : Encoding.ofFields fields = .modern)
    (hmodern' : Encoding.ofFields fields' = .modern) :
    (fields.take 3 = fields'.take 3 → (fields.drop 3).Perm (fields'.drop 3) →
        ((fields.drop 3).map trim).Pairwise Apart → read? line = read? line') ∧
      ∀ before field after, 3 ≤ before.length → IsIdle (trim field) →
        fields = before ++ field :: after → fields' = before ++ after →
          read? line = read? line' := by
  have hread : entryOfFields fields = entryOfFields fields' → read? line = read? line' := by
    intro h
    rw [read?, read?, hfields, hfields', Option.map_some, Option.map_some, h]
  constructor
  · intro hhead hperm hapart
    apply hread
    apply entryOfFields_congr hmodern hmodern'
    rw [headEntry_congr hhead]
    exact alike_foldl_of_perm (hperm.map trim) hapart _
  · rintro before field after hlength hidle rfl rfl
    apply hread
    apply entryOfFields_congr hmodern hmodern'
    have hhead : headEntry (before ++ field :: after) = headEntry (before ++ after) := by
      apply headEntry_congr
      rw [List.take_append_of_le_length hlength, List.take_append_of_le_length hlength]
    rw [hhead, List.drop_append_of_le_length hlength, List.drop_append_of_le_length hlength,
      List.map_append, List.map_append, List.map_cons, List.foldl_append, List.foldl_append,
      List.foldl_cons, applyField_of_isIdle hidle]
    exact Alike.refl _

end Lines

/-- A line with a field of each kind, the same fields in another order, and the
line with a word in it that says nothing.  Two of the points of one field are at
one place. -/
theorem read?_field_order_mixed_line :
    let line := "<lora:ink:1:0.5:preset=BALANCED:0.5,1;0.5,0: vectors=mid=2 :0,1>".toList
    let mixed := "<lora:ink:1:0.5:0,1: vectors=mid=2 :0.5,1;0.5,0:preset=BALANCED>".toList
    let longer := "<lora:ink:1:0.5:preset=BALANCED:soft:0.5,1;0.5,0: vectors=mid=2 :0,1>".toList
    (∀ fields ∈ fields? line, ((fields.drop 3).map trim).Pairwise Apart ∧
        ∀ others ∈ fields? mixed, fields.take 3 = others.take 3 ∧
          (fields.drop 3).Perm (others.drop 3)) ∧
      read? line = read? mixed ∧ read? longer = read? line := by
  intro line mixed longer
  obtain ⟨fields, hfields⟩ : ∃ fields, fields = ["ink", "1", "0.5", "preset=BALANCED",
      "0.5,1;0.5,0", " vectors=mid=2 ", "0,1"].map String.toList := ⟨_, rfl⟩
  obtain ⟨others, hothers⟩ : ∃ others, others = ["ink", "1", "0.5", "0,1", " vectors=mid=2 ",
      "0.5,1;0.5,0", "preset=BALANCED"].map String.toList := ⟨_, rfl⟩
  have hline : fields? line = some fields := by
    subst hfields
    decide +kernel
  have hmixed : fields? mixed = some others := by
    subst hothers
    decide +kernel
  have hlonger : fields? longer = some (fields.take 4 ++ "soft".toList :: fields.drop 4) := by
    subst hfields
    decide +kernel
  have hhead : fields.take 3 = others.take 3 := by
    subst hfields hothers
    decide +kernel
  have hperm : (fields.drop 3).Perm (others.drop 3) := by
    subst hfields hothers
    decide +kernel
  have hapart : ((fields.drop 3).map trim).Pairwise Apart := by
    subst hfields
    decide +kernel
  have hidle : IsIdle (trim "soft".toList) :=
    ⟨by decide +kernel, by decide +kernel, by decide +kernel⟩
  have hmodern : Encoding.ofFields fields = .modern := by
    subst hfields
    decide +kernel
  have hmodernMixed : Encoding.ofFields others = .modern := by
    subst hothers
    decide +kernel
  have hmodernLonger :
      Encoding.ofFields (fields.take 4 ++ "soft".toList :: fields.drop 4) = .modern := by
    subst hfields
    decide +kernel
  refine ⟨?_, (read?_field_order hline hmixed hmodern hmodernMixed).1 hhead hperm hapart, ?_⟩
  · rw [hline, hmixed]
    rintro _ ⟨⟩
    exact ⟨hapart, by rintro _ ⟨⟩; exact ⟨hhead, hperm⟩⟩
  · refine (read?_field_order hlonger hline hmodernLonger hmodern).2 (fields.take 4) _
      (fields.drop 4) ?_ hidle rfl (List.take_append_drop 4 fields).symm
    subst hfields
    decide +kernel

end Line

end LoraSchedule
