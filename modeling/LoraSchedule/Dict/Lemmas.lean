import LoraSchedule.Dict

/-!
# Look-ups in dictionaries

A dictionary is determined by its look-ups, and each operation is described by what it does to
them.
-/

namespace LoraSchedule.Dict

universe u v

variable {α : Type u} {β : Type v}

/-! ## Entries -/

section Entries

variable {κ : Type v} [BEq κ] [LawfulBEq κ] [DecidableEq κ]

theorem lookup_cons_eq_if (key : κ) (entry : κ × α) (rest : List (κ × α)) :
    (entry :: rest).lookup key = if key = entry.1 then some entry.2 else rest.lookup key := by
  rw [List.lookup_cons]
  by_cases h : key = entry.1
  · simp [h]
  · have hb : (key == entry.1) = false := by simpa using h
    simp [h, hb]

theorem lookup_filter_key (p : κ → Bool) (entries : List (κ × α)) (key : κ) :
    (entries.filter fun entry => p entry.1).lookup key =
      if p key then entries.lookup key else none := by
  induction entries with
  | nil => simp
  | cons entry rest ih =>
    rw [List.filter_cons, lookup_cons_eq_if]
    by_cases same : key = entry.1
    · subst same
      by_cases hp : p entry.1
      · simp [hp, lookup_cons_eq_if]
      · simp [hp, ih]
    · rw [if_neg same, ← ih]
      split
      · rw [lookup_cons_eq_if, if_neg same]
      · rfl

end Entries

/-! ## Ascending entries -/

theorem lookup_insertEntry (key other : String) (value : α) (entries : List (String × α)) :
    (insertEntry key value entries).lookup other =
      if other = key then some value else entries.lookup other := by
  induction entries with
  | nil => simp [insertEntry, lookup_cons_eq_if]
  | cons head rest ih =>
    rw [insertEntry]
    split
    · rw [lookup_cons_eq_if]
    · split
      case isTrue same =>
        rw [lookup_cons_eq_if, lookup_cons_eq_if, ← same]
        split <;> rfl
      case isFalse different =>
        rw [lookup_cons_eq_if, lookup_cons_eq_if, ih]
        split
        case isTrue atHead =>
          rw [if_neg fun atKey => different (atKey.symm.trans atHead)]
        case isFalse => rfl

/-- Under keys that are kept apart, look-ups find the members. -/
theorem lookup_eq_some_iff_mem {key : String} {value : α} {entries : List (String × α)}
    (h : (entries.map Prod.fst).Nodup) :
    entries.lookup key = some value ↔ (key, value) ∈ entries := by
  induction entries with
  | nil => simp
  | cons head rest ih =>
    obtain ⟨fresh, apart⟩ := List.nodup_cons.1 h
    rw [lookup_cons_eq_if, List.mem_cons, ← ih apart]
    split
    case isTrue same =>
      have absent : rest.lookup key ≠ some value := fun found =>
        fresh (same ▸ List.mem_map_of_mem ((ih apart).1 found))
      rw [or_iff_left absent, Prod.ext_iff]
      exact ⟨fun held => ⟨same, (Option.some.inj held).symm⟩, fun both => both.2 ▸ rfl⟩
    case isFalse different => simp [different, Prod.ext_iff]

theorem nodup_of_ascending {entries : List (String × α)}
    (h : entries.Pairwise (fun a b => a.1 < b.1)) : (entries.map Prod.fst).Nodup := by
  refine List.pairwise_map.2 (h.imp fun {first second} before same => ?_)
  exact String.lt_irrefl second.1 (same ▸ before)

theorem lookup_map_values (f : String → α → β) (entries : List (String × α)) (key : String) :
    (entries.map fun entry => (entry.1, f entry.1 entry.2)).lookup key =
      (entries.lookup key).map (f key) := by
  induction entries with
  | nil => rfl
  | cons head rest ih =>
    rw [List.map_cons, lookup_cons_eq_if, lookup_cons_eq_if, ih]
    split
    case isTrue same => simp [same]
    case isFalse => rfl

/-! ## Look-ups -/

theorem mem_toList_iff {d : Dict α} {key : String} {value : α} :
    (key, value) ∈ d.toList ↔ d.get? key = some value :=
  (lookup_eq_some_iff_mem (nodup_of_ascending d.ascending)).symm

theorem mem_keys_iff {d : Dict α} {key : String} : key ∈ d.keys ↔ (d.get? key).isSome := by
  simp only [keys, List.mem_map, Option.isSome_iff_exists]
  constructor
  · rintro ⟨entry, member, rfl⟩
    exact ⟨entry.2, mem_toList_iff.1 member⟩
  · rintro ⟨value, found⟩
    exact ⟨(key, value), mem_toList_iff.2 found, rfl⟩

theorem get?_eq_none_iff {d : Dict α} {key : String} : d.get? key = none ↔ key ∉ d.keys := by
  rw [mem_keys_iff, Option.not_isSome_iff_eq_none]

theorem keys_ascending (d : Dict α) : d.keys.Pairwise (· < ·) := by
  simpa [keys, List.pairwise_map] using d.ascending

@[simp] theorem get?_empty (key : String) : (∅ : Dict α).get? key = none := rfl

theorem get?_of_isEmpty {d : Dict α} (h : d.isEmpty = true) (key : String) :
    d.get? key = none := by
  rw [isEmpty, List.isEmpty_iff] at h
  rw [get?, h, List.lookup_nil]

theorem get?_insert (d : Dict α) (key other : String) (value : α) :
    (d.insert key value).get? other = if other = key then some value else d.get? other :=
  lookup_insertEntry key other value d.toList

@[simp] theorem get?_insert_self (d : Dict α) (key : String) (value : α) :
    (d.insert key value).get? key = some value := by
  simp [get?_insert]

theorem get?_insert_of_ne (d : Dict α) {key other : String} (value : α) (h : other ≠ key) :
    (d.insert key value).get? other = d.get? other := by
  simp [get?_insert, h]

@[simp] theorem get?_map (f : String → α → β) (d : Dict α) (key : String) :
    (d.map f).get? key = (d.get? key).map (f key) :=
  lookup_map_values f d.toList key

@[simp] theorem keys_map (f : String → α → β) (d : Dict α) : (d.map f).keys = d.keys := by
  simp [keys, map]

/-! ## Equality -/

/-- Ascending entries are determined by their members: the least key comes first. -/
theorem eq_of_mem_iff {first second : List (String × α)}
    (hf : first.Pairwise (fun a b => a.1 < b.1)) (hs : second.Pairwise (fun a b => a.1 < b.1))
    (h : ∀ entry, entry ∈ first ↔ entry ∈ second) : first = second := by
  induction first generalizing second with
  | nil =>
    cases second with
    | nil => rfl
    | cons head rest => simpa using h head
  | cons a as ih =>
    cases second with
    | nil => simpa using h a
    | cons b bs =>
      rw [List.pairwise_cons] at hf hs
      have heads : a = b := by
        rcases List.mem_cons.1 ((h a).1 (List.mem_cons_self ..)) with same | inRest
        · exact same
        · rcases List.mem_cons.1 ((h b).2 (List.mem_cons_self ..)) with same | inRest'
          · exact same.symm
          · exact absurd (String.lt_trans (hs.1 a inRest) (hf.1 b inRest')) (String.lt_irrefl _)
      subst heads
      congr 1
      refine ih hf.2 hs.2 fun entry => ?_
      constructor
      · intro member
        rcases List.mem_cons.1 ((h entry).1 (List.mem_cons_of_mem _ member)) with rfl | inRest
        · exact absurd (hf.1 _ member) (String.lt_irrefl _)
        · exact inRest
      · intro member
        rcases List.mem_cons.1 ((h entry).2 (List.mem_cons_of_mem _ member)) with rfl | inRest
        · exact absurd (hs.1 _ member) (String.lt_irrefl _)
        · exact inRest

theorem ext_toList {first second : Dict α} (h : first.toList = second.toList) :
    first = second := by
  cases first
  cases second
  simpa using h

/-- Maps with the same look-ups are equal. -/
theorem ext_get? {first second : Dict α} (h : ∀ key, first.get? key = second.get? key) :
    first = second :=
  ext_toList <| eq_of_mem_iff first.ascending second.ascending fun entry => by
    rw [mem_toList_iff, mem_toList_iff, h]

/-- Maps with the same keys list them alike. -/
theorem keys_eq_of_mem_iff {first : Dict α} {second : Dict β}
    (h : ∀ key, key ∈ first.keys ↔ key ∈ second.keys) : first.keys = second.keys := by
  have sameMarks : first.map (fun _ _ => ()) = second.map fun _ _ => () := by
    refine ext_get? fun key => ?_
    have sameKey := h key
    rw [mem_keys_iff, mem_keys_iff] at sameKey
    rw [get?_map, get?_map]
    cases found : first.get? key <;> cases found' : second.get? key <;>
      simp [found, found'] at sameKey ⊢
  rw [← keys_map (fun _ _ => ()) first, sameMarks, keys_map]

/-! ## Lists of entries -/

theorem ofList_concat (entries : List (String × α)) (entry : String × α) :
    ofList (entries ++ [entry]) = (ofList entries).insert entry.1 entry.2 := by
  simp [ofList, List.foldl_append]

theorem get?_foldl_insert (entries : List (String × α)) (d : Dict α) (key : String) :
    (entries.foldl (fun d entry => d.insert entry.1 entry.2) d).get? key =
      (entries.reverse.lookup key).or (d.get? key) := by
  generalize reversed : entries.reverse = backwards
  obtain rfl : entries = backwards.reverse := by simp [← reversed]
  clear reversed
  induction backwards with
  | nil => simp
  | cons entry rest ih =>
    rw [List.reverse_cons, List.foldl_append, List.foldl_cons, List.foldl_nil, get?_insert, ih,
      lookup_cons_eq_if]
    split <;> rfl

/-- Of several entries with one key, the last counts. -/
theorem get?_ofList (entries : List (String × α)) (key : String) :
    (ofList entries).get? key = entries.reverse.lookup key := by
  rw [ofList, get?_foldl_insert]
  exact Option.or_none

/-- Under keys that are kept apart, the order of the entries does not count. -/
theorem get?_ofList_of_nodup {entries : List (String × α)} (h : (entries.map Prod.fst).Nodup)
    (key : String) : (ofList entries).get? key = entries.lookup key := by
  have backwards : (entries.reverse.map Prod.fst).Nodup := by
    rw [List.map_reverse]
    exact List.pairwise_reverse.2 (h.imp Ne.symm)
  refine Option.ext fun value => ?_
  rw [get?_ofList]
  exact (lookup_eq_some_iff_mem backwards).trans
    (List.mem_reverse.trans (lookup_eq_some_iff_mem h).symm)

theorem mem_keys_ofList {entries : List (String × α)} {key : String} :
    key ∈ (ofList entries).keys ↔ key ∈ entries.map Prod.fst := by
  rw [mem_keys_iff, get?_ofList, List.lookup_isSome_iff, List.mem_map]
  simp only [List.mem_reverse, beq_iff_eq, eq_comm (a := key)]

theorem mem_of_mem_ofList {entries : List (String × α)} {entry : String × α}
    (h : entry ∈ (ofList entries).toList) : entry ∈ entries := by
  have found : entries.reverse.lookup entry.1 = some entry.2 := by
    rw [← get?_ofList]
    exact mem_toList_iff.mp h
  obtain ⟨before, after, split, -⟩ := List.lookup_eq_some_iff.mp found
  exact List.mem_reverse.mp (split ▸ List.mem_append_right _ (List.mem_cons_self ..))

/-! ## Rebuilding -/

theorem insertEntry_eq_append {key : String} {value : α} {entries : List (String × α)}
    (h : ∀ entry ∈ entries, entry.1 < key) :
    insertEntry key value entries = entries ++ [(key, value)] := by
  induction entries with
  | nil => rfl
  | cons head rest ih =>
    have before := h head (List.mem_cons_self ..)
    rw [insertEntry, if_neg (String.lt_asymm before),
      if_neg fun same => String.lt_irrefl _ (same ▸ before),
      ih fun entry member => h entry (List.mem_cons_of_mem _ member), List.cons_append]

/-- Ascending entries are the entries of the map that is built from them. -/
theorem toList_ofList {entries : List (String × α)}
    (h : entries.Pairwise (fun a b => a.1 < b.1)) : (ofList entries).toList = entries := by
  generalize reversed : entries.reverse = backwards
  obtain rfl : entries = backwards.reverse := by simp [← reversed]
  clear reversed
  induction backwards with
  | nil => rfl
  | cons entry rest ih =>
    rw [List.reverse_cons, List.pairwise_append] at h
    rw [List.reverse_cons, ofList_concat, insert]
    simp only [ih h.1]
    exact insertEntry_eq_append fun other member =>
      h.2.2 other member entry (List.mem_singleton_self _)

@[simp] theorem ofList_toList (d : Dict α) : ofList d.toList = d :=
  ext_toList (toList_ofList d.ascending)

/-! ## Unions and selections -/

/-- Where two maps share a key, the second map's value counts. -/
theorem get?_union (first second : Dict α) (key : String) :
    (first.union second).get? key = (second.get? key).or (first.get? key) := by
  rw [union, get?_foldl_insert, ← get?_ofList, ofList_toList]

theorem lookup_filterMap (keys : List String) (value? : String → Option α) (key : String) :
    (keys.filterMap fun k => (value? k).map fun value => (k, value)).lookup key =
      if key ∈ keys then value? key else none := by
  induction keys with
  | nil => rfl
  | cons head rest ih =>
    rw [List.filterMap_cons]
    by_cases same : key = head
    · subst same
      cases found : value? key with
      | none => simp [ih, found]
      | some value => simp
    · cases value? head with
      | none => simp [ih, same]
      | some value => simp [lookup_cons_eq_if, ih, same]

/-- The map of those keys that have a value. -/
theorem get?_ofList_filterMap (keys : List String) (value? : String → Option α) (key : String) :
    (ofList (keys.filterMap fun k => (value? k).map fun value => (k, value))).get? key =
      if key ∈ keys then value? key else none := by
  rw [get?_ofList, ← List.filterMap_reverse, lookup_filterMap]
  simp

end LoraSchedule.Dict
