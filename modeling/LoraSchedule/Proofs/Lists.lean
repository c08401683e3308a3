import Mathlib.Data.List.Forall2

/-!
# Lists in step

Where two lists come from one another item by item, a relation between their
items says all that is needed of it.  The same goes for values that are there or
not there together.
-/

namespace LoraSchedule

section Related

variable {α β : Type} {R : α → β → Prop}

/-! ## Related lists -/

theorem exists_of_mem_left {first : List α} {second : List β} (h : List.Forall₂ R first second)
    {a : α} (ha : a ∈ first) : ∃ b ∈ second, R a b := by
  induction h with
  | nil => cases ha
  | cons hrelated _ ih =>
      rcases List.mem_cons.mp ha with rfl | hrest
      · exact ⟨_, List.mem_cons_self .., hrelated⟩
      · obtain ⟨b, hb, hrelated⟩ := ih hrest
        exact ⟨b, List.mem_cons_of_mem _ hb, hrelated⟩

theorem exists_of_mem_right {first : List α} {second : List β} (h : List.Forall₂ R first second)
    {b : β} (hb : b ∈ second) : ∃ a ∈ first, R a b := by
  obtain ⟨a, ha, hrelated⟩ := exists_of_mem_left h.flip hb
  exact ⟨a, ha, hrelated⟩

theorem forall₂_flatMap_map {γ : Type} {parts : γ → List α} {whole : γ → β} {items : List γ}
    (h : ∀ item ∈ items, ∃ part, parts item = [part] ∧ R part (whole item)) :
    List.Forall₂ R (items.flatMap parts) (items.map whole) := by
  induction items with
  | nil => exact List.Forall₂.nil
  | cons item rest ih =>
      obtain ⟨hitem, hrest⟩ := List.forall_mem_cons.mp h
      obtain ⟨part, hpart, hrelated⟩ := hitem
      rw [List.flatMap_cons, hpart, List.map_cons]
      exact List.Forall₂.cons hrelated (ih hrest)

/-! ## Lists read item by item -/

theorem forall₂_of_mapM {read? : α → Option β} {items : List α} {results : List β}
    (h : items.mapM read? = some results) :
    List.Forall₂ (fun item result => read? item = some result) items results := by
  induction items generalizing results with
  | nil =>
      obtain rfl : [] = results := by simpa using h
      exact .nil
  | cons item rest ih =>
      rw [List.mapM_cons] at h
      obtain ⟨first, hfirst, h⟩ := Option.bind_eq_some_iff.mp h
      obtain ⟨others, hothers, h⟩ := Option.bind_eq_some_iff.mp h
      obtain rfl := Option.some.inj h
      exact .cons hfirst (ih hothers)

/-- What is read from a list item by item comes from its items. -/
theorem exists_of_mem_mapM {read? : α → Option β} {items : List α} {results : List β}
    (h : items.mapM read? = some results) {result : β} (hresult : result ∈ results) :
    ∃ item ∈ items, read? item = some result :=
  exists_of_mem_right (forall₂_of_mapM h) hresult

/-- A list is read if each of its items is. -/
theorem mapM_eq_some_map {read? : α → Option β} {value : α → β} {items : List α}
    (h : ∀ item ∈ items, read? item = some (value item)) :
    items.mapM read? = some (items.map value) := by
  induction items with
  | nil => rfl
  | cons item rest ih =>
      obtain ⟨hitem, hrest⟩ := List.forall_mem_cons.mp h
      rw [List.mapM_cons, hitem, ih hrest]
      rfl

/-- A list of what its items are written as is read if each item is. -/
theorem mapM_map_eq_some {write : α → β} {read? : β → Option α} {items : List α}
    (h : ∀ item ∈ items, read? (write item) = some item) :
    (items.map write).mapM read? = some items := by
  rw [List.mapM_map]
  exact (mapM_eq_some_map h).trans (by rw [List.map_id'])

/-! ## Related values -/

theorem exists_of_rel_some {a : α} {second : Option β} (h : Option.Rel R (some a) second) :
    ∃ b, second = some b ∧ R a b := by
  cases h with
  | some hab => exact ⟨_, rfl, hab⟩

theorem eq_none_of_rel_none {second : Option β} (h : Option.Rel R none second) :
    second = none := by
  cases h with
  | none => rfl

theorem isSome_eq_of_rel {first : Option α} {second : Option β} (h : Option.Rel R first second) :
    first.isSome = second.isSome := by
  cases h with
  | some => rfl
  | none => rfl

end Related

end LoraSchedule
