/-!
# Dictionaries

A finite map from texts to values, kept as its entries in the order of their keys, by code points.
Equal maps are equal as data, and the order in which keys were put in leaves no trace.
-/

namespace LoraSchedule

universe u v

/-- A list of entries with strictly ascending keys. -/
structure Dict (α : Type u) where
  toList : List (String × α)
  ascending : toList.Pairwise (fun a b => a.1 < b.1)

namespace Dict

variable {α : Type u} {β : Type v}

/-! ## Entries -/

/-- Puts an entry into ascending entries, replacing the one with its key. -/
def insertEntry (key : String) (value : α) : List (String × α) → List (String × α)
  | [] => [(key, value)]
  | entry :: rest =>
    if key < entry.1 then (key, value) :: entry :: rest
    else if key = entry.1 then (key, value) :: rest
    else entry :: insertEntry key value rest

theorem mem_insertEntry {key : String} {value : α} {entries : List (String × α)}
    {entry : String × α} (h : entry ∈ insertEntry key value entries) :
    entry = (key, value) ∨ entry ∈ entries := by
  induction entries with
  | nil => simpa [insertEntry] using h
  | cons head rest ih =>
    simp only [insertEntry] at h
    split at h
    · simpa using h
    · split at h
      · simp only [List.mem_cons] at h ⊢
        exact h.imp id Or.inr
      · simp only [List.mem_cons] at h ⊢
        rcases h with h | h
        · exact Or.inr (Or.inl h)
        · exact (ih h).imp id Or.inr

theorem insertEntry_ascending (key : String) (value : α) {entries : List (String × α)}
    (h : entries.Pairwise (fun a b => a.1 < b.1)) :
    (insertEntry key value entries).Pairwise (fun a b => a.1 < b.1) := by
  induction entries with
  | nil => simp [insertEntry]
  | cons head rest ih =>
    rw [List.pairwise_cons] at h
    simp only [insertEntry]
    split
    case isTrue before =>
      refine List.pairwise_cons.2 ⟨fun entry member => ?_, List.pairwise_cons.2 h⟩
      rcases List.mem_cons.1 member with rfl | member
      · exact before
      · exact String.lt_trans before (h.1 entry member)
    case isFalse notBefore =>
      split
      case isTrue same =>
        exact List.pairwise_cons.2 ⟨fun entry member => same ▸ h.1 entry member, h.2⟩
      case isFalse different =>
        refine List.pairwise_cons.2 ⟨fun entry member => ?_, ih h.2⟩
        rcases mem_insertEntry member with rfl | member
        · exact Decidable.byContradiction fun notAfter =>
            different (String.le_antisymm (String.not_lt.1 notAfter) (String.not_lt.1 notBefore))
        · exact h.1 entry member

/-! ## Maps -/

def empty : Dict α := ⟨[], .nil⟩

instance : EmptyCollection (Dict α) := ⟨empty⟩
instance : Inhabited (Dict α) := ⟨empty⟩

instance [DecidableEq α] : DecidableEq (Dict α) := fun a b =>
  decidable_of_iff (a.toList = b.toList) ⟨fun h => by cases a; cases b; simp_all, fun h => h ▸ rfl⟩

/-- The map with one more entry, or another value for a key. -/
def insert (d : Dict α) (key : String) (value : α) : Dict α :=
  ⟨insertEntry key value d.toList, insertEntry_ascending key value d.ascending⟩

/-- The value of a key. -/
def get? (d : Dict α) (key : String) : Option α := d.toList.lookup key

def contains (d : Dict α) (key : String) : Bool := (d.get? key).isSome

def keys (d : Dict α) : List String := d.toList.map Prod.fst

def values (d : Dict α) : List α := d.toList.map Prod.snd

def size (d : Dict α) : Nat := d.toList.length

def isEmpty (d : Dict α) : Bool := d.toList.isEmpty

/-- The map with these entries; of several with one key, the last. -/
def ofList (entries : List (String × α)) : Dict α :=
  entries.foldl (fun d entry => d.insert entry.1 entry.2) empty

/-- All entries of both maps; where they share a key, the second map's. -/
def union (first second : Dict α) : Dict α :=
  second.toList.foldl (fun d entry => d.insert entry.1 entry.2) first

/-- Each value replaced by a function of it and its key. -/
def map (f : String → α → β) (d : Dict α) : Dict β :=
  ⟨d.toList.map fun entry => (entry.1, f entry.1 entry.2), by
    simpa [List.pairwise_map] using d.ascending⟩

/-- The entries for which a condition holds. -/
def filter (p : String → α → Bool) (d : Dict α) : Dict α :=
  ⟨d.toList.filter fun entry => p entry.1 entry.2, d.ascending.filter _⟩

/-- The map without a key. -/
def erase (d : Dict α) (key : String) : Dict α := d.filter fun k _ => k != key

end Dict

end LoraSchedule
