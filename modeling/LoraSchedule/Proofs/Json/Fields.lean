import LoraSchedule.Dict.Lemmas
import LoraSchedule.Json.Record
import LoraSchedule.Proofs.Lists
import Mathlib.Data.Option.Basic

/-!
# Fields of objects

An object is read in two ways.  A document keeps a dictionary of what its fields
mean, a record picks the fields it knows, and each goes through the fields of
the text on its own.  Both find the same: lists of entries that are read in step
have look-ups in step (`Dict.rel_get?_ofList`), so what a record reads under a
name (`get?_of_uniqueField?`) is what the document has there, given its meaning
(`rel_get?_ofFields?`).
-/

namespace LoraSchedule

/-! ## Entries in step -/

namespace Dict

variable {α β : Type}

/-- Entries in step give look-ups in step. -/
theorem rel_get?_ofList {R : String → α → β → Prop} {first : List (String × α)}
    {second : List (String × β)}
    (h : List.Forall₂ (fun a b => a.1 = b.1 ∧ R a.1 a.2 b.2) first second) (key : String) :
    Option.Rel (R key) ((ofList first).get? key) ((ofList second).get? key) := by
  rw [get?_ofList, get?_ofList]
  have hreverse := List.forall₂_reverse_iff.mpr h
  generalize first.reverse = first, second.reverse = second at hreverse
  induction hreverse with
  | nil => exact .none
  | cons hhead _ ih =>
      obtain ⟨hkey, hvalue⟩ := hhead
      rw [lookup_cons_eq_if, lookup_cons_eq_if, ← hkey]
      split
      case isTrue hsame => exact .some (hsame ▸ hvalue)
      case isFalse => exact ih

theorem get?_filter_key (p : String → Bool) (d : Dict α) (key : String) :
    (d.filter fun key _ => p key).get? key = if p key then d.get? key else none :=
  lookup_filter_key p d.toList key

theorem get?_ofList_filter_key (p : String → Bool) (entries : List (String × α)) (key : String) :
    (ofList (entries.filter fun entry => p entry.1)).get? key =
      if p key then (ofList entries).get? key else none := by
  rw [get?_ofList, get?_ofList, ← List.filter_reverse, lookup_filter_key]

end Dict

/-! ## Fields and their meaning -/

namespace Json

/-- The fields of an object by their names, if all names have a meaning. -/
def Written.keyed? (fields : List (Option String × Written)) : Option (List (String × Written)) :=
  fields.mapM fun field => field.1.map fun key => (key, field.2)

namespace Value

theorem forall₂_ofItems? {items : List Written} {values : List Value}
    (h : ofItems? items = some values) :
    List.Forall₂ (fun item value => ofWritten? item = some value) items values := by
  induction items generalizing values with
  | nil =>
      obtain rfl := Option.some.inj h
      exact .nil
  | cons item rest ih =>
      obtain ⟨first, hfirst, h⟩ := Option.bind_eq_some_iff.mp h
      obtain ⟨others, hothers, h⟩ := Option.bind_eq_some_iff.mp h
      obtain rfl := Option.some.inj h
      exact .cons hfirst (ih hothers)

theorem forall₂_ofFields? {fields : List (Option String × Written)}
    {keyed : List (String × Written)} {entries : List (String × Value)}
    (hkeyed : Written.keyed? fields = some keyed) (hentries : ofFields? fields = some entries) :
    List.Forall₂ (fun field entry => field.1 = entry.1 ∧ ofWritten? field.2 = some entry.2)
      keyed entries := by
  induction fields generalizing keyed entries with
  | nil =>
      obtain rfl : [] = keyed := by simpa [Written.keyed?] using hkeyed
      obtain rfl := Option.some.inj hentries
      exact .nil
  | cons field rest ih =>
      rw [Written.keyed?, List.mapM_cons] at hkeyed
      obtain ⟨named, hnamed, hkeyed⟩ := Option.bind_eq_some_iff.mp hkeyed
      obtain ⟨name, hname, rfl⟩ := Option.map_eq_some_iff.mp hnamed
      obtain ⟨others, hothers, hkeyed⟩ := Option.bind_eq_some_iff.mp hkeyed
      obtain rfl := Option.some.inj hkeyed
      obtain ⟨key, hkey, hentries⟩ := Option.bind_eq_some_iff.mp hentries
      obtain ⟨first, hfirst, hentries⟩ := Option.bind_eq_some_iff.mp hentries
      obtain ⟨following, hfollowing, hentries⟩ := Option.bind_eq_some_iff.mp hentries
      obtain rfl := Option.some.inj hentries
      have hsame : name = key := Option.some.inj (hname.symm.trans hkey)
      exact .cons ⟨hsame, hfirst⟩ (ih hothers hfollowing)

/-- **A document has under a name what is written there last**, given its meaning. -/
theorem rel_get?_ofFields? {fields : List (Option String × Written)}
    {keyed : List (String × Written)} {entries : List (String × Value)}
    (hkeyed : Written.keyed? fields = some keyed) (hentries : ofFields? fields = some entries)
    (key : String) :
    Option.Rel (fun written value => ofWritten? written = some value)
      ((Dict.ofList keyed).get? key) ((Dict.ofList entries).get? key) :=
  Dict.rel_get?_ofList (R := fun _ written value => ofWritten? written = some value)
    (forall₂_ofFields? hkeyed hentries) key

/-! ## Values of one kind -/

theorem natural?_of_ofWritten? {written : Written} {value : Value}
    (h : ofWritten? written = some value) : value.natural? = written.natural? := by
  cases written with
  | number n =>
      obtain ⟨numeral, rfl, rfl⟩ := Option.map_eq_some_iff.mp h
      cases numeral <;> rfl
  | null | bool b =>
      obtain rfl := Option.some.inj h
      rfl
  | string s | array items | object fields =>
      obtain ⟨_, -, rfl⟩ := Option.map_eq_some_iff.mp h
      rfl

/-- A list of whole numbers that can be read loses none where others are passed over. -/
theorem filterMap_natural? {items : List Written} {values : List Value} {sizes : List Nat}
    (hvalues : ofItems? items = some values) (hsizes : items.mapM Written.natural? = some sizes) :
    values.filterMap natural? = sizes := by
  have hstep := forall₂_ofItems? hvalues
  clear hvalues
  induction hstep generalizing sizes with
  | nil => simpa using hsizes
  | cons hitem _ ih =>
      rw [List.mapM_cons] at hsizes
      obtain ⟨size, hsize, hsizes⟩ := Option.bind_eq_some_iff.mp hsizes
      obtain ⟨others, hothers, hsizes⟩ := Option.bind_eq_some_iff.mp hsizes
      obtain rfl := Option.some.inj hsizes
      rw [List.filterMap_cons, natural?_of_ofWritten? hitem, hsize, ih hothers]

end Value

namespace Written

/-- A name that stands only once stands last, too. -/
theorem get?_of_uniqueField? {name : String} {fields : List (String × Written)} {value : Written}
    (h : uniqueField? name fields = some (some value)) :
    (Dict.ofList fields).get? name = some value := by
  have hfilter : fields.filter (fun field => decide (field.1 = name)) = [(name, value)] := by
    unfold uniqueField? at h
    split at h
    · cases h
    · rename_i field hfield
      obtain rfl := Option.some.inj (Option.some.inj h)
      have hmem := List.mem_filter.mp (hfield ▸ List.mem_singleton_self field)
      rw [hfield, ← of_decide_eq_true hmem.2]
    · cases h
  have hget := Dict.get?_ofList_filter_key (fun key => decide (key = name)) fields name
  rw [hfilter] at hget
  simpa [Dict.get?_ofList] using hget.symm

end Written

end Json

end LoraSchedule
