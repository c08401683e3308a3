import LoraSchedule.Proofs.Container.Readers
import LoraSchedule.Proofs.Container.Sizes

/-!
# Loading is complete

A file that a loader admits and that is a container has all tensors of its header
met by a visitor, each once and in the order of names.  Each is either a tensor of
the shape that the header gives, with a value for each place, or is refused for the
type of its elements; that it is malformed is found of none, as the ranges of a
container leave no room for that.  So a tensor that cannot be decoded takes away no
other (`scan_complete`).
-/

namespace LoraSchedule.Container

open LoraSchedule.Json (Value Written)

/-! ## The tensors of a header -/

/-- The fields of the header of a container. -/
def headerFields? (bytes : Bytes) : Option (List (String × Written)) := do
  let text ← String.fromUTF8? ⟨(headerBytes bytes).toArray⟩
  let .object fields ← Written.ofText? text.toList | none
  Written.keyed? fields

/-- The tensors that the fields of a header list: each name once, in ascending order,
and described as in the last field with that name. -/
structure Lists (fields : List (String × Written)) (described : List Description) : Prop where
  ascending : (described.map Description.name).Pairwise (· < ·)
  names : ∀ name, name ∈ described.map Description.name ↔
    name ≠ metadataKey ∧ name ∈ fields.map Prod.fst
  asDescribed : ∀ d ∈ described, ∃ entry,
    (Dict.ofList fields).get? d.name = some entry ∧ describe? d.name entry = some d

section Described

variable {keyed : List (String × Written)} {tensors : List (String × Description)}
  (h : (keyed.filter fun field => isTensorName field.1).mapM
    (fun field => do return (field.1, ← describe? field.1 field.2)) = some tensors)

include h

theorem exists_entry_of_get? {key : String} {d : Description}
    (hget : (Dict.ofList tensors).get? key = some d) :
    ∃ entry, (Dict.ofList keyed).get? key = some entry ∧ describe? key entry = some d := by
  have hrel := rel_described h key
  rw [hget] at hrel
  generalize hfound : (if isTensorName key then (Dict.ofList keyed).get? key else none) =
    found at hrel
  cases hrel with
  | some hd => exact ⟨_, (Option.ite_none_right_eq_some.mp hfound).2, hd⟩

theorem name_of_get? {key : String} {d : Description}
    (hget : (Dict.ofList tensors).get? key = some d) : d.name = key := by
  obtain ⟨entry, -, hd⟩ := exists_entry_of_get? h hget
  obtain ⟨-, -, -, -, hname, -⟩ := exists_of_describe? hd
  exact hname

theorem lists_of_mapM : Lists keyed (Dict.ofList tensors).values := by
  have hnames : (Dict.ofList tensors).values.map Description.name = (Dict.ofList tensors).keys :=
    map_name_values fun key d => name_of_get? h
  refine ⟨?_, fun name => ?_, fun d hd => ?_⟩
  · rw [hnames]
    exact Dict.keys_ascending _
  · rw [hnames, Dict.mem_keys_iff, ← isSome_eq_of_rel (rel_described h name),
      ← Dict.mem_keys_ofList, Dict.mem_keys_iff]
    by_cases htensor : isTensorName name
    · rw [if_pos htensor]
      exact (and_iff_right (of_decide_eq_true htensor)).symm
    · rw [if_neg htensor]
      exact iff_of_false Bool.false_ne_true fun hboth => htensor (decide_eq_true hboth.1)
  · obtain ⟨⟨key, _⟩, hmem, rfl⟩ := List.mem_map.mp hd
    have hget := Dict.mem_toList_iff.mp hmem
    rw [name_of_get? h hget]
    exact exists_entry_of_get? h hget

end Described

theorem lists_of_described? {bytes : Bytes} {described : List Description}
    (h : described? bytes = some described) :
    ∃ fields, headerFields? bytes = some fields ∧ Lists fields described := by
  obtain ⟨_, -, h⟩ := Option.bind_eq_some_iff.mp h
  obtain ⟨_, -, h⟩ := Option.bind_eq_some_iff.mp h
  obtain ⟨text, htext, h⟩ := Option.bind_eq_some_iff.mp h
  obtain ⟨written, hwritten, h⟩ := Option.bind_eq_some_iff.mp h
  obtain ⟨_, -, h⟩ := Option.bind_eq_some_iff.mp h
  cases written with
  | object fields =>
      obtain ⟨keyed, hkeyed, h⟩ := Option.bind_eq_some_iff.mp h
      obtain ⟨_, -, h⟩ := Option.bind_eq_some_iff.mp h
      obtain ⟨tensors, htensors, h⟩ := Option.bind_eq_some_iff.mp h
      obtain rfl := Option.some.inj h
      refine ⟨keyed, ?_, lists_of_mapM htensors⟩
      exact Option.bind_eq_some_iff.mpr ⟨text, htext, Option.bind_eq_some_iff.mpr
        ⟨_, hwritten, hkeyed⟩⟩
  | _ => cases h

/-! ## Scans -/

namespace Loader

variable {l : Loader} {t : FileTree} {p : Path} {bytes data : Bytes} {described : List Description}

theorem visit_of_contents? (hadmits : l.Admits t p bytes)
    (hcontents : contents? bytes = some (described, data)) :
    l.visit t p = .ok (described.map fun d => (d.name, decode data d)) := by
  rw [visit_eq, readBytes_eq_ok_iff.mpr hadmits]
  dsimp only [Except.bind]
  rw [hcontents]

/-- What is loaded from tensors with ascending names are those that can be decoded. -/
theorem exists_load_of_visit
    (hvisit : l.visit t p = .ok (described.map fun d => (d.name, decode data d)))
    (hascending : (described.map Description.name).Pairwise (· < ·)) :
    ∃ tensors, l.load t p = .ok tensors ∧ ∀ name tensor, tensors.get? name = some tensor ↔
      ∃ d ∈ described, d.name = name ∧ decode data d = .ok tensor := by
  have hentries : (described.filterMap fun d => (decode data d).toOption.map fun value =>
      (d.name, value)).Pairwise fun a b => a.1 < b.1 := by
    refine List.pairwise_filterMap.mpr ((List.pairwise_map.mp hascending).imp ?_)
    intro d other hless entry hentry later hlater
    obtain ⟨_, -, rfl⟩ := Option.map_eq_some_iff.mp hentry
    obtain ⟨_, -, rfl⟩ := Option.map_eq_some_iff.mp hlater
    exact hless
  have hload : l.load t p = .ok (Dict.ofList (described.filterMap fun d =>
      (decode data d).toOption.map fun value => (d.name, value))) := by
    rw [load_eq, hvisit, Except.map, List.filterMap_map]
    rfl
  refine ⟨_, hload, fun name tensor => ?_⟩
  rw [← Dict.mem_toList_iff, Dict.toList_ofList hentries, List.mem_filterMap]
  refine exists_congr fun d => and_congr_right fun _ => ?_
  cases decode data d with
  | error error => simp [Except.toOption]
  | ok value => simp [Except.toOption]

theorem exists_error_of_contents? (h : ∀ bytes, l.Admits t p bytes → contents? bytes = none) :
    ∃ error, l.visit t p = .error error := by
  rw [visit_eq]
  cases hbytes : l.readBytes t p with
  | error error => exact ⟨error, rfl⟩
  | ok bytes =>
      dsimp only [Except.bind]
      rw [h bytes (readBytes_eq_ok_iff.mp hbytes)]
      exact ⟨_, rfl⟩

/-- **A scan meets all tensors of a container, or none.**  Of a file that the loader
admits and that is a container it hands each tensor of the header to the visitor,
once and in the order of names: as a tensor of the shape of the header with a value
for each place, or with an error that names its type of elements, but never as a
malformed one.  Those that are no errors are loaded.  If the file is not admitted, or
is no container, the visitor is not called. -/
theorem scan_complete (l : Loader) (t : FileTree) (p : Path) {σ : Type}
    (visitor : String → Except LoadError Tensor → σ → σ) (s : σ) :
    (∀ bytes described data, l.Admits t p bytes → contents? bytes = some (described, data) →
      (∃ fields, headerFields? bytes = some fields ∧ Lists fields described) ∧
      l.scan t p visitor s =
        (.ok (), described.foldl (fun s d => visitor d.name (decode data d) s) s) ∧
      (∀ d ∈ described, DecodesTo d (decode data d) ∧ decode data d ≠ .error .malformed) ∧
      ∃ tensors, l.load t p = .ok tensors ∧ ∀ name tensor, tensors.get? name = some tensor ↔
        ∃ d ∈ described, d.name = name ∧ decode data d = .ok tensor) ∧
    ((∀ bytes, l.Admits t p bytes → contents? bytes = none) →
      ∃ error, l.scan t p visitor s = (.error error, s) ∧ l.load t p = .error error) := by
  constructor
  · intro bytes described data hadmits hcontents
    obtain ⟨hdescribed, -, htile⟩ := contents?_eq_some_iff.mp hcontents
    obtain ⟨fields, hfields, hlists⟩ := lists_of_described? hdescribed
    have hvisit := visit_of_contents? hadmits hcontents
    refine ⟨⟨fields, hfields, hlists⟩, ?_, fun d hd => ?_,
      exists_load_of_visit hvisit hlists.ascending⟩
    · rw [scan_eq, hvisit]
      exact congrArg _ List.foldl_map
    · have hdecodes := decode_of_fits ((fits_of_tile htile).2 d (List.mem_mergeSort.mpr hd))
      exact ⟨hdecodes, hdecodes.ne_malformed⟩
  · intro hnone
    obtain ⟨error, hvisit⟩ := exists_error_of_contents? hnone
    refine ⟨error, ?_, ?_⟩
    · rw [scan_eq, hvisit]
    · rw [load_eq, hvisit, Except.map]

/-- A container whose header lists its tensors out of order, one of whole numbers and
one that is a single number. -/
def mixedBytes : Bytes :=
  [109, 0, 0, 0, 0, 0, 0, 0] ++
    (("\x7b\"w\":\x7b\"dtype\":\"F32\",\"shape\":[],\"data_offsets\":[8,12]\x7d," ++
      "\"ids\":\x7b\"dtype\":\"I64\",\"shape\":[1],\"data_offsets\":[0,8]\x7d\x7d").toList.map
      fun c => UInt8.ofNat c.toNat) ++
    [7, 0, 0, 0, 0, 0, 0, 0, 0, 0, 0, 64]

def mixedTree : FileTree := ⟨[(["a.safetensors"], .file mixedBytes)], []⟩

/-- The whole numbers are met, and do not keep the number from being loaded; under
another extension nothing is met. -/
theorem scan_complete_mixed :
    default.scan mixedTree ⟨"/a.safetensors"⟩ (fun name _ names => name :: names) [] =
        (.ok (), ["w", "ids"]) ∧
      (∃ tensors tensor, default.load mixedTree ⟨"/a.safetensors"⟩ = .ok tensors ∧
        tensors.get? "w" = some tensor ∧ tensor.shape = [] ∧ tensor.values.length = 1) ∧
      ∃ error, default.scan mixedTree ⟨"/a.pt"⟩ (fun name _ names => name :: names) [] =
        (.error error, []) := by
  have hdescribed : described? mixedBytes =
      some [⟨"ids", .i64, [1], 0, 8⟩, ⟨"w", .f32, [], 8, 12⟩] := by
    decide +kernel
  have hsorted : [(⟨"ids", .i64, [1], 0, 8⟩ : Description), ⟨"w", .f32, [], 8, 12⟩].mergeSort
      rangeAtMost = [⟨"ids", .i64, [1], 0, 8⟩, ⟨"w", .f32, [], 8, 12⟩] :=
    List.mergeSort_of_pairwise (by decide)
  have htile : tile 0 (dataBytes mixedBytes).length
      [⟨"ids", .i64, [1], 0, 8⟩, ⟨"w", .f32, [], 8, 12⟩] = true := by
    decide +kernel
  have hcontents := contents?_eq_some_iff.mpr ⟨hdescribed, rfl, hsorted.symm ▸ htile⟩
  have hadmits : default.Admits mixedTree ⟨"/a.safetensors"⟩ mixedBytes :=
    ⟨rfl, by decide, by decide +kernel⟩
  obtain ⟨-, hscan, hdecodes, tensors, hload, hget⟩ :=
    (scan_complete default mixedTree ⟨"/a.safetensors"⟩ (fun name _ names => name :: names)
      []).1 _ _ _ hadmits hcontents
  obtain ⟨tensor, htensor, hshape, hvalues⟩ :=
    (hdecodes ⟨"w", .f32, [], 8, 12⟩ (by simp)).1
  refine ⟨hscan, ⟨tensors, tensor, hload, (hget "w" tensor).mpr ⟨_, by simp, rfl, htensor⟩,
    hshape, hvalues⟩, ?_⟩
  obtain ⟨error, hnothing, -⟩ := (scan_complete default mixedTree ⟨"/a.pt"⟩
    (fun name _ names => name :: names) []).2 fun bytes hpt =>
      absurd hpt.isContainer (by decide)
  exact ⟨error, hnothing⟩

end Loader

end LoraSchedule.Container
