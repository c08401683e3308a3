import LoraSchedule.Detection
import LoraSchedule.Proofs.Container.Scan
import LoraSchedule.Proofs.Json.Fields
import LoraSchedule.Proofs.Statistics.Records

/-!
# Two readers of containers

A family is recognized by the header that `Header.read` finds, statistics are
those of the tensors that `Loader.visit` meets.  The first asks little of a
container and the second everything, and they take it apart on their own.  Where
the second accepts a file, the first reads the same names from it, and of a
record that is an object with a written type the same type and shape
(`read_of_visit`).

Both read the same text.  Under each key they find either nothing or what is
written there last (`rel_tensors`), and read that alike as far as it is typed
(`recordOf_of_describe?`).
-/

namespace LoraSchedule.Container

open LoraSchedule.Json (Value Written)

/-- The bytes of the header of a container. -/
def headerBytes (bytes : Bytes) : Bytes := (bytes.drop 8).take (littleEndian (bytes.take 8))

/-- The document in the header of a container. -/
def document? (bytes : Bytes) : Option Value :=
  String.fromUTF8? ⟨(headerBytes bytes).toArray⟩ >>= fun text => Value.ofText? text.toList

/-! ## One value -/

theorem exists_of_describe? {name : String} {entry : Written} {d : Description}
    (h : describe? name entry = some d) :
    ∃ element shape range, entry.record? ["dtype", "shape", "data_offsets"] =
        some [element, shape, range] ∧
      d.name = name ∧ Written.required elementType? element = some d.element ∧
      Written.required (Written.list? Written.natural?) shape = some d.shape := by
  obtain ⟨fields, hfields, h⟩ := Option.bind_eq_some_iff.mp h
  split at h
  case h_1 element shape range =>
    obtain ⟨type, htype, h⟩ := Option.bind_eq_some_iff.mp h
    obtain ⟨sizes, hsizes, h⟩ := Option.bind_eq_some_iff.mp h
    obtain ⟨ends, hends, h⟩ := Option.bind_eq_some_iff.mp h
    obtain rfl := Option.some.inj h
    exact ⟨element, shape, range, hfields, rfl, htype, hsizes⟩
  case h_2 => cases h

/-- An element type that is written as a text is written by its name. -/
theorem name_of_elementType? {written : Written} {dtype : String} {element : ElementType}
    (hvalue : Value.ofWritten? written = some (.string dtype))
    (helement : elementType? written = some element) : element.name = dtype := by
  cases written with
  | string s =>
      obtain ⟨text, rfl, hsame⟩ := Option.map_eq_some_iff.mp hvalue
      obtain rfl := Value.string.inj hsame
      have hfind : ElementType.all.find? (fun e => e.name = text) = some element := helement
      simpa using List.find?_some hfind
  | null | bool b => cases hvalue
  | number n | array items | object fields =>
      obtain ⟨_, -, hother⟩ := Option.map_eq_some_iff.mp hvalue
      cases hother

/-- The fields of a record that is an object, as the document has them. -/
theorem exists_of_record? {names : List String} {entry : Written} {found : List (Option Written)}
    {fields : List (String × Value)} (hrecord : entry.record? names = some found)
    (hvalue : Value.ofWritten? entry = some (.object fields)) :
    List.Forall₂ (fun name field => ∀ written ∈ field, ∃ value,
      Value.ofWritten? written = some value ∧ fields.lookup name = some value) names found := by
  cases entry with
  | object parts =>
      obtain ⟨keyed, hkeyed, hfound⟩ := Option.bind_eq_some_iff.mp hrecord
      obtain ⟨entries, hentries, hobject⟩ := Option.map_eq_some_iff.mp hvalue
      obtain rfl := Value.object.inj hobject
      refine (forall₂_of_mapM hfound).imp fun name field hfield written hwritten => ?_
      obtain rfl := hwritten
      have hstep := Value.rel_get?_ofFields? hkeyed hentries name
      rw [Written.get?_of_uniqueField? hfield] at hstep
      obtain ⟨value, hget, hmeaning⟩ := exists_of_rel_some hstep
      exact ⟨value, hmeaning, hget⟩
  | null | bool b => cases hvalue
  | number n | string s | array items =>
      obtain ⟨_, -, hother⟩ := Option.map_eq_some_iff.mp hvalue
      cases hother

/-- **Both readers find the same in a record with a written type.** -/
theorem recordOf_of_describe? {name dtype : String} {entry : Written} {value : Value}
    {d : Description} (hd : describe? name entry = some d)
    (hvalue : Value.ofWritten? entry = some value)
    (hdtype : value.field? "dtype" = some (.string dtype)) :
    Header.recordOf value = ⟨d.element.name, d.shape⟩ := by
  obtain ⟨element, shape, range, hrecord, -, helement, hshape⟩ := exists_of_describe? hd
  obtain ⟨fields, hobject, hlookup⟩ := Option.bind_eq_some_iff.mp hdtype
  obtain rfl : value = .object fields := by
    cases value with
    | object => rw [Option.some.inj hobject]
    | _ => cases hobject
  obtain ⟨writtenType, htype, helement⟩ := Option.bind_eq_some_iff.mp helement
  obtain ⟨writtenShape, hsizes, hshape⟩ := Option.bind_eq_some_iff.mp hshape
  have hfields := exists_of_record? hrecord hvalue
  rw [List.forall₂_cons, List.forall₂_cons] at hfields
  obtain ⟨hinType, hinShape, -⟩ := hfields
  have hname : d.element.name = dtype := by
    obtain ⟨typeValue, hmeaning, hfound⟩ := hinType writtenType htype
    obtain rfl := Option.some.inj (hfound.symm.trans hlookup)
    exact name_of_elementType? hmeaning helement
  obtain ⟨shapeValue, hshapeValue, hfound⟩ := hinShape writtenShape hsizes
  -- The shape is read as a list of sizes, so no size is passed over.
  have hlist : (shapeValue.array?.getD []).filterMap Value.natural? = d.shape := by
    cases writtenShape with
    | array items =>
        obtain ⟨values, hvalues, rfl⟩ := Option.map_eq_some_iff.mp hshapeValue
        exact Value.filterMap_natural? hvalues hshape
    | _ => cases hshape
  have hshapeField : (Value.object fields).field? "shape" = some shapeValue := hfound
  rw [Header.recordOf, hdtype, hshapeField, hname]
  exact congrArg _ hlist

/-! ## All tensors -/

def isTensorName (key : String) : Bool := key ≠ metadataKey

theorem tensors_ofFields (entries : Dict Value) :
    (Header.ofFields entries.toList).tensors =
      (entries.filter fun key _ => isTensorName key).map fun _ value => Header.recordOf value :=
  Dict.ofList_toList
    ((entries.filter fun key _ => isTensorName key).map fun _ value => Header.recordOf value)

/-- What the two readers find under a key of a document. -/
structure ReadAlike (document : Value) (key : String) (d : Description) (record : TensorRecord) :
    Prop where
  notReserved : key ≠ metadataKey
  name : d.name = key
  typed : ∀ value dtype, document.field? key = some value →
    value.field? "dtype" = some (.string dtype) → record = ⟨d.element.name, d.shape⟩

/-- The tensors described under each key are those of the last field with it. -/
theorem rel_described {keyed : List (String × Written)} {described : List (String × Description)}
    (hdescribed : (keyed.filter fun field => isTensorName field.1).mapM
      (fun field => do return (field.1, ← describe? field.1 field.2)) = some described)
    (key : String) :
    Option.Rel (fun entry d => describe? key entry = some d)
      (if isTensorName key then (Dict.ofList keyed).get? key else none)
      ((Dict.ofList described).get? key) := by
  rw [← Dict.get?_ofList_filter_key]
  refine Dict.rel_get?_ofList (R := fun key entry d => describe? key entry = some d)
    ((forall₂_of_mapM hdescribed).imp fun field found hfound => ?_) key
  obtain ⟨d, hd, hpair⟩ := Option.bind_eq_some_iff.mp hfound
  obtain rfl := Option.some.inj hpair
  exact ⟨rfl, hd⟩

theorem map_name_values {described : Dict Description}
    (h : ∀ key d, described.get? key = some d → d.name = key) :
    described.values.map Description.name = described.keys := by
  rw [Dict.values, List.map_map, Dict.keys]
  exact List.map_congr_left fun entry hentry => h entry.1 entry.2 (Dict.mem_toList_iff.mp hentry)

/-- **Under each key both readers find nothing, or both something.** -/
theorem rel_tensors {fields : List (Option String × Written)} {keyed : List (String × Written)}
    {entries : List (String × Value)} {described : List (String × Description)}
    (hkeyed : Written.keyed? fields = some keyed)
    (hentries : Value.ofFields? fields = some entries)
    (hdescribed : (keyed.filter fun field => isTensorName field.1).mapM
      (fun field => do return (field.1, ← describe? field.1 field.2)) = some described)
    (key : String) :
    Option.Rel (ReadAlike (.object (Dict.ofList entries).toList) key)
      ((Dict.ofList described).get? key)
      ((Header.ofFields (Dict.ofList entries).toList).tensors.get? key) := by
  have hmeaning := Value.rel_get?_ofFields? hkeyed hentries key
  have hread := rel_described hdescribed key
  rw [tensors_ofFields, Dict.get?_map, Dict.get?_filter_key]
  by_cases hname : isTensorName key
  · rw [if_pos hname] at hread ⊢
    cases hentry : (Dict.ofList keyed).get? key with
    | none =>
        rw [hentry] at hread hmeaning
        rw [eq_none_of_rel_none hread, eq_none_of_rel_none hmeaning]
        exact .none
    | some entry =>
        rw [hentry] at hread hmeaning
        obtain ⟨d, hfound, hd⟩ := exists_of_rel_some hread
        obtain ⟨value, hget, hvalue⟩ := exists_of_rel_some hmeaning
        obtain ⟨-, -, -, -, hkey, -⟩ := exists_of_describe? hd
        rw [hfound, hget]
        refine .some ⟨of_decide_eq_true hname, hkey, fun other dtype hother hdtype => ?_⟩
        obtain rfl : value = other := Option.some.inj (hget.symm.trans hother)
        exact recordOf_of_describe? hd hvalue hdtype
  · -- The metadata is no tensor for either.
    rw [if_neg hname] at hread ⊢
    rw [eq_none_of_rel_none hread]
    exact .none

/-! ## Containers -/

/-- What the two readers of a container find is the same. -/
structure Agree (header : Header) (described : List Description) (document : Value) : Prop where
  names : header.tensors.keys = described.map Description.name
  reserved : metadataKey ∉ described.map Description.name
  /-- A record that is an object with a written type is the same for both. -/
  records : ∀ d ∈ described, ∀ record dtype, document.field? d.name = some record →
    record.field? "dtype" = some (.string dtype) →
      header.tensors.get? d.name = some ⟨d.element.name, d.shape⟩

theorem agree_of_rel {header : Header} {described : Dict Description} {document : Value}
    (h : ∀ key, Option.Rel (ReadAlike document key) (described.get? key)
      (header.tensors.get? key)) : Agree header described.values document := by
  have hfound {key : String} {d : Description} (hmem : (key, d) ∈ described.toList) :
      ∃ record, header.tensors.get? key = some record ∧ ReadAlike document key d record := by
    have hrel := h key
    rw [Dict.mem_toList_iff.mp hmem] at hrel
    exact exists_of_rel_some hrel
  have hnames : described.values.map Description.name = described.keys := by
    refine map_name_values fun key d hget => ?_
    obtain ⟨_, _, halike⟩ := hfound (Dict.mem_toList_iff.mpr hget)
    exact halike.name
  refine ⟨?_, ?_, ?_⟩
  · rw [hnames]
    refine Dict.keys_eq_of_mem_iff fun key => ?_
    rw [Dict.mem_keys_iff, Dict.mem_keys_iff, isSome_eq_of_rel (h key)]
  · rw [hnames]
    intro hreserved
    obtain ⟨⟨key, d⟩, hmem, rfl⟩ := List.mem_map.mp hreserved
    obtain ⟨_, _, halike⟩ := hfound hmem
    exact halike.notReserved rfl
  · intro d hd value dtype hvalue hdtype
    obtain ⟨⟨key, _⟩, hmem, rfl⟩ := List.mem_map.mp hd
    obtain ⟨record, hrecord, halike⟩ := hfound hmem
    rw [halike.name] at hvalue ⊢
    rw [hrecord, halike.typed value dtype hvalue hdtype]

theorem agree_of_descriptions? {written : Written} {described : List Description}
    {document : Value} (hdescribed : descriptions? written = some described)
    (hdocument : Value.ofWritten? written = some document) :
    ∃ fields, document = .object fields ∧ Agree (Header.ofFields fields) described document := by
  cases written with
  | object fields =>
      obtain ⟨keyed, hkeyed, hdescribed⟩ := Option.bind_eq_some_iff.mp hdescribed
      obtain ⟨-, -, hdescribed⟩ := Option.bind_eq_some_iff.mp hdescribed
      obtain ⟨tensors, htensors, hdescribed⟩ := Option.bind_eq_some_iff.mp hdescribed
      obtain rfl := Option.some.inj hdescribed
      obtain ⟨entries, hentries, rfl⟩ := Option.map_eq_some_iff.mp hdocument
      exact ⟨_, rfl, agree_of_rel (rel_tensors hkeyed hentries htensors)⟩
  | _ => cases hdescribed

theorem exists_of_contents? {bytes data : Bytes} {described : List Description}
    (h : contents? bytes = some (described, data)) :
    8 ≤ bytes.length ∧ littleEndian (bytes.take 8) ≤ maxHeaderLength ∧
      8 + littleEndian (bytes.take 8) ≤ bytes.length ∧
      ∃ written document, document? bytes = some document ∧
        Value.ofWritten? written = some document ∧ descriptions? written = some described := by
  obtain ⟨h, -, -⟩ := contents?_eq_some_iff.mp h
  obtain ⟨_, hlong, h⟩ := Option.bind_eq_some_iff.mp h
  obtain ⟨_, hlength, h⟩ := Option.bind_eq_some_iff.mp h
  obtain ⟨text, htext, h⟩ := Option.bind_eq_some_iff.mp h
  obtain ⟨written, hwritten, h⟩ := Option.bind_eq_some_iff.mp h
  obtain ⟨document, hdocument, htensors⟩ := Option.bind_eq_some_iff.mp h
  -- The bounds are those of the other reader, and a header without a meaning is refused.
  obtain ⟨hsmall, hwhole⟩ := (Option.guard_eq_some' _).mp hlength
  refine ⟨(Option.guard_eq_some' _).mp hlong, hsmall, hwhole, written, document, ?_, ?_, htensors⟩
  · have hmeaning : Value.ofText? text.toList = some document :=
      Option.bind_eq_some_iff.mpr ⟨written, hwritten, hdocument⟩
    exact Option.bind_eq_some_iff.mpr ⟨text, htext, hmeaning⟩
  · unfold Value.ofNested? at hdocument
    split at hdocument
    · exact hdocument
    · cases hdocument

theorem ofContainer_of_document? {bytes : Bytes} {fields : List (String × Value)}
    (hlong : 8 ≤ bytes.length) (hsmall : littleEndian (bytes.take 8) ≤ maxHeaderLength)
    (hwhole : 8 + littleEndian (bytes.take 8) ≤ bytes.length)
    (hdocument : document? bytes = some (.object fields)) :
    Header.ofContainer bytes = .ok (Header.ofFields fields) := by
  have hparse : Header.parse (headerBytes bytes) = .ok (Header.ofFields fields) := by
    have hmeaning : (String.fromUTF8? ⟨(headerBytes bytes).toArray⟩ >>= fun text =>
        Value.ofText? text.toList) = some (.object fields) := hdocument
    rw [Header.parse, hmeaning]
  rw [Header.ofContainer, if_neg (by omega), if_neg (by omega), if_neg (by omega)]
  exact hparse

/-! ## Files -/

theorem exists_of_visit {l : Loader} {t : FileTree} {p : Path}
    {visited : List (String × Except LoadError Tensor)} (h : l.visit t p = .ok visited) :
    ∃ bytes described data, t.node? p = some (.file bytes) ∧
      contents? bytes = some (described, data) ∧
      visited = described.map fun d => (d.name, Loader.decode data d) := by
  rw [Loader.visit_eq] at h
  cases hbytes : l.readBytes t p with
  | error error =>
      rw [hbytes] at h
      cases h
  | ok bytes =>
      rw [hbytes] at h
      dsimp only [Except.bind] at h
      split at h
      case h_1 => cases h
      case h_2 described data hcontents =>
        exact ⟨bytes, described, data, (Loader.readBytes_eq_ok_iff.mp hbytes).file, hcontents,
          (Except.ok.inj h).symm⟩

theorem shape_of_decode {data : Bytes} {d : Description} {tensor : Tensor}
    (h : Loader.decode data d = .ok tensor) : tensor.shape = d.shape := by
  unfold Loader.decode at h
  split at h
  case h_1 => cases h
  case h_2 =>
    split at h
    case isTrue =>
      obtain rfl := Except.ok.inj h
      rfl
    case isFalse => cases h

/-- **A file whose tensors can be visited has a header that can be read**, and both
agree on what is in it.  So its statistics are about blocks of the names by which
its family is recognized. -/
theorem read_of_visit {l : Loader} {t : FileTree} {p : Path}
    {visited : List (String × Except LoadError Tensor)} (hvisit : l.visit t p = .ok visited) :
    ∃ header bytes described data document, Header.read t p = .ok header ∧
      t.read? p = some bytes ∧ document? bytes = some document ∧
      contents? bytes = some (described, data) ∧
      visited = described.map (fun d => (d.name, Loader.decode data d)) ∧
      Agree header described document ∧
      (∀ d ∈ described, ∀ tensor, Loader.decode data d = .ok tensor → tensor.shape = d.shape) ∧
      header.tensors.keys = visited.map Prod.fst ∧
      (∀ text, header.hasNameWith text =
        (visited.map Prod.fst).any fun name => Text.containsText text.toList name.toList) ∧
      ∀ a stats, statisticsOf? t l p a = some stats → ∀ id, id ∈ stats.blockIds ↔
        ∃ name ∈ header.tensors.keys, id = (Block.ofKey a.layout name).id := by
  obtain ⟨bytes, described, data, hnode, hcontents, rfl⟩ := exists_of_visit hvisit
  obtain ⟨hlong, hsmall, hwhole, written, document, hdocument, hmeaning, hdescribed⟩ :=
    exists_of_contents? hcontents
  obtain ⟨fields, rfl, hagree⟩ := agree_of_descriptions? hdescribed hmeaning
  have hread : Header.read t p = .ok (Header.ofFields fields) := by
    rw [Header.read, hnode]
    exact ofContainer_of_document? hlong hsmall hwhole hdocument
  have hbytes : t.read? p = some bytes := by rw [FileTree.read?, hnode]
  have hnames : (Header.ofFields fields).tensors.keys =
      (described.map fun d => (d.name, Loader.decode data d)).map Prod.fst := by
    rw [hagree.names, List.map_map]
    rfl
  refine ⟨_, bytes, described, data, _, hread, hbytes, hdocument, hcontents, rfl, hagree,
    fun d _ tensor => shape_of_decode, hnames, fun text => ?_, fun a stats hstats id => ?_⟩
  · rw [Header.hasNameWith, hnames]
  · rw [statisticsOf?, hvisit] at hstats
    obtain rfl := Option.some.inj hstats
    rw [Statistics.mem_blockIds_ofNorms, hnames]
    simp only [List.mem_map, exists_exists_and_eq_and]

/-- A container with metadata and one tensor, whose elements cannot be decoded. -/
def wholeNumberBytes : Bytes :=
  [74, 0, 0, 0, 0, 0, 0, 0] ++
    (("\x7b\"__metadata__\":\x7b\x7d,\"a.w\":\x7b\"dtype\":\"I32\",\"shape\":[2]," ++
      "\"data_offsets\":[0,8]\x7d\x7d").toList.map fun c => UInt8.ofNat c.toNat) ++
    [1, 0, 0, 0, 2, 0, 0, 0]

def wholeNumberTree : FileTree := ⟨[(["a.safetensors"], .file wholeNumberBytes)], []⟩

/-- The tensor is visited, and its record is read as it is described. -/
theorem read_of_visit_whole_numbers :
    ∃ visited header, Loader.default.visit wholeNumberTree ⟨"/a.safetensors"⟩ = .ok visited ∧
      Header.read wholeNumberTree ⟨"/a.safetensors"⟩ = .ok header ∧
      visited.map Prod.fst = ["a.w"] ∧ header.tensors.keys = visited.map Prod.fst ∧
      header.tensors.get? "a.w" = some ⟨"I32", [2]⟩ := by
  have hdescribed : (contents? wholeNumberBytes).map Prod.fst =
      some [⟨"a.w", .i32, [2], 0, 8⟩] := by
    decide +kernel
  have hbytes : Loader.default.readBytes wholeNumberTree ⟨"/a.safetensors"⟩ =
      .ok wholeNumberBytes := rfl
  obtain ⟨⟨_, data⟩, hcontents, rfl⟩ := Option.map_eq_some_iff.mp hdescribed
  have hvisit : Loader.default.visit wholeNumberTree ⟨"/a.safetensors"⟩ =
      .ok [("a.w", Loader.decode data ⟨"a.w", .i32, [2], 0, 8⟩)] := by
    rw [Loader.visit_eq, hbytes]
    dsimp only [Except.bind]
    rw [hcontents]
    rfl
  obtain ⟨header, bytes, described, _, document, hread, hfile, hdocument, hagain, -, hagree, -,
    hkeys, -⟩ := read_of_visit hvisit
  obtain rfl : wholeNumberBytes = bytes := Option.some.inj hfile
  obtain ⟨rfl, -⟩ := Prod.mk.inj (Option.some.inj (hcontents.symm.trans hagain))
  have hrecord : (((document? wholeNumberBytes).bind (Value.field? · "a.w")).bind
      (Value.field? · "dtype")).bind Value.string? = some "I32" := by
    decide +kernel
  rw [hdocument, Option.bind_some] at hrecord
  obtain ⟨dtype, hdtype, htext⟩ := Option.bind_eq_some_iff.mp hrecord
  obtain ⟨record, hrecord, hdtype⟩ := Option.bind_eq_some_iff.mp hdtype
  obtain rfl : dtype = .string "I32" := by
    cases dtype with
    | string s => rw [Option.some.inj htext]
    | _ => cases htext
  exact ⟨_, header, hvisit, hread, rfl, hkeys,
    hagree.records _ (List.mem_singleton_self _) record "I32" hrecord hdtype⟩

end LoraSchedule.Container
