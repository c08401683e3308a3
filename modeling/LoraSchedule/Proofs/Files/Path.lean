import LoraSchedule.Files.Path
import LoraSchedule.Proofs.Text.Utf8

/-!
# Paths and names

A name (`IsName`) is what a part of a path can be that leads to a file.  As a
path it leads to the file of this name (`fileName?_ofName`).  Where a name is
written as a text, its bytes are told by the characters of the text.
-/

namespace LoraSchedule

open LoraSchedule.Path (slash point)
open LoraSchedule.Text

/-- What can name a file or a directory. -/
structure IsName (name : Bytes) : Prop where
  ne_nil : name ≠ []
  slash : slash ∉ name
  ne_current : name ≠ [point]
  ne_parent : name ≠ [point, point]

instance (name : Bytes) : Decidable (IsName name) :=
  decidable_of_iff (name ≠ [] ∧ slash ∉ name ∧ name ≠ [point] ∧ name ≠ [point, point])
    ⟨fun h => ⟨h.1, h.2.1, h.2.2.1, h.2.2.2⟩,
      fun h => ⟨h.ne_nil, h.slash, h.ne_current, h.ne_parent⟩⟩

namespace Path

variable {name : Bytes}

/-! ## Slashes and points in texts -/

theorem slash_mem_encode {text : List Char} : slash ∈ Utf8.encode text ↔ '/' ∈ text :=
  Utf8.mem_encode_iff (by decide)

theorem point_mem_encode {text : List Char} : point ∈ Utf8.encode text ↔ '.' ∈ text :=
  Utf8.mem_encode_iff (by decide)

/-! ## Components -/

theorem segments_of_not_mem {bytes : Bytes} (h : slash ∉ bytes) : segments bytes = [bytes] :=
  List.splitOn_eq_singleton h

theorem component?_of_isName (h : IsName name) : component? name = some (.name name) := by
  rw [component?, if_neg (not_or.mpr ⟨h.ne_nil, h.ne_current⟩), if_neg h.ne_parent]

/-- What a part of a path names. -/
theorem component?_cases (segment : Bytes) :
    component? segment = none ∨ component? segment = some .parent ∨
      component? segment = some (.name segment) := by
  unfold component?
  split_ifs
  · exact Or.inl rfl
  · exact Or.inr (Or.inl rfl)
  · exact Or.inr (Or.inr rfl)

theorem eq_of_component?_parent {segment : Bytes} (h : component? segment = some .parent) :
    segment = [point, point] := by
  unfold component? at h
  split_ifs at h with hblank hparent
  · exact hparent
  · cases h

theorem isName_of_component? {segment : Bytes} (hslash : slash ∉ segment)
    (h : component? segment = some (.name name)) : name = segment ∧ IsName segment := by
  unfold component? at h
  split_ifs at h with hblank hparent
  · cases h
  · rw [not_or] at hblank
    exact ⟨(Component.name.inj (Option.some.inj h)).symm, hblank.1, hslash, hblank.2, hparent⟩

theorem components_of_isName (h : IsName name) : (⟨name⟩ : Path).components = [.name name] := by
  have hroot : name.head? ≠ some slash := fun hhead => h.slash (List.mem_of_mem_head? hhead)
  have hcurrent : [name].head? ≠ some [point] := fun heq => h.ne_current (Option.some.inj heq)
  unfold components
  simp only [segments_of_not_mem h.slash, if_neg hroot, if_neg hcurrent,
    List.nil_append, List.filterMap_cons, component?_of_isName h, List.filterMap_nil]

/-! ## File names -/

/-- A name is the name of the file that it leads to. -/
theorem fileName?_ofName (h : IsName name) : (⟨name⟩ : Path).fileName? = some name := by
  rw [fileName?, components_of_isName h, List.getLast?_singleton]

/-! ## Bytes of names -/

/-- A file name is a part of its path that names something. -/
theorem isName_of_fileName? {p : Path} (h : p.fileName? = some name) :
    IsName name ∧ name ∈ segments p.bytes := by
  have hlast : Component.name name ∈ p.components := by
    unfold fileName? at h
    split at h
    · rename_i text hlast
      obtain rfl := Option.some.inj h
      exact List.mem_of_mem_getLast? hlast
    · cases h
  unfold components at hlast
  simp only [List.mem_append] at hlast
  rcases hlast with hstart | hpart
  · split_ifs at hstart <;> simp at hstart
  · obtain ⟨segment, hsegment, hcomponent⟩ := List.mem_filterMap.mp hpart
    obtain ⟨rfl, hname⟩ := isName_of_component? (mem_splitOn hsegment).1 hcomponent
    exact ⟨hname, hsegment⟩

/-- A path shows what its file name shows. -/
theorem mem_of_mem_fileName? {p : Path} (h : p.fileName? = some name) {c : Char}
    (hc : c ∈ Utf8.decode name) : c ∈ Utf8.decode p.bytes := by
  have hsegment : Utf8.decode name ∈ (Utf8.decode p.bytes).splitOn '/' := by
    have hsplit := Utf8.splitOn_decode (show slash.toNat < 0x80 by decide) p.bytes
    exact hsplit ▸ List.mem_map_of_mem (isName_of_fileName? h).2
  exact (mem_splitOn hsegment).2 c hc

/-- So it does with the stem. -/
theorem mem_of_mem_fileStem? {p : Path} {stem : Bytes} (h : p.fileStem? = some stem) {c : Char}
    (hc : c ∈ Utf8.decode stem) : c ∈ Utf8.decode p.bytes := by
  obtain ⟨name, hname, rfl⟩ := Option.map_eq_some_iff.mp h
  have hsplit := Utf8.splitName_decode (show point.toNat < 0x80 by decide) name
  have hmem : c ∈ (splitName '.' (Utf8.decode name)).1 := (congrArg Prod.fst hsplit).symm ▸ hc
  exact mem_of_mem_fileName? hname (mem_of_mem_splitName hmem)

/-! ## Extensions -/

/-- No extension has a point in it. -/
theorem dot_not_mem_extension? {p : Path} {ending : Bytes} (h : p.extension? = some ending) :
    point ∉ ending := by
  obtain ⟨name, -, hsplit⟩ := Option.bind_eq_some_iff.mp h
  by_cases hdot : point ∈ name.tail
  · obtain ⟨before, after, hbefore, hafter, rfl⟩ := exists_of_mem_tail hdot
    rw [splitName_append hbefore hafter] at hsplit
    exact Option.some.inj hsplit ▸ hafter
  · rw [splitName_eq_self hdot] at hsplit
    cases hsplit

/-- A file whose name is its stem, as it is shown, with an ending has this ending
for extension. -/
theorem extension?_of_fileName? {p : Path} {ending : List Char}
    (h : p.fileName? = some (Utf8.encode ((p.fileStem?.map Utf8.decode).getD [] ++ '.' :: ending))) :
    p.extension? = some (Utf8.encode ending) := by
  generalize hstem : (p.fileStem?.map Utf8.decode).getD [] = stem at h
  rw [fileStem?, h, Option.map_some, Option.map_some, Option.getD_some] at hstem
  have hshown : (splitName '.' (stem ++ '.' :: ending)).1 = stem := by
    have hsplit := Utf8.splitName_decode (show point.toNat < 0x80 by decide)
      (Utf8.encode (stem ++ '.' :: ending))
    rw [Utf8.decode_encode] at hsplit
    exact (congrArg Prod.fst hsplit).trans hstem
  obtain ⟨hne, hending⟩ := of_fst_splitName_append hshown
  have hname : Utf8.encode (stem ++ '.' :: ending) =
      Utf8.encode stem ++ point :: Utf8.encode ending := Utf8.encode_append stem ('.' :: ending)
  have hstemNe : Utf8.encode stem ≠ [] := fun hnil => hne (Utf8.encode_injective hnil)
  rw [extension?, h, Option.bind_eq_bind, Option.bind_some, hname,
    splitName_append hstemNe (mt point_mem_encode.mp hending)]

/-! ## Continued paths -/

theorem segments_append_slash (front rest : Bytes) :
    segments (front ++ slash :: rest) = segments front ++ segments rest :=
  List.splitOn_append_cons_self _ _

theorem fileName?_of_getLast? {p : Path} (h : (segments p.bytes).getLast? = some name)
    (hname : IsName name) : p.fileName? = some name := by
  obtain ⟨front, hfront⟩ := List.getLast?_eq_some_iff.mp h
  have hlast : p.components.getLast? = some (.name name) := by
    rw [components, hfront, List.filterMap_append, ← List.append_assoc]
    simp [component?_of_isName hname]
  simp only [fileName?, hlast]

/-- A path continued by a relative one: a slash comes between their segments,
unless the path is empty or ends in one. -/
theorem join_cases (root : Path) {q : Path} (hq : q.isAbsolute = false) :
    (root.bytes = [] ∧ (root.join q).bytes = q.bytes) ∨
      (∃ front, root.bytes = front ++ [slash] ∧
        (root.join q).bytes = front ++ slash :: q.bytes) ∨
      (root.bytes ≠ [] ∧
        (root.join q).bytes = root.bytes ++ slash :: q.bytes) := by
  unfold join
  simp only [hq, Bool.false_eq_true, if_false]
  by_cases hnil : root.bytes = []
  · exact Or.inl ⟨hnil, by simp [hnil]⟩
  · by_cases hslash : root.bytes.getLast? = some slash
    · obtain ⟨front, hfront⟩ := List.getLast?_eq_some_iff.mp hslash
      exact Or.inr (Or.inl ⟨front, hfront, by simp [hfront]⟩)
    · exact Or.inr (Or.inr ⟨hnil, by simp [hnil, hslash]⟩)

theorem exists_segments_join (root : Path) {q : Path} (hq : q.isAbsolute = false) :
    ∃ front, segments (root.join q).bytes = front ++ segments q.bytes := by
  rcases join_cases root hq with ⟨-, hjoin⟩ | ⟨front, -, hjoin⟩ | ⟨-, hjoin⟩
  · exact ⟨[], by rw [hjoin, List.nil_append]⟩
  · exact ⟨segments front, by rw [hjoin, segments_append_slash]⟩
  · exact ⟨segments root.bytes, by rw [hjoin, segments_append_slash]⟩

/-- A continued path ends in the name that continues it. -/
theorem fileName?_join (root : Path) {q : Path} (hq : q.isAbsolute = false)
    (h : (segments q.bytes).getLast? = some name) (hname : IsName name) :
    (root.join q).fileName? = some name := by
  obtain ⟨front, hfront⟩ := exists_segments_join root hq
  refine fileName?_of_getLast? ?_ hname
  rw [hfront, List.getLast?_append, h, Option.some_or]

end Path

end LoraSchedule
