import LoraSchedule.Proofs.Container.Readers
import LoraSchedule.Proofs.Files.Changes

/-!
# What a family depends on

The family of a file is the one that the first of its sidecars names which names
one.  Nothing else has an influence then, and a sidecar that names nothing has
none (`detect_congr`).  Without a name from a sidecar the family of a container
is that of its header, and what follows the header has no influence
(`ofContainer_congr`); a header that cannot be read leaves it unknown.

A file whose name ends in `.json` is a sidecar of its own, the second one.  Any
other is none of its sidecars (`Sidecar.ne_of_locate?_withFileName`), so that
these can be read apart from it, unless a link leads from a sidecar to the file
itself (`Sidecar.OwnLast`).
-/

namespace LoraSchedule

open LoraSchedule.Container (Header isContainerPath document? headerBytes maxHeaderLength)
open LoraSchedule.Json (Value)
open LoraSchedule.Path (slash point)
open LoraSchedule.Text

/-! ## What a sidecar names -/

namespace Sidecar

variable {t t' : FileTree} {p q : Path}

/-- The family that a sidecar names, if it can be read and names one. -/
def named? (t : FileTree) (q : Path) : Option Architecture := (read t q).toOption >>= architecture?

theorem architectureOfFile?_eq (t : FileTree) (p : Path) :
    architectureOfFile? t p = (paths p).findSome? (named? t) := by
  rw [architectureOfFile?, ofFile, ← List.head?_filterMap, ← List.head?_filterMap,
    List.filterMap_filterMap]
  rfl

/-- A sidecar names nothing if it cannot be read, or says nothing of a family. -/
theorem named?_eq_none_iff : named? t q = none ↔
    read t q = .error .unreadable ∨ read t q = .error .malformed ∨
      ∃ sidecar, read t q = .ok sidecar ∧ sidecar.architecture? = none := by
  unfold named?
  cases hread : read t q with
  | error error => cases error <;> simp [Except.toOption]
  | ok sidecar => simp [Except.toOption]

/-- What a sidecar names depends on what is there. -/
theorem named?_congr {q' : Path} (h : t'.node? q' = t.node? q) : named? t' q' = named? t q := by
  simp only [named?, read, FileTree.readText?, FileTree.read?, h]

theorem named?_of_no_file (h : t.node? q = none) : named? t q = none := by
  simp [named?, read, FileTree.readText?, FileTree.read?, h, Except.toOption]

/-! ## The places of sidecars -/

/-- The stem of a file, as it is shown in the names of its sidecars. -/
def stemOf (p : Path) : List Char := (p.fileStem?.map Utf8.decode).getD []

theorem paths_eq (p : Path) :
    paths p = [p.withFileName (Utf8.encode (stemOf p ++ '.' :: "metadata.json".toList)),
      p.withFileName (Utf8.encode (stemOf p ++ '.' :: "json".toList))] :=
  rfl

theorem isName_of_ending {stem ending : List Char} (hstem : '/' ∉ stem)
    (hending : ending ∈ ["metadata.json".toList, "json".toList]) :
    IsName (Utf8.encode (stem ++ '.' :: ending)) := by
  have hshape : ∀ ending ∈ ["metadata.json".toList, "json".toList],
      '/' ∉ '.' :: ending ∧ ('.' :: ending).getLast? = some 'n' := by
    decide
  obtain ⟨hslash, hlast⟩ := hshape ending hending
  have hgetLast : (stem ++ '.' :: ending).getLast? = some 'n' := by
    rw [List.getLast?_append, hlast, Option.some_or]
  have hne (other : List Char) (hother : other.getLast? ≠ some 'n') :
      Utf8.encode (stem ++ '.' :: ending) ≠ Utf8.encode other := by
    intro heq
    exact hother (Utf8.encode_injective heq ▸ hgetLast)
  refine ⟨hne [] (by decide), ?_, hne ['.'] (by decide), hne ['.', '.'] (by decide)⟩
  rw [Path.slash_mem_encode, List.mem_append, not_or]
  exact ⟨hstem, hslash⟩

theorem slash_not_mem_stemOf (p : Path) : '/' ∉ stemOf p := by
  cases hname : p.fileName? with
  | none => simp [stemOf, Path.fileStem?, hname]
  | some name =>
      simp only [stemOf, Path.fileStem?, hname, Option.map_some, Option.getD_some]
      intro hmem
      have hslash : slash ∈ (splitName point name).1 := (Utf8.mem_decode_iff (by decide)).mp hmem
      exact (Path.isName_of_fileName? hname).1.slash (mem_of_mem_splitName hslash)

section OwnPlace

variable {place : List Bytes} {contents : Bytes} (hfile : t.nodeAt? place = some (.file contents))

include hfile

/-- **A file is none of its sidecars**, unless its extension is that of its second
one, or there are links. -/
theorem ne_of_locate?_withFileName (hlinks : t.LinkFree) (hp : t.locate? p = some place)
    {ending : List Char} (hending : ending ∈ ["metadata.json".toList, "json".toList])
    (hextension : p.extension? ≠ some (Utf8.encode ending)) :
    t.locate? (p.withFileName (Utf8.encode (stemOf p ++ '.' :: ending))) ≠ some place :=
  FileTree.ne_of_locate?_withFileName hfile hlinks hp
    (isName_of_ending (slash_not_mem_stemOf p) hending)
    fun hname => hextension (Path.extension?_of_fileName? hname)

/-- What is at a place is no sidecar of a path up to the first that names a family. -/
def OwnLast (t : FileTree) (p : Path) (place : List Bytes) : Prop :=
  ∀ before q after, paths p = before ++ q :: after → t.locate? q = some place →
    ∃ r ∈ before, (named? t r).isSome = true

theorem ownLast_of_linkFree (hlinks : t.LinkFree) (hp : t.locate? p = some place)
    (hown : p.extension? = some ("json" : Bytes) → ∃ q ∈ (paths p).head?, (named? t q).isSome = true) :
    OwnLast t p place := by
  intro before q after hpaths hq
  rw [paths_eq] at hpaths hown
  match before, hpaths with
  | [], hpaths =>
      obtain ⟨rfl, -⟩ := List.cons.inj hpaths
      refine absurd hq (ne_of_locate?_withFileName hfile hlinks hp (List.mem_cons_self ..) ?_)
      exact fun heq => Path.dot_not_mem_extension? heq (by decide)
  | [first], hpaths =>
      obtain ⟨rfl, hrest⟩ := List.cons.inj hpaths
      obtain ⟨rfl, -⟩ := List.cons.inj hrest
      by_cases hextension : p.extension? = some ("json" : Bytes)
      · obtain ⟨r, hr, hnamed⟩ := hown hextension
        obtain rfl := Option.some.inj hr
        exact ⟨_, List.mem_singleton_self _, hnamed⟩
      · exact absurd hq (ne_of_locate?_withFileName hfile hlinks hp
          (List.mem_cons_of_mem _ (List.mem_cons_self ..)) hextension)
  | _ :: _ :: _, hpaths => simp at hpaths

/-- What is written into a file does not change what its sidecars name, unless it
is read as one of those that decide. -/
theorem findSome?_named?_put (written : Bytes) (hown : OwnLast t p place) :
    (paths p).findSome? (named? (t.put place (.file written))) =
      (paths p).findSome? (named? t) := by
  unfold OwnLast at hown
  -- the sidecars before the first that names a family name none
  generalize paths p = sidecars at hown ⊢
  induction sidecars with
  | nil => rfl
  | cons q rest ih =>
      have hq : t.locate? q ≠ some place := fun heq => by
        obtain ⟨r, hr, -⟩ := hown [] q rest rfl heq
        cases hr
      have hsame : named? (t.put place (.file written)) q = named? t q :=
        named?_congr ((FileTree.differsAt_put hfile written).node?_of_ne hq)
      rw [List.findSome?_cons, List.findSome?_cons, hsame]
      cases hnamed : named? t q with
      | some a => rfl
      | none =>
          refine ih fun before other after hrest hother => ?_
          obtain ⟨r, hr, hsome⟩ := hown (q :: before) other after (by rw [hrest]; rfl) hother
          rcases List.mem_cons.mp hr with rfl | hr
          · simp [hnamed] at hsome
          · exact ⟨r, hr, hsome⟩

end OwnPlace

end Sidecar

/-! ## Headers -/

/-- The family that a header shows; unknown where it cannot be read. -/
def familyOfHeader (header : Except Container.HeaderError Header) : Architecture :=
  match header with
  | .ok header => header.family?.getD .unknown
  | .error _ => .unknown

/-- **What follows the header has no influence on how it is read.** -/
theorem ofContainer_congr {first second : Bytes} {n : Nat}
    (hlength : littleEndian (first.take 8) = n) (hfirst : 8 + n ≤ first.length)
    (hsecond : 8 + n ≤ second.length) (h : first.take (8 + n) = second.take (8 + n)) :
    Header.ofContainer first = Header.ofContainer second := by
  have htake : first.take 8 = second.take 8 := by
    have hprefix := congrArg (List.take 8) h
    rwa [List.take_take, List.take_take, Nat.min_eq_left (Nat.le_add_right _ _)] at hprefix
  have hheader : (first.drop 8).take n = (second.drop 8).take n := by
    rw [List.take_drop, List.take_drop, h]
  simp only [Header.ofContainer, ← htake, hlength, hheader,
    if_neg (show ¬first.length < 8 by omega), if_neg (show ¬second.length < 8 by omega),
    if_neg (show ¬first.length - 8 < n by omega), if_neg (show ¬second.length - 8 < n by omega)]

/-- A header that is cut off, too long or no object shows no family. -/
theorem familyOfHeader_eq_unknown {bytes : Bytes}
    (h : bytes.length < 8 ∨ maxHeaderLength < littleEndian (bytes.take 8) ∨
      bytes.length < 8 + littleEndian (bytes.take 8) ∨
      ∀ fields, document? bytes ≠ some (.object fields)) :
    familyOfHeader (Header.ofContainer bytes) = .unknown := by
  unfold Header.ofContainer
  simp only
  split_ifs with hshort hlarge hcut
  · rfl
  · rfl
  · rfl
  · have hobject : ∀ fields, document? bytes ≠ some (.object fields) :=
      ((h.resolve_left hshort).resolve_left hlarge).resolve_left (by omega)
    cases hdocument : document? bytes with
    | none =>
        have hparse : Header.parse (headerBytes bytes) = .error .malformed := by
          rw [Header.parse]
          rw [document?] at hdocument
          rw [hdocument]
        exact congrArg familyOfHeader hparse
    | some document =>
        have hparse : Header.parse (headerBytes bytes) = .error .notAnObject := by
          rw [Header.parse]
          rw [document?] at hdocument
          rw [hdocument]
          cases document with
          | object fields => exact absurd hdocument (hobject fields)
          | _ => rfl
        exact congrArg familyOfHeader hparse

/-! ## Detecting -/

variable {t t' : FileTree} {p : Path}

/-- The family of a file, in one equation. -/
theorem detect_eq (hexists : t.pathExists p = true) :
    detect t p = ((Sidecar.paths p).findSome? (Sidecar.named? t)).getD
      (if isContainerPath p then familyOfHeader (Header.read t p) else .unknown) := by
  unfold detect
  rw [Sidecar.architectureOfFile?_eq, hexists]
  simp only [Bool.not_true, Bool.false_eq_true, if_false]
  cases (Sidecar.paths p).findSome? (Sidecar.named? t) with
  | some a => rfl
  | none => cases isContainerPath p <;> rfl

/-- **The family depends on the file and on what its sidecars name**, and on
nothing else. -/
theorem detect_congr (hnode : t'.node? p = t.node? p)
    (hnamed : ∀ q ∈ Sidecar.paths p, Sidecar.named? t' q = Sidecar.named? t q) :
    detect t' p = detect t p := by
  have hexists : t'.pathExists p = t.pathExists p := by rw [FileTree.pathExists, hnode]; rfl
  cases hthere : t.pathExists p with
  | false => simp [detect, hexists, hthere]
  | true =>
      have hread : Header.read t' p = Header.read t p := by simp only [Header.read, hnode]
      have hfind : (Sidecar.paths p).findSome? (Sidecar.named? t') =
          (Sidecar.paths p).findSome? (Sidecar.named? t) := by
        rw [← List.head?_filterMap, ← List.head?_filterMap, List.filterMap_congr hnamed]
      rw [detect_eq hthere, detect_eq (hexists.trans hthere), hfind, hread]

theorem detect_of_named {a : Architecture} (hexists : t.pathExists p = true)
    (h : (Sidecar.paths p).findSome? (Sidecar.named? t) = some a) : detect t p = a := by
  rw [detect_eq hexists, h, Option.getD_some]

theorem detect_of_not_named (hexists : t.pathExists p = true)
    (h : ∀ q ∈ Sidecar.paths p, Sidecar.named? t q = none) :
    detect t p = if isContainerPath p then familyOfHeader (Header.read t p) else .unknown := by
  rw [detect_eq hexists, List.findSome?_eq_none_iff.mpr h, Option.getD_none]

/-- **What the family of a file depends on.**

The first sidecar that names a family decides, and what is written into the file
then does not matter, unless the file itself is a sidecar up to the one that
decides.  Without links it is none if its extension is not that of its second
sidecar, or if the first one decides.  A sidecar that is
unreadable, malformed or names no family is as good as absent: the family depends
on the file and on what its sidecars name, and removing such a sidecar changes
nothing.  Otherwise the family of a container depends on its header alone, and is
unknown if that is cut off, too long or no object; and that of any other file is
unknown. -/
theorem detect_priority :
    (∀ (t : FileTree) (p : Path) (a : Architecture), t.pathExists p = true →
      (Sidecar.paths p).findSome? (Sidecar.named? t) = some a →
        detect t p = a ∧ ∀ place contents written, t.locate? p = some place →
          t.nodeAt? place = some (.file contents) →
            (Sidecar.OwnLast t p place ∨ t.LinkFree ∧ (p.extension? = some ("json" : Bytes) →
              ∃ q ∈ (Sidecar.paths p).head?, (Sidecar.named? t q).isSome = true)) →
              detect (t.put place (.file written)) p = a) ∧
    ((∀ (t : FileTree) (q : Path), Sidecar.named? t q = none ↔
        Sidecar.read t q = .error .unreadable ∨ Sidecar.read t q = .error .malformed ∨
          ∃ sidecar, Sidecar.read t q = .ok sidecar ∧ sidecar.architecture? = none) ∧
      (∀ (t t' : FileTree) (p : Path), t'.node? p = t.node? p →
        (∀ q ∈ Sidecar.paths p, Sidecar.named? t' q = Sidecar.named? t q) →
          detect t' p = detect t p) ∧
      ∀ (t : FileTree) (p q : Path) (place : List Bytes) (contents : Bytes),
        t.locate? q = some place → t.nodeAt? place = some (.file contents) →
          Sidecar.named? t q = none → t.locate? p ≠ some place →
            detect (t.remove place) p = detect t p) ∧
    (∀ (t t' : FileTree) (p p' : Path) (first second : Bytes) (n : Nat),
      isContainerPath p = true → isContainerPath p' = true →
      (∀ q ∈ Sidecar.paths p, Sidecar.named? t q = none) →
      (∀ q ∈ Sidecar.paths p', Sidecar.named? t' q = none) →
      t.node? p = some (.file first) → t'.node? p' = some (.file second) →
      littleEndian (first.take 8) = n → 8 + n ≤ first.length → 8 + n ≤ second.length →
      first.take (8 + n) = second.take (8 + n) → detect t p = detect t' p') ∧
    ∀ (t : FileTree) (p : Path), (∀ q ∈ Sidecar.paths p, Sidecar.named? t q = none) →
      (∀ bytes, t.node? p = some (.file bytes) →
        (bytes.length < 8 ∨ maxHeaderLength < littleEndian (bytes.take 8) ∨
          bytes.length < 8 + littleEndian (bytes.take 8) ∨
          ∀ fields, document? bytes ≠ some (.object fields)) → detect t p = .unknown) ∧
      (isContainerPath p = false → detect t p = .unknown) := by
  refine ⟨fun t p a hexists hnamed => ⟨detect_of_named hexists hnamed, ?_⟩,
    ⟨fun t q => Sidecar.named?_eq_none_iff, fun t t' p => detect_congr, ?_⟩, ?_, ?_⟩
  · intro place contents written hp hfile hown
    have hlast : Sidecar.OwnLast t p place :=
      hown.elim id fun h => Sidecar.ownLast_of_linkFree hfile h.1 hp h.2
    refine detect_of_named ?_ ((Sidecar.findSome?_named?_put hfile written hlast).trans hnamed)
    rw [FileTree.pathExists, (FileTree.differsAt_put hfile written).node?_eq, if_pos hp,
      FileTree.nodeAt?_put (FileTree.ne_nil_of_file hfile), if_pos rfl, Option.isSome_some]
  · intro t p q place contents hq hfile hnone hp
    have hdiffers := FileTree.differsAt_remove hfile
    have hremoved : (t.remove place).nodeAt? place = none := by
      rw [FileTree.nodeAt?_remove (FileTree.ne_nil_of_file hfile), if_pos rfl]
    refine detect_congr (hdiffers.node?_of_ne hp) fun r _ => ?_
    by_cases hr : t.locate? r = some place
    · -- whatever leads to the removed place named nothing before
      have hsame : t.node? r = t.node? q := by rw [FileTree.node?, FileTree.node?, hr, hq]
      rw [Sidecar.named?_congr hsame, hnone]
      exact Sidecar.named?_of_no_file (by rw [hdiffers.node?_eq, if_pos hr, hremoved])
    · exact Sidecar.named?_congr (hdiffers.node?_of_ne hr)
  · intro t t' p p' first second n hp hp' hnone hnone' hfirst hsecond hlength hfirstLong hsecondLong
      hsame
    have hexists : t.pathExists p = true := by rw [FileTree.pathExists, hfirst]; rfl
    have hexists' : t'.pathExists p' = true := by rw [FileTree.pathExists, hsecond]; rfl
    rw [detect_of_not_named hexists hnone, detect_of_not_named hexists' hnone', if_pos hp,
      if_pos hp', Header.read, Header.read, hfirst, hsecond]
    exact congrArg familyOfHeader (ofContainer_congr hlength hfirstLong hsecondLong hsame)
  · intro t p hnone
    constructor
    · intro bytes hbytes hbad
      have hexists : t.pathExists p = true := by rw [FileTree.pathExists, hbytes]; rfl
      rw [detect_of_not_named hexists hnone, Header.read, hbytes]
      cases isContainerPath p with
      | false => rfl
      | true => exact familyOfHeader_eq_unknown hbad
    · intro hplain
      cases hexists : t.pathExists p with
      | false => simp [detect, hexists]
      | true => rw [detect_of_not_named hexists hnone, hplain]; rfl

/-- The bytes of a sidecar with a base model. -/
def sidecarBytes (baseModel : String) : Bytes :=
  ("\x7b\"baseModel\":\"" ++ baseModel ++ "\"\x7d").toList.map fun c => UInt8.ofNat c.toNat

/-- A container that is cut off, with a sidecar that names a family. -/
def cutOffTree : FileTree :=
  ⟨[(["a.safetensors"], .file []), (["a.json"], .file (sidecarBytes "Flux.1 D"))], []⟩

/-- The sidecar decides, whatever is written into the container; without it the
family is unknown. -/
theorem detect_priority_cut_off :
    detect cutOffTree "/a.safetensors" = .flux1 ∧
      (∀ written, detect (cutOffTree.put ["a.safetensors"] (.file written)) "/a.safetensors" =
        .flux1) ∧
      detect (cutOffTree.remove ["a.json"]) "/a.safetensors" = .unknown := by
  have hfirst := detect_priority.1 cutOffTree "/a.safetensors" .flux1 (by decide)
    (by decide +kernel)
  have hlinks : cutOffTree.LinkFree := by decide
  refine ⟨hfirst.1, fun written => hfirst.2 ["a.safetensors"] [] written (by decide) (by decide)
    (Or.inr ⟨hlinks, fun hjson => absurd hjson (by decide)⟩), ?_⟩
  exact (detect_priority.2.2.2 (cutOffTree.remove ["a.json"]) "/a.safetensors"
    (by decide +kernel)).1 [] (by decide) (Or.inl (by decide))

/-- A file of sidecars' extension is its own second sidecar: what is written into
it is what names its family. -/
theorem detect_own_sidecar :
    ¬ ∀ (t : FileTree) (p : Path) (a : Architecture) (place : List Bytes)
        (contents written : Bytes), t.pathExists p = true →
      (Sidecar.paths p).findSome? (Sidecar.named? t) = some a → t.locate? p = some place →
        t.nodeAt? place = some (.file contents) →
          detect (t.put place (.file written)) p = a := by
  intro h
  have hchanged := h ⟨[(["ink.json"], .file (sidecarBytes "Flux.1 D"))], []⟩ "/ink.json" .flux1
    ["ink.json"] (sidecarBytes "Flux.1 D") (sidecarBytes "Pony") (by decide) (by decide +kernel)
    (by decide) (by decide)
  exact absurd hchanged (by decide +kernel)

end LoraSchedule
