import LoraSchedule.Proofs.Engine.History
import LoraSchedule.Proofs.Files.Search
import LoraSchedule.Proofs.Resolution.Agreement

/-!
# Finding files by the names in lines

A resolution writes an entry under the stem of its name, so the line can be read
again only if the stem finds a file.  A search takes the stem of what it looks
for as well, which gives a plain stem itself but shortens any other
(`SearchPath.IsPlainStem`).  So a plain stem finds each file of a known kind
below a root that has it, and the names that are written find files again
(`found_by_stem`).

What can be found only directly is lost with its extension
(`not_found_by_stem`).  This goes for links too: only a direct path leads
through them, so that a file that is found through one may not be found again
unless it has itself the name that was looked for.
-/

namespace LoraSchedule

open LoraSchedule.Path (slash point)
open LoraSchedule.SearchPath (folded)
open LoraSchedule.Text

theorem toList_displayName {query : String} {name : Bytes}
    (h : (query : Path).fileName? = some name) :
    (displayName query).toList = Utf8.decode (splitName point name).1 := by
  have hstem : (query : Path).fileStem? = some (splitName point name).1 := by
    rw [Path.fileStem?, h, Option.map_some]
  rw [displayName, hstem, String.toList_ofList]

/-! ## Trees with one file -/

/-- A root directory with one file. -/
def sampleTreeOf (name : Bytes) : FileTree := ⟨[([name], .file Engine.sampleBytes)], []⟩

/-- A file, and in another directory a link to it under another name. -/
def linkedTree : FileTree :=
  ⟨[(["loras"], .directory), (["loras", "ink.safetensors"], .link "../store/ink-v1.bin"),
    (["store"], .directory), (["store", "ink-v1.bin"], .file Engine.sampleBytes)], []⟩

/-- An engine with one search root and one known extension. -/
def sampleEngineOf (root ending : String) : Engine := .ofConfig ⟨[root], [ending], .default⟩

/-- What comes of an entry with the name of a file. -/
def sampleBuilt (t : FileTree) (root ending name : String) : List Applied :=
  (((sampleEngineOf root ending).source t).applyAll
    (candidates [Entry.ofName name] none none) .empty).1

theorem below_sampleTreeOf (file : Bytes) (ending : String) :
    (sampleEngineOf "/" ending).search.Below (sampleTreeOf file) [] :=
  ⟨"/", List.mem_singleton_self _, [], rfl, List.prefix_refl _⟩

/-! ## Names that are found again -/

/-- **A file is found by its stem, and so are the names that a resolution
writes.**

A plain stem of a file of a known kind below a root finds a file with this stem,
ignoring case.  An applied entry has a file, to which a path leads that continues
a root without leaving it and has the stem that is written, ignoring case,
unless a sigma interferes.  If the file itself is below a root and of a known
kind and has this stem, which is plain, the name that is written finds a file
with this stem again.  Links apart, the file has the name of its path, and is
below a root unless a root is empty.  A line that fits is read as an entry of
the name that is written. -/
theorem found_by_stem {t : FileTree} (ht : t.WellFormed) :
    (∀ (s : SearchPath) (place : List Bytes) (name contents : Bytes),
      s.Below t place → t.nodeAt? (place ++ [name]) = some (.file contents) →
        s.accepts name = true → SearchPath.IsPlainStem (Utf8.decode (splitName point name).1) →
          s.FindsStem t (Utf8.decode (splitName point name).1)) ∧
    ∀ (engine : Engine) (entries : List Entry) (text : Option String) (prior : Option Plan)
      (cache : Cache),
      let built := ((engine.source t).applyAll (candidates entries text prior) cache).1
      ∀ a ∈ built,
        (∃ p last place name contents, engine.resolvePath? t a.hook.name = some p ∧
          engine.search.Continues p ∧ p.fileName? = some last ∧
          t.locate? p = some (place ++ [name]) ∧
          t.nodeAt? (place ++ [name]) = some (.file contents) ∧
          ('Σ' ∉ Utf8.decode last → 'Σ' ∉ a.hook.name.toList →
            folded (splitName point last).1 = lowercase a.shown.name.toList) ∧
          (engine.search.Below t place → engine.search.accepts name = true →
            folded (splitName point name).1 = lowercase a.shown.name.toList →
              SearchPath.IsPlainStem a.shown.name.toList →
                engine.search.FindsStem t a.shown.name.toList) ∧
          (t.LinkFree → name = last ∧
            ((∀ root ∈ engine.search.roots, root.bytes ≠ []) → engine.search.Below t place))) ∧
        (a.shown.FitsLine → ∃ e ∈ Schedule.parse (Entry.renderAll (built.map Applied.shown)),
          e.name = a.shown.name) := by
  constructor
  · intro s place name contents hbelow hfile haccepts hplain
    have hsome : (t.nodeAt? (place ++ [name])).isSome := by simp [hfile]
    have hname : IsName name := ht.isName_of_mem hsome (by simp)
    exact SearchPath.findsStem_of_file ht hbelow hfile haccepts
      (SearchPath.isName_encode_stem hname hplain) hplain rfl
  · intro engine entries text prior cache built a ha
    obtain ⟨e, -, hwrites, p, hp⟩ := (engine.source t).exists_of_mem_applyAll ha
    have hshown : a.shown.name = displayName a.hook.name := by
      rw [hwrites.shownName, hwrites.name]
      rfl
    constructor
    · obtain ⟨target, contents, last, sought, hlocate, hnode, hlast, hsought, hsame, hfree⟩ :=
        SearchPath.exists_of_resolve? ht hp
      -- the root is no file, so what is found has a name
      obtain rfl | ⟨place, name, rfl⟩ := target.eq_nil_or_concat'
      · simp [FileTree.nodeAt?] at hnode
      have hstem : a.shown.name.toList = Utf8.decode (splitName point sought).1 := by
        rw [hshown, toList_displayName hsought]
      refine ⟨p, last, place, name, contents, hp, SearchPath.continues_of_resolve? ht hp, hlast,
        hlocate, hnode, ?_, ?_, ?_⟩
      · intro hsigma hquery
        rw [hstem]
        refine hsame hsigma fun hmem => hquery ?_
        rw [← Utf8.decode_encode a.hook.name.toList]
        exact Path.mem_of_mem_fileName? hsought hmem
      · -- the file that was found is a candidate for the stem that is written
        intro hbelow haccepts hagrees hplain
        refine SearchPath.findsStem_of_file ht hbelow hnode haccepts ?_ hplain hagrees
        rw [hstem] at hplain ⊢
        exact SearchPath.isName_encode_stem (Path.isName_of_fileName? hsought).1 hplain
      · intro hlinks
        obtain ⟨folder, htarget, hbelow⟩ := hfree hlinks
        obtain ⟨rfl, hname⟩ := List.append_inj' htarget rfl
        exact ⟨List.singleton_inj.mp hname, hbelow⟩
    · intro hfits
      obtain ⟨e', hread, hname, -⟩ := Schedule.ofLines_renderChars hfits
      refine ⟨e', ?_, hname⟩
      rw [Schedule.parse_renderAll_eq_flatMap, List.flatMap_map]
      exact List.mem_flatMap.mpr ⟨a, ha, by simp [hread]⟩

/-- A file whose name is given in capitals. -/
theorem found_by_stem_capitals :
    let t := sampleTreeOf "Ink.safetensors"
    let s := (sampleEngineOf "/" "safetensors").search
    let built := sampleBuilt t "/" "safetensors" "INK.SAFETENSORS"
    t.WellFormed ∧ s.FindsStem t "Ink".toList ∧ (built.map fun a => a.shown.name) = ["INK"] ∧
      ∀ a ∈ built, s.FindsStem t a.shown.name.toList ∧
        ∃ e ∈ Schedule.parse (Entry.renderAll (built.map Applied.shown)),
          e.name = a.shown.name := by
  intro t s built
  have ht : t.WellFormed := by decide +kernel
  have hbelow : s.Below t [] := below_sampleTreeOf _ _
  have haccepts : s.accepts "Ink.safetensors" = true := by decide +kernel
  have hstem : Utf8.decode (splitName point "Ink.safetensors").1 = "Ink".toList := by
    decide +kernel
  have hbuilt : built.map (fun a => (a.hook.name, a.shown.name, decide a.shown.FitsLine)) =
      [("INK.SAFETENSORS", "INK", true)] := by
    decide +kernel
  obtain ⟨a, ha, hname⟩ := List.map_eq_singleton_iff.mp hbuilt
  simp only [Prod.mk.injEq, decide_eq_true_eq] at hname
  obtain ⟨hhook, hshown, hfits⟩ := hname
  have hfile : ((sampleEngineOf "/" "safetensors").resolvePath? t "INK.SAFETENSORS").bind
      t.locate? = some ([] ++ [("Ink.safetensors" : Bytes)]) := by
    decide +kernel
  have hsame : folded (splitName point "Ink.safetensors").1 = lowercase "INK".toList := by
    decide +kernel
  refine ⟨ht, ?_, by simp [ha, hshown], ?_⟩
  · have hplain : SearchPath.IsPlainStem (Utf8.decode (splitName point "Ink.safetensors").1) := by
      rw [hstem]
      exact ⟨by decide, by decide⟩
    exact hstem ▸ (found_by_stem ht).1 s [] "Ink.safetensors" _ hbelow rfl haccepts hplain
  · intro b hb
    obtain ⟨⟨p, last, place, name, contents, hp, -, -, hlocate, -, -, hfinds, -⟩, hread⟩ :=
      (found_by_stem ht).2 (sampleEngineOf "/" "safetensors") _ none none .empty b hb
    obtain rfl : b = a := by simpa [ha] using hb
    rw [hhook] at hp
    rw [hp, Option.bind_some, hlocate] at hfile
    obtain ⟨rfl, hlast⟩ := List.append_inj' (Option.some.inj hfile) rfl
    obtain rfl : name = ("Ink.safetensors" : Bytes) := List.singleton_inj.mp hlast
    rw [hshown] at hfinds ⊢
    refine ⟨hfinds hbelow haccepts hsame ⟨by decide, by decide⟩, ?_⟩
    rw [← hshown]
    exact hread hfits

/-- **Names that do not find their file again.**  A stem with a point loses what
follows it.  A file may be found directly though its extension is not known,
though its root is empty, and nothing is searched there, or through a link,
which is not followed where files are searched.  A sigma at the end of a stem is
not lower-cased as it is before an extension.  And a line does not hold a
colon. -/
theorem not_found_by_stem :
    (¬ ∀ (t : FileTree) (s : SearchPath) (place : List Bytes) (name contents : Bytes),
      t.WellFormed → s.Below t place → t.nodeAt? (place ++ [name]) = some (.file contents) →
        s.accepts name = true → s.FindsStem t (Utf8.decode (splitName point name).1)) ∧
    (∀ case ∈ [(sampleTreeOf "a.v2.safetensors", "/", "safetensors", "a.v2.safetensors"),
        (sampleTreeOf "ink.safetensors", "/", "pt", "ink.safetensors"),
        (sampleTreeOf "ink.safetensors", "", "safetensors", "ink.safetensors"),
        (linkedTree, "/loras", "safetensors", "ink.safetensors"),
        (sampleTreeOf "ασ.safetensors", "/", "safetensors", "ΑΣ.safetensors")],
      case.1.WellFormed ∧ ∃ a ∈ sampleBuilt case.1 case.2.1 case.2.2.1 case.2.2.2,
        ¬ (sampleEngineOf case.2.1 case.2.2.1).search.FindsStem case.1 a.shown.name.toList) ∧
    ∃ a ∈ sampleBuilt (sampleTreeOf "a:b.safetensors") "/" "safetensors" "a:b",
      ∀ e ∈ Schedule.parse (Entry.renderAll [a.shown]), e.name ≠ a.shown.name := by
  refine ⟨?_, ?_, ?_⟩
  · intro hall
    obtain ⟨p, hp, -⟩ := hall (sampleTreeOf "a.v2.safetensors")
      (sampleEngineOf "/" "safetensors").search [] "a.v2.safetensors" _
      (by decide +kernel)
      (below_sampleTreeOf _ _) rfl (by decide +kernel)
    have hnone : (sampleEngineOf "/" "safetensors").search.resolve?
        (sampleTreeOf "a.v2.safetensors")
          (String.ofList (Utf8.decode (splitName point "a.v2.safetensors").1)) = none := by
      decide +kernel
    rw [hnone] at hp
    cases hp
  · intro case hcase
    obtain ⟨ht, hnone⟩ : case.1.WellFormed ∧
        (sampleBuilt case.1 case.2.1 case.2.2.1 case.2.2.2).map (fun a =>
          (sampleEngineOf case.2.1 case.2.2.1).resolvePath? case.1 a.shown.name) = [none] := by
      revert case
      decide +kernel
    obtain ⟨a, ha, hlost⟩ := List.map_eq_singleton_iff.mp hnone
    refine ⟨ht, a, by simp [ha], ?_⟩
    rintro ⟨p, hp, -⟩
    rw [String.ofList_toList] at hp
    exact Option.some_ne_none p (hp.symm.trans hlost)
  · have hname : (sampleBuilt (sampleTreeOf "a:b.safetensors") "/" "safetensors" "a:b").map
        (fun a => a.shown.name) = ["a:b"] := by
      decide +kernel
    obtain ⟨a, ha, hshown⟩ := List.map_eq_singleton_iff.mp hname
    refine ⟨a, ha ▸ List.mem_singleton_self a, ?_⟩
    intro e he heq
    have hfits := fitsLine_of_mem_parse (Schedule.jsonItems?_renderAll _) he
    exact hfits.colon (by rw [heq, hshown]; decide)

end LoraSchedule
