import LoraSchedule.Proofs.Files.Path
import LoraSchedule.Proofs.Resolution.Lines
import LoraSchedule.Proofs.Schedule.Head

/-!
# The text and the plan of a resolution

A resolution builds a hook and writes a line for each entry that it applies.  A
line that fits (`Entry.FitsLine`) is read as one entry, which `Recalls` the hook:
it has the stem of its name and its strengths rounded to four decimals
(`resolve_lines_recall`).  Rounding may leave no strength; then the hook is
applied, but the entry is silent.

The line format has no way to write a colon in a name, nor a line feed, so lines
with these need not be read as what was written
(`resolve_lines_not_recalled`).
-/

namespace LoraSchedule

open LoraSchedule.Number (Binary Double)
open LoraSchedule.Text

/-- An entry says of a hook what its line can say. -/
structure Entry.Recalls (e : Entry) (hook : Hook) : Prop where
  name : e.name = displayName hook.name
  modelStrength : e.modelStrength = Line.quantize hook.modelStrength
  clipStrength : e.clipStrength = Line.quantize hook.clipStrength
  silent : e.isSilent = true ↔ ShowsZero hook.modelStrength ∧ ShowsZero hook.clipStrength

/-! ## Single lines -/

theorem mem_of_mem_displayName {c : Char} {name : String} (h : c ∈ (displayName name).toList) :
    c ∈ name.toList := by
  unfold displayName at h
  split at h
  · rename_i stem hstem
    rw [String.toList_ofList] at h
    have hmem : c ∈ Utf8.decode (Utf8.encode name.toList) := Path.mem_of_mem_fileStem? hstem h
    rwa [Utf8.decode_encode] at hmem
  · exact h

namespace Applied.Writes

variable {a : Applied} {e : Entry}

theorem fitsLine (h : a.Writes e) (he : e.FitsLine) : a.shown.FitsLine where
  colon := by
    rw [h.shownName]
    exact fun hmem => he.colon (mem_of_mem_displayName hmem)
  name := by
    rw [h.shownName]
    exact fun hmem => he.name (mem_of_mem_displayName hmem)
  extra := h.shownExtra ▸ he.extra

/-- **A line that fits recalls its hook.** -/
theorem exists_recalls (h : a.Writes e) (hfinite : e.FiniteStrengths) (hfits : a.shown.FitsLine) :
    ∃ e', Schedule.ofLines a.shown.renderChars = [e'] ∧ e'.Recalls a.hook := by
  have hmodel : a.hook.modelStrength.isFinite = true := h.modelStrength ▸ hfinite.1
  have hclip : a.hook.clipStrength.isFinite = true := h.clipStrength ▸ hfinite.2
  obtain ⟨e', hread, hname, hmodelRead, hclipRead⟩ := Schedule.ofLines_renderChars hfits
  rw [h.shownModel, ← h.modelStrength] at hmodelRead
  rw [h.shownClip, ← h.clipStrength] at hclipRead
  refine ⟨e', hread, ⟨?_, hmodelRead hmodel, hclipRead hclip, ?_⟩⟩
  · rw [hname, h.shownName, h.name]
    rfl
  · rw [Entry.isSilent, Bool.and_eq_true, hmodelRead hmodel, hclipRead hclip,
      isNegligible_quantize_iff hmodel, isNegligible_quantize_iff hclip]

end Applied.Writes

/-! ## All lines -/

theorem finiteStrengths_of_mem_candidates {entries : List Entry} {text : Option String}
    {prior : Option Plan} {e : Entry} (hentries : ∀ e ∈ entries, e.FiniteStrengths)
    (he : e ∈ candidates entries text prior) : e.FiniteStrengths := by
  unfold candidates at he
  split at he
  · exact hentries e (List.mem_filter.mp he).1
  · split at he
    · exact finiteStrengths_of_mem_parse (List.mem_filter.mp he).1
    · cases he

theorem fitsLine_of_mem_candidates {entries : List Entry} {text : Option String}
    {prior : Option Plan} {e : Entry} (hentries : entries.any Entry.enabled = false)
    (htext : ∀ given ∈ text, Schedule.jsonItems? given.toList = none)
    (he : e ∈ candidates entries text prior) : e.FitsLine := by
  unfold candidates at he
  rw [hentries] at he
  simp only [Bool.false_eq_true, if_false] at he
  split at he
  · rename_i given hgiven
    rw [nonBlank?, Option.filter_eq_some_iff] at hgiven
    exact fitsLine_of_mem_parse (htext given hgiven.1) (List.mem_filter.mp he).1
  · cases he

namespace Source

variable {σ : Type} (source : Source σ)

/-- Every entry that was applied comes from a candidate whose name is found. -/
theorem exists_of_mem_applyAll {entries : List Entry} {s : σ} {a : Applied}
    (ha : a ∈ (source.applyAll entries s).1) :
    ∃ e ∈ entries, a.Writes e ∧ ∃ p, source.resolve? a.hook.name = some p := by
  obtain ⟨e, he, hwrites⟩ := exists_of_mem_left (source.applyAll_writes entries s) ha
  obtain ⟨hmem, happlies⟩ := List.mem_filter.mp he
  rw [applies, Bool.and_eq_true] at happlies
  obtain ⟨⟨p, tensors⟩, hfile⟩ := Option.isSome_iff_exists.mp happlies.1
  exact ⟨e, hmem, hwrites, p, hwrites.name ▸ (source.fileOf?_eq_some_iff.mp hfile).1⟩

/-- **The lines of a resolution recall its hooks.**  What was applied gives the
new hooks and the lines in the same order, and each line is read by itself.  A
line that fits is read as one entry that recalls its hook; so if all lines fit,
there is exactly one such entry for each new hook, in the order of the hooks.
The lines of entries that come from a text without a document do fit. -/
theorem resolve_lines_recall (entries : List Entry) (text : Option String) (prior : Option Plan)
    (s : σ) (hentries : ∀ e ∈ entries, e.FiniteStrengths) :
    let built := (source.applyAll (candidates entries text prior) s).1
    let result := (source.resolve entries text prior s).1
    let reread := Schedule.parse (Entry.renderAll (built.map Applied.shown))
    result.plan.hooks = (prior.map Plan.hooks).getD [] ++ built.map Applied.hook ∧
      result.text = String.ofList (joinWith ['\n'] ((kept? text prior).toList.map String.toList ++
        built.map fun a => a.shown.renderChars)) ∧
      (reread = built.flatMap fun a => Schedule.ofLines a.shown.renderChars) ∧
      (∀ a ∈ built, a.shown.FitsLine →
        ∃ e, Schedule.ofLines a.shown.renderChars = [e] ∧ e.Recalls a.hook) ∧
      ((∀ a ∈ built, a.shown.FitsLine) →
        List.Forall₂ Entry.Recalls reread (built.map Applied.hook)) ∧
      (entries.any Entry.enabled = false →
        (∀ given ∈ text, Schedule.jsonItems? given.toList = none) →
          ∀ a ∈ built, a.shown.FitsLine) := by
  intro built result reread
  have hreread : reread = built.flatMap fun a => Schedule.ofLines a.shown.renderChars := by
    show Schedule.parse _ = _
    rw [Schedule.parse_renderAll_eq_flatMap, List.flatMap_map]
  have hrecalls : ∀ a ∈ built, a.shown.FitsLine →
      ∃ e, Schedule.ofLines a.shown.renderChars = [e] ∧ e.Recalls a.hook := by
    intro a ha hfits
    obtain ⟨e, he, hwrites, -⟩ := source.exists_of_mem_applyAll ha
    exact hwrites.exists_recalls (finiteStrengths_of_mem_candidates hentries he) hfits
  refine ⟨?_, ?_, hreread, hrecalls, ?_, ?_⟩
  · simp only [result, built, resolve_eq, Plan.compose]
  · simp only [result, built, resolve_eq]
  · intro hfits
    rw [hreread]
    exact forall₂_flatMap_map fun a ha => hrecalls a ha (hfits a ha)
  · intro hlisted htext a ha
    obtain ⟨e, he, hwrites, -⟩ := source.exists_of_mem_applyAll ha
    exact hwrites.fitsLine (fitsLine_of_mem_candidates hlisted htext he)

/-- An entry of a folder, after a text and a plan that are kept. -/
theorem resolve_lines_recall_kept_text :
    let source : Source Unit := {
      resolve? := fun name => if name = "art/ink.pt" then some ⟨"art/ink.pt"⟩ else none
      load? := fun _ => some (Dict.ofList [("alpha", ⟨[], [Binary.zero false]⟩)])
      words := fun _ => []
      architecture := fun _ => pure .sdxl
      statistics? := fun _ _ => pure none }
    let entries := [Entry.ofName "art/ink.pt", Entry.ofName "pen"]
    let built := (source.applyAll (candidates entries (some "kept") (some ⟨[]⟩)) ()).1
    built.map (fun a => a.shown.name) = ["ink"] ∧
      List.Forall₂ Entry.Recalls
        (Schedule.parse (Entry.renderAll (built.map Applied.shown))) (built.map Applied.hook) := by
  intro source entries built
  have hentries : ∀ e ∈ entries, e.FiniteStrengths := by
    have hfinite : ∀ e ∈ entries,
        e.modelStrength.isFinite = true ∧ e.clipStrength.isFinite = true := by
      decide +kernel
    exact hfinite
  have hfits : ∀ a ∈ (source.applyAll (candidates entries (some "kept") (some ⟨[]⟩)) ()).1,
      a.shown.FitsLine := by
    decide +kernel
  obtain ⟨-, -, -, -, hrecall, -⟩ :=
    source.resolve_lines_recall entries (some "kept") (some ⟨[]⟩) () hentries
  exact ⟨by decide +kernel, hrecall hfits⟩

/-- What a line cannot say: a name with a colon or a line feed, and a strength
that has an effect but no decimals. -/
theorem resolve_lines_not_recalled :
    let source : Source Unit := {
      resolve? := fun _ => some ⟨"ink.safetensors"⟩
      load? := fun _ => some (Dict.ofList [("alpha", ⟨[], [Binary.zero false]⟩)])
      words := fun _ => []
      architecture := fun _ => pure .sdxl
      statistics? := fun _ _ => pure none }
    let built := fun e => (source.applyAll (candidates [e] none none) ()).1
    let faint : Double := Binary.ofDecimal ⟨false, 1, -5⟩
    ∀ e ∈ [Entry.ofName "a:b", Entry.ofName "a\nb",
        { Entry.ofName "ink" with modelStrength := faint, clipStrength := faint }],
      e.FiniteStrengths ∧ ¬List.Forall₂ (fun e' hook => e'.name = displayName hook.name ∧
        e'.modelStrength = Line.quantize hook.modelStrength ∧
        e'.clipStrength = Line.quantize hook.clipStrength ∧ e'.isSilent = false)
          (Schedule.parse (Entry.renderAll ((built e).map Applied.shown)))
          ((built e).map Applied.hook) := by
  intro source built faint e he
  have hfinite : ∀ e ∈ [Entry.ofName "a:b", Entry.ofName "a\nb",
        { Entry.ofName "ink" with modelStrength := faint, clipStrength := faint }],
      e.modelStrength.isFinite = true ∧ e.clipStrength.isFinite = true := by decide +kernel
  -- a name with a separator is not read, and a faint strength is rounded away
  have hcase : ∀ e ∈ [Entry.ofName "a:b", Entry.ofName "a\nb",
        { Entry.ofName "ink" with modelStrength := faint, clipStrength := faint }],
      ∃ hook ∈ (built e).map Applied.hook, ':' ∈ (displayName hook.name).toList ∨
        '\n' ∈ (displayName hook.name).toList ∨
        Entry.isNegligible (Line.quantize hook.modelStrength) = true ∧
          Entry.isNegligible (Line.quantize hook.clipStrength) = true := by
    decide +kernel
  refine ⟨hfinite e he, ?_⟩
  intro hall
  obtain ⟨hook, hhook, hlost⟩ := hcase e he
  obtain ⟨e', he', hname, hmodel, hclip, hsilent⟩ := exists_of_mem_right hall hhook
  have hfits := fitsLine_of_mem_parse (Schedule.jsonItems?_renderAll _) he'
  rw [← hname, ← hmodel, ← hclip] at hlost
  rcases hlost with hcolon | hlineFeed | hfaint
  · exact hfits.colon hcolon
  · exact hfits.name hlineFeed
  · rw [Entry.isSilent, hfaint.1, hfaint.2] at hsilent
    cases hsilent

end Source

end LoraSchedule
