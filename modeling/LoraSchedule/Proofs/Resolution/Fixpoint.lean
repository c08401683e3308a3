import LoraSchedule.Proofs.Curve
import LoraSchedule.Proofs.Files.Path
import LoraSchedule.Proofs.Resolution.Lines
import LoraSchedule.Proofs.Schedule.Reparse

/-!
# Resolving a resolved text

The text of a resolution is a schedule again.  What the line of a `Lasting`
entry is read as is applied again (`applies_again`) and written as it stands
(`written_again`): its name is a stem already, its curve is padded and in order,
and rounding leaves it a strength.  So the second resolution gives the text of
the first, and the same hooks up to rounding (`resolve_fixpoint`).
-/

namespace LoraSchedule

open LoraSchedule.Number (Binary Double)
open LoraSchedule.Text

/-! ## Entries that are written as they stand -/

/-- A name without folders and points is shown as it is. -/
theorem displayName_of_not_mem {name : String} (hslash : '/' ∉ name.toList)
    (hpoint : '.' ∉ name.toList) : displayName name = name := by
  unfold displayName
  by_cases hempty : name = ""
  · subst hempty
    rfl
  · have hpoint' : Path.point ∉ Utf8.encode name.toList := mt Path.point_mem_encode.mp hpoint
    have hname : IsName (Utf8.encode name.toList) := by
      refine ⟨?_, mt Path.slash_mem_encode.mp hslash, ?_, ?_⟩
      · exact fun hnil => hempty (String.toList_injective (Utf8.encode_injective hnil))
      all_goals exact fun heq => hpoint' (by simp [heq])
    have hstem : (name : Path).fileStem? = some (Utf8.encode name.toList) := by
      rw [Path.fileStem?, Path.ofString, Path.fileName?_ofName hname, Option.map_some,
        splitName_of_not_mem hpoint']
    simp only [hstem, Utf8.decode_encode, String.ofList_toList]

/-- An entry with a line of its own from which nothing is lost but decimals. -/
structure Entry.Lasting (e : Entry) : Prop extends Entry.Settled e where
  lineFeed : e.Avoids '\n'
  stem : displayName e.name = e.name
  shown : ¬(ShowsZero e.modelStrength ∧ ShowsZero e.clipStrength)

namespace Entry

variable {e : Entry}

theorem Settled.isCurve_written (he : e.Settled) : IsCurve e.written.points := by
  have hcurve : IsCurve (sortPoints e.points) := isCurve_sortPoints he.points_ne_nil he.points
  exact (padPoints_spec hcurve).1

namespace Lasting

theorem settled_written (he : e.Lasting) : e.written.Settled where
  modelStrength := he.modelStrength
  clipStrength := he.clipStrength
  points := he.isCurve_written.finite
  vectors := he.vectors
  trimmed := he.trimmed
  name := by
    show ':' ∉ (displayName e.name).toList
    rw [he.stem]
    exact he.name
  key := he.key
  preset := he.preset
  points_ne_nil := he.isCurve_written.ne_nil
  sorted := he.isCurve_written.sortPoints_eq

theorem avoids_written (he : e.Lasting) : e.written.Avoids '\n' where
  name := by
    show '\n' ∉ (displayName e.name).toList
    rw [he.stem]
    exact he.lineFeed.name
  key := he.lineFeed.key
  preset := he.lineFeed.preset

/-- **What its line is read as is written as it stands.** -/
theorem written_again (he : e.Lasting) : e.written.rounded.written = e.written.rounded := by
  have hname : displayName e.written.rounded.name = e.written.rounded.name := by
    show displayName (displayName e.name) = displayName e.name
    rw [he.stem, he.stem]
  have hcurve : IsCurve (sortPoints e.points) := isCurve_sortPoints he.points_ne_nil he.points
  have hpoints : padPoints (sortPoints e.written.rounded.points) = e.written.rounded.points := by
    show padPoints (sortPoints (e.written.points.map KeyPoint.rounded)) = _
    rw [he.isCurve_written.map_rounded.sortPoints_eq]
    exact padPoints_map_rounded hcurve
  show { e.written.rounded with
    name := displayName e.written.rounded.name
    points := padPoints (sortPoints e.written.rounded.points) } = e.written.rounded
  rw [hname, hpoints]

theorem isSilent_again (he : e.Lasting) : e.written.rounded.isSilent = false := by
  rw [← Bool.not_eq_true, isSilent, Bool.and_eq_true]
  show ¬(isNegligible (Line.quantize e.modelStrength) = true ∧
    isNegligible (Line.quantize e.clipStrength) = true)
  rw [isNegligible_quantize_iff he.modelStrength, isNegligible_quantize_iff he.clipStrength]
  exact he.shown

end Lasting

end Entry

/-! ## Candidates of a text -/

theorem mem_parse_of_mem_candidates {text : String} {e : Entry}
    (h : e ∈ candidates [] (some text) none) : e ∈ Schedule.parse text := by
  simp only [candidates, List.any_nil, Bool.false_eq_true, if_false] at h
  cases htext : nonBlank? (some text) with
  | none => simp [htext] at h
  | some kept =>
      obtain ⟨rfl, -⟩ : text = kept ∧ _ := by
        simpa [nonBlank?, Option.filter_eq_some_iff] using htext
      rw [htext] at h
      exact List.mem_of_mem_filter h

/-- An entry read from a text without ramps is lasting if its name is a stem and
rounding leaves it a strength. -/
theorem lasting_of_mem_candidates {text : String} {e : Entry}
    (htext : Schedule.jsonItems? text.toList = none)
    (hmodern : ∀ line ∈ lines text.toList, ∀ encoding ∈ Line.encoding? line, encoding = .modern)
    (he : e ∈ candidates [] (some text) none) (hslash : '/' ∉ e.name.toList)
    (hpoint : '.' ∉ e.name.toList)
    (hshown : ¬(ShowsZero e.modelStrength ∧ ShowsZero e.clipStrength)) : e.Lasting := by
  obtain ⟨hsettled, hlineFeed⟩ :=
    Schedule.settled_of_mem_parse htext hmodern (mem_parse_of_mem_candidates he)
  exact { hsettled with
    lineFeed := hlineFeed
    stem := displayName_of_not_mem hslash hpoint
    shown := hshown }

/-- The candidates of a text of settled entries are the entries rounded. -/
theorem candidates_renderAll {entries : List Entry}
    (hentries : ∀ e ∈ entries, e.Settled ∧ e.Avoids '\n') :
    candidates [] (some (Entry.renderAll entries)) none = entries.map Entry.rounded := by
  cases hcases : entries with
  | nil => decide
  | cons e rest =>
      have hmem : '<' ∈ (Entry.renderAll (e :: rest)).toList := by
        obtain ⟨line, hline⟩ := e.exists_renderChars_eq
        rw [Entry.renderAll, String.toList_ofList]
        cases rest <;> simp [hline, joinWith_cons_cons]
      have hnonBlank : nonBlank? (some (Entry.renderAll (e :: rest))) =
          some (Entry.renderAll (e :: rest)) := by
        rw [nonBlank?, Option.filter_some, if_pos]
        exact decide_eq_true (trim_ne_nil hmem (by decide))
      have henabled : ((e :: rest).map Entry.rounded).filter Entry.enabled =
          (e :: rest).map Entry.rounded := by
        rw [List.filter_eq_self]
        intro other hother
        obtain ⟨_, -, rfl⟩ := List.mem_map.mp hother
        rfl
      rw [← hcases] at *
      simp only [candidates, List.any_nil, Bool.false_eq_true, if_false, hnonBlank,
        Schedule.parse_renderAll hentries, henabled]

/-! ## Resolving twice -/

namespace Source

variable {σ : Type} (source : Source σ)

section Again

variable {entries : List Entry}

/-- What the line of an applied entry is read as is applied again. -/
theorem applies_again {e : Entry} (he : e.Lasting) (happlies : source.applies e = true) :
    source.applies e.written.rounded = true := by
  have hfile : source.fileOf? e.written.rounded = source.fileOf? e := by
    show (source.resolve? (displayName e.name)).bind _ = _
    rw [he.stem]
    rfl
  rw [applies, Bool.and_eq_true] at happlies ⊢
  rw [hfile, he.isSilent_again]
  exact ⟨happlies.1, rfl⟩

/-- The text of lasting entries that apply has these entries for candidates, and
they apply. -/
theorem filter_applies_again
    (hentries : ∀ e ∈ entries, e.Lasting ∧ source.applies e = true) :
    (candidates [] (some (Entry.renderAll (entries.map Entry.written))) none).filter
        source.applies = entries.map fun e => e.written.rounded := by
  have hwritten : ∀ shown ∈ entries.map Entry.written, shown.Settled ∧ shown.Avoids '\n' := by
    intro shown hshown
    obtain ⟨e, he, rfl⟩ := List.mem_map.mp hshown
    exact ⟨(hentries e he).1.settled_written, (hentries e he).1.avoids_written⟩
  rw [candidates_renderAll hwritten, List.map_map]
  refine List.filter_eq_self.mpr ?_
  intro again hagain
  obtain ⟨e, he, rfl⟩ := List.mem_map.mp hagain
  exact source.applies_again (hentries e he).1 (hentries e he).2

theorem renderAll_again (hentries : ∀ e ∈ entries, e.Lasting) :
    Entry.renderAll ((entries.map fun e => e.written.rounded).map Entry.written) =
      Entry.renderAll (entries.map Entry.written) := by
  have hwritten : ∀ shown ∈ entries.map Entry.written, shown.Settled := by
    intro shown hshown
    obtain ⟨e, he, rfl⟩ := List.mem_map.mp hshown
    exact (hentries e he).settled_written
  calc Entry.renderAll ((entries.map fun e => e.written.rounded).map Entry.written)
      = Entry.renderAll ((entries.map Entry.written).map Entry.rounded) := by
        rw [List.map_map, List.map_map]
        exact congrArg _ (List.map_congr_left fun e he => (hentries e he).written_again)
    _ = Entry.renderAll (entries.map Entry.written) := Schedule.renderAll_map_rounded hwritten

end Again

/-- What resolving a text alone gives, by the entries that are applied. -/
theorem resolve_text (text : String) (s : σ) :
    ∃ results, List.Forall₂ Applied.Writes results
        ((candidates [] (some text) none).filter source.applies) ∧
      (source.resolve [] (some text) none s).1.plan.hooks = results.map Applied.hook ∧
      (source.resolve [] (some text) none s).1.text = Entry.renderAll
        (((candidates [] (some text) none).filter source.applies).map Entry.written) := by
  obtain ⟨results, hwrites, hplan, htext⟩ := source.resolve_writes [] (some text) none s
  refine ⟨results, hwrites, hplan, ?_⟩
  have hlines : (results.map fun a => a.shown.renderChars) =
      (((candidates [] (some text) none).filter source.applies).map Entry.written).map
        Entry.renderChars := by
    rw [List.map_map]
    exact map_eq_of_writes hwrites fun a e h => h.line
  rw [htext, hlines]
  rfl

/-- **Resolving a resolved text is a fixpoint.**  A text without ramps is
resolved alone.  If every name that is applied is a stem, and rounding leaves
each applied entry a strength that is not zero, then the resulting text is
resolved to itself, with hooks of the same names, and with the same keyframes
but for rounding. -/
theorem resolve_fixpoint (text : String) (s s' : σ)
    (htext : Schedule.jsonItems? text.toList = none)
    (hmodern : ∀ line ∈ lines text.toList, ∀ encoding ∈ Line.encoding? line, encoding = .modern)
    (hnames : ∀ hook ∈ (source.resolve [] (some text) none s).1.plan.hooks,
      '/' ∉ hook.name.toList ∧ '.' ∉ hook.name.toList)
    (hstrengths : ∀ hook ∈ (source.resolve [] (some text) none s).1.plan.hooks,
      ¬(ShowsZero hook.modelStrength ∧ ShowsZero hook.clipStrength)) :
    let first := (source.resolve [] (some text) none s).1
    let second := (source.resolve [] (some first.text) none s').1
    second.text = first.text ∧
      second.plan.hooks.map Hook.name = first.plan.hooks.map Hook.name ∧
      second.plan.hooks.map Hook.keyframes =
        first.plan.hooks.map fun hook => hook.keyframes.map KeyPoint.rounded := by
  intro first second
  obtain ⟨results, hwrites, hplan, hresult⟩ := source.resolve_text text s
  obtain ⟨results', hwrites', hplan', hresult'⟩ := source.resolve_text first.text s'
  change first.plan.hooks = _ at hplan
  change first.text = _ at hresult
  have hlasting : ∀ e ∈ (candidates [] (some text) none).filter source.applies,
      e.Lasting ∧ source.applies e = true := by
    intro e he
    obtain ⟨a, ha, hwrite⟩ := exists_of_mem_right hwrites he
    have hhook : a.hook ∈ first.plan.hooks := hplan ▸ List.mem_map_of_mem ha
    obtain ⟨hslash, hpoint⟩ := hnames a.hook hhook
    have hshown := hstrengths a.hook hhook
    rw [hwrite.name] at hslash hpoint
    rw [hwrite.modelStrength, hwrite.clipStrength] at hshown
    exact ⟨lasting_of_mem_candidates htext hmodern (List.mem_of_mem_filter he) hslash hpoint hshown,
      List.of_mem_filter he⟩
  generalize (candidates [] (some text) none).filter source.applies = entries at *
  have hagain : (candidates [] (some first.text) none).filter source.applies =
      entries.map fun e => e.written.rounded := by
    rw [hresult]
    exact source.filter_applies_again hlasting
  rw [hagain] at hwrites' hresult'
  refine ⟨?_, ?_, ?_⟩
  · rw [hresult]
    exact hresult'.trans (renderAll_again fun e he => (hlasting e he).1)
  · calc second.plan.hooks.map Hook.name
        = (entries.map fun e => e.written.rounded).map Entry.name := by
          rw [hplan', List.map_map]
          exact map_eq_of_writes hwrites' fun a e h => h.name
      _ = entries.map Entry.name := by
          rw [List.map_map]
          exact List.map_congr_left fun e he => (hlasting e he).1.stem
      _ = first.plan.hooks.map Hook.name := by
          rw [hplan, List.map_map]
          exact (map_eq_of_writes hwrites fun a e h => h.name).symm
  · calc second.plan.hooks.map Hook.keyframes
        = (entries.map fun e => e.written.rounded).map fun e => e.written.points := by
          rw [hplan', List.map_map]
          exact map_eq_of_writes hwrites' fun a e h => h.keyframes
      _ = entries.map fun e => e.written.points.map KeyPoint.rounded := by
          rw [List.map_map]
          exact List.map_congr_left fun e he =>
            congrArg Entry.points (hlasting e he).1.written_again
      _ = first.plan.hooks.map fun hook => hook.keyframes.map KeyPoint.rounded := by
          rw [hplan, List.map_map]
          exact (map_eq_of_writes hwrites fun a e h =>
            congrArg (List.map KeyPoint.rounded) h.keyframes).symm

/-- A curve that is padded at both ends, with a strength and a weight that are
rounded, and a second line that finds no file. -/
theorem resolve_fixpoint_padded_curve :
    let source : Source Unit := {
      resolve? := fun name => if name = "ink" then some ⟨"ink.safetensors"⟩ else none
      load? := fun _ => some (Dict.ofList [("alpha", ⟨[], [Binary.zero false]⟩)])
      words := fun _ => []
      architecture := fun _ => pure .sdxl
      statistics? := fun _ _ => pure none }
    let text := "<lora:ink:0.00001:x:0.25,0.12345;0.75,1:vectors=mid=0.33333>\n<lora:pen:1:1>"
    (source.resolve [] (some text) none ()).1.plan.hooks.map Hook.name = ["ink"] ∧
      (source.resolve [] (some (source.resolve [] (some text) none ()).1.text) none ()).1.text =
        (source.resolve [] (some text) none ()).1.text := by
  intro source text
  have hhooks : (source.resolve [] (some text) none ()).1.plan.hooks.map (fun hook =>
      (hook.name, decide (ShowsZero hook.modelStrength ∧ ShowsZero hook.clipStrength))) =
        [("ink", false)] := by
    decide +kernel
  obtain ⟨hook, hplan, hread⟩ := List.map_eq_singleton_iff.mp hhooks
  simp only [Prod.mk.injEq, decide_eq_false_iff_not] at hread
  obtain ⟨hname, hstrength⟩ := hread
  refine ⟨by rw [hplan, List.map_singleton, hname], ?_⟩
  have hfixpoint := source.resolve_fixpoint text () () (by decide) (by decide)
    (by simp [hplan, hname]) (by simpa [hplan] using hstrength)
  exact hfixpoint.1

end Source

end LoraSchedule
