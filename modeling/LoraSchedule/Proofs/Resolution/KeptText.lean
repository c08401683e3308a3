import LoraSchedule.Proofs.Resolution.Result
import LoraSchedule.Proofs.Schedule.Reparse
import LoraSchedule.Proofs.Schedule.Rows

/-!
# Texts that are kept in front

Where a text comes with a prior plan, it is kept as it was given, and the lines
of the applied entries stand under it.  A text of lines stays readable there: the
result is read as its entries and then those of the lines
(`resolve_kept_text_reread`).

A JSON list is read only as a whole text.  With a line under it the result is a
text of lines, and the entries of the list are not read any more
(`resolve_kept_list_not_reread`).
-/

namespace LoraSchedule

open LoraSchedule.Number (Binary)
open LoraSchedule.Text

/-! ## Modes that keep the text -/

/-- A text is kept just if it comes with a prior plan, whatever the entries. -/
theorem ResolutionMode.keepsText_select (hasEntries hasText hasPrior : Bool) :
    (select hasEntries hasText hasPrior).keepsText = (hasText && hasPrior) := by
  cases hasEntries <;> cases hasText <;> cases hasPrior <;> rfl

theorem exists_of_keepsText {entries : List Entry} {text : Option String} {prior : Option Plan}
    (h : (modeOf entries text prior).keepsText = true) :
    ∃ kept, text = some kept ∧ kept? text prior = some kept := by
  rw [modeOf, ResolutionMode.keepsText_select, Bool.and_eq_true] at h
  obtain ⟨kept, hkept⟩ := Option.isSome_iff_exists.mp h.1
  refine ⟨kept, (Option.filter_eq_some_iff.mp hkept).1, ?_⟩
  rw [kept?, if_pos h.2, hkept]

/-- Between a text and a prior plan there is nothing to apply. -/
theorem candidates_of_bridge {entries : List Entry} {text : Option String} {prior : Option Plan}
    (h : modeOf entries text prior = .bridge) : candidates entries text prior = [] := by
  rw [← candidateEntries_modeOf, h]
  rfl

/-! ## Lines under a text -/

theorem Entry.head?_renderAll {entries : List Entry} (h : entries ≠ []) :
    (Entry.renderAll entries).toList.head? = some '<' := by
  obtain ⟨e, rest, rfl⟩ := List.exists_cons_of_ne_nil h
  obtain ⟨line, hline⟩ := e.exists_renderChars_eq
  rw [Entry.renderAll, String.toList_ofList]
  cases rest <;> simp [hline, joinWith_cons_cons]

theorem Schedule.parse_renderAll_eq_ofLines (entries : List Entry) :
    Schedule.parse (Entry.renderAll entries) =
      Schedule.ofLines (joinWith ['\n'] (entries.map Entry.renderChars)) := by
  simp only [Schedule.parse, Schedule.jsonItems?_renderAll]
  rw [Entry.renderAll, String.toList_ofList]

theorem toList_append_row (kept rows : String) :
    (kept ++ "\n" ++ rows).toList = kept.toList ++ '\n' :: rows.toList := by
  rw [String.toList_append, String.toList_append, List.append_assoc]
  rfl

/-- **Lines under a text.**  They are read after what the text is read as; but
under a JSON list they are all that is read. -/
theorem Schedule.parse_append_renderAll (kept : String) {entries : List Entry} (h : entries ≠ []) :
    Schedule.parse (kept ++ "\n" ++ Entry.renderAll entries) =
      (if (Schedule.jsonItems? kept.toList).isSome then [] else Schedule.parse kept) ++
        Schedule.parse (Entry.renderAll entries) := by
  have htext : kept ++ "\n" ++ Entry.renderAll entries =
      String.ofList (kept.toList ++ '\n' :: (Entry.renderAll entries).toList) := by
    rw [← String.toList_inj, String.toList_ofList, toList_append_row]
  rw [htext, Schedule.parse_append_row kept (Entry.head?_renderAll h),
    Schedule.parse_renderAll_eq_ofLines, Entry.renderAll, String.toList_ofList]

namespace Source

variable {σ : Type} (source : Source σ)

/-- The text of a resolution that keeps one. -/
theorem text_resolve_of_kept {entries : List Entry} {text : Option String} {prior : Option Plan}
    {kept : String} (hkept : kept? text prior = some kept) (s : σ) :
    let shown := (source.applyAll (candidates entries text prior) s).1.map Applied.shown
    (source.resolve entries text prior s).1.text =
      if shown = [] then kept else kept ++ "\n" ++ Entry.renderAll shown := by
  intro shown
  rw [← String.toList_inj]
  have hrows : (source.applyAll (candidates entries text prior) s).1.map
      (fun a => a.shown.renderChars) = shown.map Entry.renderChars := by
    rw [List.map_map]
    rfl
  simp only [resolve_eq, hkept, hrows, String.toList_ofList]
  cases hshown : shown with
  | nil => simp
  | cons e rest => simp [Entry.renderAll, joinWith_cons_cons]

/-- **A kept text stays readable.**  In the modes that keep the text, the result
is the text itself with the lines of the applied entries under it.  It is read as
the entries of the text and then those of the lines, unless the text is a JSON
list and there are lines: then the result is no such list, and only the lines are
read.  Where the text stands between no entries and a prior plan, no line is
written. -/
theorem resolve_kept_text_reread (entries : List Entry) (text : Option String)
    (prior : Option Plan) (s : σ) (hmode : (modeOf entries text prior).keepsText = true) :
    ∃ kept, text = some kept ∧
      let shown := (source.applyAll (candidates entries text prior) s).1.map Applied.shown
      let lines := Entry.renderAll shown
      let result := (source.resolve entries text prior s).1.text
      result = (if shown = [] then kept else kept ++ "\n" ++ lines) ∧
        (Schedule.jsonItems? kept.toList = none ∨ shown = [] →
          Schedule.parse result = Schedule.parse kept ++ Schedule.parse lines) ∧
        (Schedule.jsonItems? kept.toList ≠ none → shown ≠ [] →
          Schedule.jsonItems? result.toList = none ∧
            Schedule.parse result = Schedule.parse lines) ∧
        (modeOf entries text prior = .bridge → shown = []) := by
  obtain ⟨kept, htext, hkept⟩ := exists_of_keepsText hmode
  refine ⟨kept, htext, ?_⟩
  intro shown lines result
  have hresult : result = if shown = [] then kept else kept ++ "\n" ++ lines :=
    source.text_resolve_of_kept hkept s
  have hunder (hshown : shown ≠ []) : Schedule.parse result =
      (if (Schedule.jsonItems? kept.toList).isSome then [] else Schedule.parse kept) ++
        Schedule.parse lines := by
    rw [hresult, if_neg hshown]
    exact Schedule.parse_append_renderAll kept hshown
  refine ⟨hresult, ?_, ?_, ?_⟩
  · intro hplain
    by_cases hshown : shown = []
    · have hnothing : Schedule.parse lines = [] := by
        have hlines : lines = Entry.renderAll [] := congrArg Entry.renderAll hshown
        rw [hlines, Schedule.parse_renderAll_eq_ofLines, List.map_nil, joinWith_nil]
        rfl
      rw [hresult, if_pos hshown, hnothing, List.append_nil]
    · rw [hunder hshown, hplain.resolve_right hshown, if_neg (by decide)]
  · intro hlist hshown
    constructor
    · rw [hresult, if_neg hshown, toList_append_row]
      exact Schedule.jsonItems?_append_row kept.toList (Entry.head?_renderAll hshown)
    · rw [hunder hshown, if_pos (Option.isSome_iff_ne_none.mpr hlist), List.nil_append]
  · intro hbridge
    simp only [shown, candidates_of_bridge hbridge]
    rfl

/-- A source that finds the same file for every name. -/
def inkSource : Source Unit where
  resolve? _ := some ⟨"ink.safetensors"⟩
  load? _ := some (Dict.ofList [("alpha", ⟨[], [Binary.zero false]⟩)])
  words _ := []
  architecture _ := pure .sdxl
  statistics? _ _ := pure none

/-- A text of lines, with blanks and an empty row after it, and a line under it. -/
theorem resolve_kept_text_reread_line :
    let kept := " <lora:pen:1> \r\n\n"
    let entries := [Entry.ofName "ink"]
    let shown := (inkSource.applyAll (candidates entries (some kept) (some ⟨[]⟩)) ()).1.map
      Applied.shown
    (modeOf entries (some kept) (some ⟨[]⟩)).keepsText = true ∧
      (Schedule.parse kept).map Entry.name = ["pen"] ∧ shown.map Entry.name = ["ink"] ∧
      Schedule.parse (inkSource.resolve entries (some kept) (some ⟨[]⟩) ()).1.text =
        Schedule.parse kept ++ Schedule.parse (Entry.renderAll shown) := by
  intro kept entries shown
  have hmode : (modeOf entries (some kept) (some ⟨[]⟩)).keepsText = true := by decide +kernel
  refine ⟨hmode, by decide +kernel, by decide +kernel, ?_⟩
  obtain ⟨given, hgiven, -, hreread, -⟩ :=
    inkSource.resolve_kept_text_reread entries (some kept) (some ⟨[]⟩) () hmode
  obtain rfl : kept = given := Option.some.inj hgiven
  exact hreread (Or.inl (by decide +kernel))

/-- The entries of a JSON list are lost with a line under it. -/
theorem resolve_kept_list_not_reread :
    let kept := "[\x7b\"lora_name\":\"pen\"\x7d]"
    let entries := [Entry.ofName "ink"]
    let shown := (inkSource.applyAll (candidates entries (some kept) (some ⟨[]⟩)) ()).1.map
      Applied.shown
    let result := (inkSource.resolve entries (some kept) (some ⟨[]⟩) ()).1
    result.mode = .override ∧
      Schedule.parse result.text ≠
        Schedule.parse kept ++ Schedule.parse (Entry.renderAll shown) := by
  intro kept entries shown result
  have hlist : (Schedule.jsonItems? kept.toList).isSome = true := by decide +kernel
  have hshown : shown ≠ [] := by decide +kernel
  have hkept : kept? (some kept) (some ⟨[]⟩) = some kept := by decide +kernel
  refine ⟨by decide +kernel, fun hreread => ?_⟩
  rw [inkSource.text_resolve_of_kept hkept (), if_neg hshown,
    Schedule.parse_append_renderAll kept hshown, if_pos hlist, List.nil_append] at hreread
  have hnames : (Schedule.parse kept).map Entry.name = ["pen"] := by decide +kernel
  rw [List.self_eq_append_left.mp hreread] at hnames
  cases hnames

end Source

end LoraSchedule
