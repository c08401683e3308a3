import LoraSchedule.Proofs.Resolution.Outcome
import LoraSchedule.Proofs.Schedule.FieldText

/-!
# The result of resolving

Which entries are candidates, and whether the given text is kept, can be said
without the modes (`candidateEntries_modeOf`, `keptText_modeOf`).  With a source
whose answers are functions, the plan is the prior plan followed by the hooks of
the candidates that have an outcome, and the text has one line for each of them
(`resolve_result`).
-/

namespace LoraSchedule

open LoraSchedule.Number (Binary Double)
open LoraSchedule.Text

/-! ## What the modes select -/

/-- The entries that may be applied: the enabled ones of the list, or if there
are none, those of a text that comes without a prior plan. -/
def candidates (entries : List Entry) (text : Option String) (prior : Option Plan) : List Entry :=
  if entries.any Entry.enabled then entries.filter Entry.enabled
  else
    match nonBlank? text, prior with
    | some text, none => (Schedule.parse text).filter Entry.enabled
    | _, _ => []

/-- The text that is kept: a text that comes with a prior plan. -/
def kept? (text : Option String) (prior : Option Plan) : Option String :=
  if prior.isSome then nonBlank? text else none

theorem candidateEntries_modeOf (entries : List Entry) (text : Option String)
    (prior : Option Plan) :
    candidateEntries (modeOf entries text prior) entries text = candidates entries text prior := by
  have hnone : entries.any Entry.enabled = false → entries.filter Entry.enabled = [] := by
    simp [List.filter_eq_nil_iff]
  unfold candidateEntries modeOf candidates
  cases hentries : entries.any Entry.enabled <;> cases htext : nonBlank? text <;> cases prior <;>
    simp [ResolutionMode.select, hnone, hentries]

theorem keptText_modeOf (entries : List Entry) (text : Option String) (prior : Option Plan) :
    keptText (modeOf entries text prior) text = (kept? text prior).getD "" := by
  unfold keptText modeOf kept?
  cases entries.any Entry.enabled <;> cases nonBlank? text <;> cases prior <;>
    simp [ResolutionMode.select, ResolutionMode.keepsText]

/-! ## Disabled entries -/

theorem modeOf_filter (entries : List Entry) (text : Option String) (prior : Option Plan) :
    modeOf (entries.filter Entry.enabled) text prior = modeOf entries text prior := by
  have hany : (entries.filter Entry.enabled).any Entry.enabled = entries.any Entry.enabled := by
    simp [List.any_filter]
  rw [modeOf, modeOf, hany]

theorem candidates_filter (entries : List Entry) (text : Option String) (prior : Option Plan) :
    candidates (entries.filter Entry.enabled) text prior = candidates entries text prior := by
  rw [← candidateEntries_modeOf, ← candidateEntries_modeOf, modeOf_filter]
  unfold candidateEntries
  cases modeOf entries text prior <;> simp

theorem enabled_of_mem_candidates {entries : List Entry} {text : Option String}
    {prior : Option Plan} {e : Entry} (h : e ∈ candidates entries text prior) :
    e.enabled = true := by
  rw [← candidateEntries_modeOf] at h
  exact List.of_mem_filter h

theorem candidates_of_enabled {entries : List Entry} (h : ∀ e ∈ entries, e.enabled = true)
    (prior : Option Plan) : candidates entries none prior = entries := by
  cases entries with
  | nil => cases prior <;> rfl
  | cons e rest =>
      have hany : (e :: rest).any Entry.enabled = true := by simp [h e (List.mem_cons_self ..)]
      unfold candidates
      rw [if_pos hany]
      exact List.filter_eq_self.mpr h

/-! ## The resulting text -/

theorem kept?_ne_empty {text : Option String} {prior : Option Plan} {kept : String}
    (h : kept? text prior = some kept) : kept.toList ≠ [] := by
  unfold kept? at h
  split at h
  · rw [nonBlank?, Option.filter_eq_some_iff, decide_eq_true_eq] at h
    intro hnil
    exact h.2 (by rw [hnil]; rfl)
  · cases h

/-- Lines put under a text, which are lines again. -/
theorem joinParts_lines {lines : List (List Char)} (hlines : ∀ line ∈ lines, line ≠ [])
    {kept : Option String} (hkept : ∀ text ∈ kept, text.toList ≠ []) :
    joinParts [(kept.getD "").toList, joinWith ['\n'] lines] =
      joinWith ['\n'] (kept.toList.map String.toList ++ lines) := by
  unfold joinParts
  rcases eq_or_ne lines [] with rfl | hne
  · cases kept with
    | none => rfl
    | some text => simp [hkept text rfl]
  · have hjoined : joinWith ['\n'] lines ≠ [] := joinWith_ne_nil hne hlines
    cases kept with
    | none => simp [hjoined]
    | some text =>
        obtain ⟨line, rest, rfl⟩ := List.exists_cons_of_ne_nil hne
        simp [hkept text rfl, hjoined, joinWith_cons_cons]

/-! ## Resolving -/

namespace Source

variable {σ : Type} {source : Source σ}

/-- What resolving comes to: the candidates are applied, and the rest is read
off. -/
theorem resolve_eq (entries : List Entry) (text : Option String) (prior : Option Plan) (s : σ) :
    source.resolve entries text prior s =
      let run := source.applyAll (candidates entries text prior) s
      ({ mode := modeOf entries text prior
         plan := .compose prior (run.1.map Applied.hook)
         text := String.ofList (joinWith ['\n'] ((kept? text prior).toList.map String.toList ++
           run.1.map fun a => a.shown.renderChars))
         words := ascending (source.wordsOf (Schedule.parse ((kept? text prior).getD "")) ++
           source.wordsOf (candidates entries text prior)) }, run.2) := by
  have hlines : ∀ applied : List Applied, ∀ line ∈ applied.map (fun a => a.shown.renderChars),
      line ≠ [] := by
    intro applied line hline
    obtain ⟨a, -, rfl⟩ := List.mem_map.mp hline
    exact a.shown.renderChars_ne_nil
  unfold resolve
  simp only [candidateEntries_modeOf, keptText_modeOf]
  rw [← joinParts_lines (hlines _) fun kept hkept => kept?_ne_empty hkept]
  rfl

variable {family : Path → Architecture}
  {statistics : Path → Architecture → Option (Statistics Double)}

/-- **The result of resolving, as a whole.**  For a source whose answers are
functions of what is asked, the plan is the prior plan and then the hooks of the
candidates that have an outcome, and the text is the kept text and then their
lines.  An enabled entry has an outcome just if it is found, has tensors and is
not silent; what becomes of a list does not depend on the lists around it; and
disabled entries are as good as absent. -/
theorem resolve_result (hfixed : source.Fixed family statistics) :
    (∀ (entries : List Entry) (text : Option String) (prior : Option Plan) (s : σ),
      let applied := (candidates entries text prior).filterMap (source.outcome? family statistics)
      let result := (source.resolve entries text prior s).1
      result.plan.hooks = (prior.map Plan.hooks).getD [] ++ applied.map Applied.hook ∧
        result.text = String.ofList (joinWith ['\n'] ((kept? text prior).toList.map String.toList ++
          applied.map fun a => a.shown.renderChars))) ∧
    (∀ e, (source.outcome? family statistics e).isSome = true ↔
      ∃ p tensors, source.resolve? e.name = some p ∧ source.load? p = some tensors ∧
        tensors.isEmpty = false ∧ e.isSilent = false) ∧
    (∀ (first second : List Entry) (s s' s'' : σ),
      (source.applyAll (first ++ second) s).1 =
        (source.applyAll first s').1 ++ (source.applyAll second s'').1) ∧
    ∀ (entries : List Entry) (text : Option String) (prior : Option Plan),
      source.resolve (entries.filter Entry.enabled) text prior =
        source.resolve entries text prior := by
  refine ⟨?_, source.isSome_outcome?_iff family statistics, ?_, ?_⟩
  · intro entries text prior s
    simp only [resolve_eq, hfixed.applyAll_eq, Plan.compose, and_self]
  · intro first second s s' s''
    rw [hfixed.applyAll_eq, hfixed.applyAll_eq, hfixed.applyAll_eq, List.filterMap_append]
  · intro entries text prior
    funext s
    rw [resolve_eq, resolve_eq, candidates_filter, modeOf_filter]

/-- A source that counts the questions it is asked, and a list in which only the
first entry is enabled and found. -/
theorem resolve_result_counting_source :
    let source : Source Nat := {
      resolve? := fun name => if name = "ink" then some ⟨"ink.safetensors"⟩ else none
      load? := fun _ => some (Dict.ofList [("alpha", ⟨[], [Binary.zero false]⟩)])
      words := fun _ => []
      architecture := fun _ asked => (.sdxl, asked + 1)
      statistics? := fun _ _ asked => (none, asked + 1) }
    source.Fixed (fun _ => .sdxl) (fun _ _ => none) ∧
      (source.resolve [.ofName "ink", { Entry.ofName "ink" with enabled := false }, .ofName "pen"]
        (some "kept") (some ⟨[]⟩) 0).1.plan.hooks.map Hook.name = ["ink"] := by
  intro source
  have hfixed : source.Fixed (fun _ => .sdxl) (fun _ _ => none) :=
    ⟨fun _ _ => rfl, fun _ _ _ => rfl⟩
  refine ⟨hfixed, ?_⟩
  rw [((resolve_result hfixed).1 _ _ _ 0).1]
  decide +kernel

end Source

end LoraSchedule
