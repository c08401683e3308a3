import LoraSchedule.Engine
import LoraSchedule.Proofs.Resolution.Result

/-!
# Trigger words

The words of a schedule are those of the files of certain entries, and the mode
says of which (`Scanned`).  Nothing that happens to an entry after its file was
found takes its words back: collecting them on the way, while the entries are
applied and some are passed over, gives the same words
(`Source.applyAllNoting_eq`).  What comes out is in ascending order, each word
once (`resolve_words`).
-/

namespace LoraSchedule

open LoraSchedule.Number (Binary)

/-! ## Words in order -/

theorem pairwise_ascending (texts : List String) : (ascending texts).Pairwise (· < ·) :=
  Dict.keys_ascending _

theorem mem_ascending {text : String} {texts : List String} :
    text ∈ ascending texts ↔ text ∈ texts := by
  rw [ascending, Dict.mem_keys_ofList, List.map_map]
  exact (List.map_id _).symm ▸ Iff.rfl

/-! ## The entries that are looked up -/

/-- An entry whose file is asked for its words: an enabled one of those that the
mode applies, or any of a text that it keeps. -/
def Scanned (mode : ResolutionMode) (entries : List Entry) (text : Option String)
    (e : Entry) : Prop :=
  match mode with
  | .standard => e ∈ entries ∧ e.enabled = true
  | .override => e ∈ entries ∧ e.enabled = true ∨ ∃ kept ∈ text, e ∈ Schedule.parse kept
  | .externalText => ∃ given ∈ text, e ∈ Schedule.parse given ∧ e.enabled = true
  | .externalPrior => False
  | .bridge => ∃ kept ∈ text, e ∈ Schedule.parse kept

/-- **The entries that are looked up** are those of the kept text, and the
candidates. -/
theorem scanned_modeOf_iff {entries : List Entry} {text : Option String} {prior : Option Plan}
    {e : Entry} :
    Scanned (modeOf entries text prior) entries text e ↔
      e ∈ Schedule.parse ((kept? text prior).getD "") ∨ e ∈ candidates entries text prior := by
  have hempty : Schedule.parse "" = [] := by decide
  have hnone : entries.any Entry.enabled = false → e ∈ entries → e.enabled = false :=
    fun hany he => Bool.not_eq_true _ ▸ List.any_eq_false.mp hany e he
  unfold modeOf kept? candidates
  cases htext : nonBlank? text with
  | none =>
      cases hentries : entries.any Entry.enabled <;> cases prior <;>
        simp +contextual [Scanned, ResolutionMode.select, hempty, hnone, hentries]
  | some given =>
      obtain ⟨rfl, -⟩ := Option.filter_eq_some_iff.mp htext
      cases hentries : entries.any Entry.enabled <;> cases prior <;>
        simp [Scanned, ResolutionMode.select, hempty, or_comm]

/-- A text that is neither applied nor kept has no part in the outcome. -/
theorem candidates_eq_of_ignored {entries : List Entry} {text : Option String}
    {prior : Option Plan}
    (hmode : modeOf entries text prior = .standard ∨ modeOf entries text prior = .externalPrior) :
    kept? text prior = none ∧ candidates entries text prior = candidates entries none prior := by
  have hblank : nonBlank? none = none := rfl
  revert hmode
  unfold modeOf kept? candidates
  cases nonBlank? text with
  | none => simp [hblank]
  | some given =>
      cases entries.any Entry.enabled <;> cases prior <;> simp [ResolutionMode.select]

namespace Source

variable {σ : Type} (source : Source σ)

theorem mem_wordsOf {entries : List Entry} {word : String} :
    word ∈ source.wordsOf entries ↔
      ∃ e ∈ entries, ∃ p, source.resolve? e.name = some p ∧ word ∈ source.words p := by
  rw [wordsOf, List.mem_flatMap]
  refine exists_congr fun e => and_congr_right fun _ => ?_
  cases source.resolve? e.name <;> simp

theorem wordsOf_cons (e : Entry) (rest : List Entry) :
    source.wordsOf (e :: rest) =
      ((source.resolve? e.name).map source.words).getD [] ++ source.wordsOf rest :=
  List.flatMap_cons

/-! ## Noting words on the way -/

/-- Adds words to those noted so far. -/
def note (noted : Dict Unit) (words : List String) : Dict Unit :=
  words.foldl (fun noted word => noted.insert word ()) noted

/-- Applies an entry; the words of its file are noted as soon as it is found,
before it is tried to load and before the strengths are looked at. -/
def applyNoting (e : Entry) (noted : Dict Unit) : StateM σ (Option Applied × Dict Unit) :=
  match source.resolve? e.name with
  | none => pure (none, noted)
  | some p => do
    let noted := note noted (source.words p)
    return (← source.applyAt e p, noted)

/-- Applies entries in their order, and notes their words on the way. -/
def applyAllNoting : List Entry → Dict Unit → StateM σ (List Applied × Dict Unit)
  | [], noted => pure ([], noted)
  | e :: rest, noted => do
    let (first, noted) ← source.applyNoting e noted
    let (others, noted) ← applyAllNoting rest noted
    return (first.toList ++ others, noted)

/-- Noting on the way does not change how an entry is applied, and what becomes
of the entry does not change what is noted. -/
theorem applyNoting_eq (e : Entry) (noted : Dict Unit) (s : σ) :
    source.applyNoting e noted s =
      (((source.apply e s).1, note noted (((source.resolve? e.name).map source.words).getD [])),
        (source.apply e s).2) := by
  unfold applyNoting apply
  cases source.resolve? e.name <;> rfl

/-- **Noting on the way gives the words of all entries whose files are found**,
those that are passed over included. -/
theorem applyAllNoting_eq (entries : List Entry) (noted : Dict Unit) (s : σ) :
    source.applyAllNoting entries noted s =
      (((source.applyAll entries s).1, note noted (source.wordsOf entries)),
        (source.applyAll entries s).2) := by
  induction entries generalizing noted s with
  | nil => rfl
  | cons e rest ih =>
      have hnoted : note noted (source.wordsOf (e :: rest)) =
          note (note noted (((source.resolve? e.name).map source.words).getD []))
            (source.wordsOf rest) := by
        rw [wordsOf_cons, note, List.foldl_append]
        rfl
      rw [hnoted]
      simp only [applyAllNoting, bind, StateT.bind, applyNoting_eq, ih]
      rfl

theorem keys_note_append (first second : List String) :
    (note (note ∅ first) second).keys = ascending (first ++ second) := by
  rw [ascending, Dict.ofList, List.map_append, List.foldl_append, List.foldl_map, List.foldl_map]
  rfl

end Source

/-! ## The words of a schedule -/

/-- The words of a file stand in its sidecars. -/
theorem mem_wordsOfFile {t : FileTree} {p : Path} {word : String} :
    word ∈ Sidecar.wordsOfFile t p ↔
      ∃ q ∈ Sidecar.paths p, ∃ sidecar, Sidecar.read t q = .ok sidecar ∧ word ∈ sidecar.words := by
  have hread : ∀ q sidecar, (Sidecar.read t q).toOption = some sidecar ↔
      Sidecar.read t q = .ok sidecar := by
    intro q sidecar
    cases Sidecar.read t q <;> simp [Except.toOption]
  simp only [Sidecar.wordsOfFile, Sidecar.ofFile, List.mem_flatMap, List.mem_filterMap, hread]
  constructor
  · rintro ⟨sidecar, ⟨q, hq, hsidecar⟩, hword⟩
    exact ⟨q, hq, sidecar, hsidecar, hword⟩
  · rintro ⟨q, hq, sidecar, hsidecar, hword⟩
    exact ⟨sidecar, ⟨q, hq, hsidecar⟩, hword⟩

/-- **The trigger words of a schedule.**  They are in ascending order, each once.
They are the words of the files that are found for the entries which the mode
looks up, whatever becomes of these; the pass over the candidates that gives the
plan gives just these words when it notes them on the way, after those of the
kept text.  A text that the mode neither applies nor keeps adds nothing.  For an
engine, the words of a file are those in its sidecars. -/
theorem resolve_words :
    (∀ {σ : Type} (source : Source σ) (entries : List Entry) (text : Option String)
        (prior : Option Plan) (s : σ),
      let result := (source.resolve entries text prior s).1
      result.words.Pairwise (· < ·) ∧
        (∀ word, word ∈ result.words ↔ ∃ e p, Scanned result.mode entries text e ∧
          source.resolve? e.name = some p ∧ word ∈ source.words p) ∧
        (let noted := Source.note ∅ (source.wordsOf (Schedule.parse ((kept? text prior).getD "")))
        let pass := (source.applyAllNoting (candidates entries text prior) noted s).1
        result.plan = .compose prior (pass.1.map Applied.hook) ∧ result.words = pass.2.keys) ∧
        (result.mode = .standard ∨ result.mode = .externalPrior →
          result.words = (source.resolve entries none prior s).1.words)) ∧
    ∀ (engine : Engine) (t : FileTree) (entries : List Entry) (text : Option String)
        (prior : Option Plan) (cache : Cache) (word : String),
      let result := (engine.resolve t entries text prior cache).1
      word ∈ result.words ↔ ∃ e p, Scanned result.mode entries text e ∧
        engine.resolvePath? t e.name = some p ∧ ∃ q ∈ Sidecar.paths p, ∃ sidecar,
          Sidecar.read t q = .ok sidecar ∧ word ∈ sidecar.words := by
  have hscanned : ∀ {σ : Type} (source : Source σ) (entries : List Entry) (text : Option String)
      (prior : Option Plan) (s : σ) (word : String),
      word ∈ (source.resolve entries text prior s).1.words ↔
        ∃ e p, Scanned (modeOf entries text prior) entries text e ∧
          source.resolve? e.name = some p ∧ word ∈ source.words p := by
    intro σ source entries text prior s word
    simp only [Source.resolve_eq, mem_ascending, List.mem_append, source.mem_wordsOf,
      scanned_modeOf_iff]
    constructor
    · rintro (⟨e, he, p, hp⟩ | ⟨e, he, p, hp⟩)
      · exact ⟨e, p, Or.inl he, hp⟩
      · exact ⟨e, p, Or.inr he, hp⟩
    · rintro ⟨e, p, he | he, hp⟩
      · exact Or.inl ⟨e, he, p, hp⟩
      · exact Or.inr ⟨e, he, p, hp⟩
  refine ⟨fun source entries text prior s => ?_, fun engine t entries text prior cache word => ?_⟩
  · refine ⟨?_, hscanned source entries text prior s, ?_, ?_⟩
    · rw [Source.resolve_eq]
      exact pairwise_ascending _
    · simp only [Source.resolve_eq, source.applyAllNoting_eq, Source.keys_note_append, and_self]
    · rw [Source.resolve_eq, Source.resolve_eq]
      intro hmode
      obtain ⟨hkept, hcandidates⟩ := candidates_eq_of_ignored hmode
      simp only [hkept, hcandidates]
      cases prior <;> rfl
  · have hmode : (engine.resolve t entries text prior cache).1.mode = modeOf entries text prior := by
      rw [Engine.resolve, Source.resolve_eq]
    simp only [hmode]
    rw [Engine.resolve, hscanned]
    simp only [Engine.source, mem_wordsOfFile]

/-- A source with one file that cannot be loaded, and none for one name. -/
def partialSource : Source Unit where
  resolve? name := if name = "gone" then none else some ⟨name⟩
  load? p := if p = ⟨"broken"⟩ then none else some (Dict.ofList [("w", ⟨[], []⟩)])
  words p := ["z", p.text]
  architecture _ := pure .sdxl
  statistics? _ _ := pure none

/-- A list with a file that cannot be loaded has the words of that file, and
those it has without a text, if it stands next to a text without a prior plan. -/
theorem resolve_words_unloadable :
    let result := (partialSource.resolve [.ofName "broken", .ofName "gone"] (some "<lora:ink>") none
      ()).1
    "broken" ∈ result.words ∧
      result.words = (partialSource.resolve [.ofName "broken", .ofName "gone"] none none ()).1.words := by
  obtain ⟨-, hmem, -, hignored⟩ := resolve_words.1 partialSource
    [.ofName "broken", .ofName "gone"] (some "<lora:ink>") none ()
  refine ⟨(hmem "broken").mpr ?_, hignored (Or.inl (by decide))⟩
  exact ⟨.ofName "broken", ⟨"broken"⟩, ⟨List.mem_cons_self .., rfl⟩, by decide, by decide⟩

/-- Entries that are silent, cannot be loaded or are not found, after a kept text:
all but the last leave their words, and the text those of its own. -/
example :
    let mute := { Entry.ofName "mute" with
      modelStrength := Binary.zero false
      clipStrength := Binary.zero false }
    (partialSource.resolve [mute, .ofName "broken", .ofName "gone"] (some "<lora:ink:0:0>")
      (some ⟨[]⟩) ()).1.words = ["broken", "ink", "mute", "z"] := by
  decide +kernel

end LoraSchedule
