import LoraSchedule.Resolution

/-!
# What becomes of the entries of a schedule

The answers of a source may depend on a state that they change.  A `View` says
what they depend on: it follows the state by something simpler, for which the
answers are functions.  Then what becomes of an entry is a function of the entry
and what the view holds (`Source.outcome?`), and applying a list of entries
gives the outcomes one after the other (`View.applyAll_spec`).  Where the
answers do not depend on the state at all, neither do the outcomes, so that no
entry has an influence on another (`Source.Fixed.applyAll_eq`).
-/

namespace LoraSchedule

open LoraSchedule.Number (Double)

/-! ## Outcomes -/

/-- The family that the file of an entry is read as: the entry's own, or the
family of the file. -/
def Entry.familyAt (e : Entry) (family : Path → Architecture) (p : Path) : Architecture :=
  if e.architecture = .unknown then family p else e.architecture

/-- Whether an entry needs statistics. -/
def Entry.hasPreset (e : Entry) : Bool := (e.preset.filter (· ≠ "")).isSome

namespace Source

variable {σ : Type} (source : Source σ)

/-- The file of an entry and its tensors, if it is found and holds any. -/
def fileOf? (e : Entry) : Option (Path × TensorDict) :=
  (source.resolve? e.name).bind fun p =>
    ((source.load? p).filter fun tensors => !tensors.isEmpty).map fun tensors => (p, tensors)

/-- The family that the file of an entry is read as: the entry's own, or what
the source answers. -/
def askFamily (e : Entry) (p : Path) : StateM σ Architecture :=
  if e.architecture = .unknown then source.architecture p else pure e.architecture

/-- What becomes of an entry, by what is known about its file. -/
def outcome? (family : Path → Architecture)
    (statistics : Path → Architecture → Option (Statistics Double)) (e : Entry) : Option Applied :=
  (source.fileOf? e).bind fun file =>
    let architecture := e.familyAt family file.1
    let known := if e.hasPreset then statistics file.1 architecture else none
    if e.isSilent then none
    else some (applied e architecture (entryWeights e architecture known) file.2)

theorem fileOf?_eq_some_iff {e : Entry} {p : Path} {tensors : TensorDict} :
    source.fileOf? e = some (p, tensors) ↔
      source.resolve? e.name = some p ∧ source.load? p = some tensors ∧
        tensors.isEmpty = false := by
  simp only [fileOf?, Option.bind_eq_some_iff, Option.map_eq_some_iff, Option.filter_eq_some_iff,
    Prod.mk.injEq, Bool.not_eq_true']
  constructor
  · rintro ⟨path, hpath, dict, ⟨hload, hne⟩, rfl, rfl⟩
    exact ⟨hpath, hload, hne⟩
  · rintro ⟨hpath, hload, hne⟩
    exact ⟨p, hpath, tensors, ⟨hload, hne⟩, rfl, rfl⟩

/-- Of the statistics, only those of an entry's file under its family count. -/
theorem outcome?_congr {family : Path → Architecture}
    {first second : Path → Architecture → Option (Statistics Double)} {e : Entry}
    (h : ∀ p, source.resolve? e.name = some p →
      first p (e.familyAt family p) = second p (e.familyAt family p)) :
    source.outcome? family first e = source.outcome? family second e := by
  unfold outcome?
  cases hfile : source.fileOf? e with
  | none => rfl
  | some file =>
      have hknown := h file.1 (source.fileOf?_eq_some_iff.mp hfile).1
      simp only [Option.bind_some, hknown]

/-- The reasons to pass an entry over: nothing else counts. -/
theorem isSome_outcome?_iff (family : Path → Architecture)
    (statistics : Path → Architecture → Option (Statistics Double)) (e : Entry) :
    (source.outcome? family statistics e).isSome = true ↔
      ∃ p tensors, source.resolve? e.name = some p ∧ source.load? p = some tensors ∧
        tensors.isEmpty = false ∧ e.isSilent = false := by
  have hsilent : (source.outcome? family statistics e).isSome = true ↔
      ∃ file, source.fileOf? e = some file ∧ e.isSilent = false := by
    cases hfile : source.fileOf? e with
    | none => simp [outcome?, hfile]
    | some file => cases hs : e.isSilent <;> simp [outcome?, hfile, hs]
  rw [hsilent]
  constructor
  · rintro ⟨⟨p, tensors⟩, hfile, hs⟩
    obtain ⟨hpath, hload, hne⟩ := source.fileOf?_eq_some_iff.mp hfile
    exact ⟨p, tensors, hpath, hload, hne, hs⟩
  · rintro ⟨p, tensors, hpath, hload, hne, hs⟩
    exact ⟨(p, tensors), source.fileOf?_eq_some_iff.mpr ⟨hpath, hload, hne⟩, hs⟩

/-- Applying an entry in three steps: the family is asked for unless the entry
has one, then the statistics if they are needed, and only then the strengths
are looked at. -/
theorem applyAt_eq {e : Entry} {p : Path} {tensors : TensorDict}
    (hload : ((source.load? p).filter fun tensors => !tensors.isEmpty) = some tensors) (s : σ) :
    source.applyAt e p s =
      let asked := source.askFamily e p s
      let known := source.statisticsFor e p asked.1 asked.2
      (if e.isSilent then none
        else some (applied e asked.1 (entryWeights e asked.1 known.1) tensors), known.2) := by
  simp only [applyAt, hload, askFamily]
  by_cases hunknown : e.architecture = .unknown
  · simp only [hunknown, if_true]
    cases e.isSilent <;> rfl
  · simp only [hunknown, if_false]
    cases e.isSilent <;> rfl

/-- An entry that is applied has a file with tensors and is not silent, and its
weights come from what is answered about this file. -/
theorem exists_of_apply_eq_some {e : Entry} {s : σ} {result : Applied}
    (happlied : (source.apply e s).1 = some result) :
    ∃ p tensors, source.resolve? e.name = some p ∧ source.load? p = some tensors ∧
      let asked := source.askFamily e p s
      result = applied e asked.1
        (entryWeights e asked.1 (source.statisticsFor e p asked.1 asked.2).1) tensors := by
  unfold apply at happlied
  cases hpath : source.resolve? e.name with
  | none =>
      rw [hpath] at happlied
      cases happlied
  | some p =>
      rw [hpath] at happlied
      cases hfile : (source.load? p).filter fun tensors => !tensors.isEmpty with
      | none =>
          simp only [applyAt, hfile] at happlied
          cases happlied
      | some tensors =>
          refine ⟨p, tensors, rfl, (Option.filter_eq_some_iff.mp hfile).1, ?_⟩
          simp only [source.applyAt_eq hfile] at happlied
          by_cases hsilent : e.isSilent = true
          · rw [if_pos hsilent] at happlied
            cases happlied
          · rw [if_neg hsilent] at happlied
            exact (Option.some.inj happlied).symm

/-! ## Views of the state -/

/-- A simpler account of the states of a source, on which its answers depend. -/
structure View (source : Source σ) (κ : Type) where
  family : Path → Architecture
  /-- The statistics that are answered. -/
  known : κ → Path → Architecture → Option (Statistics Double)
  /-- What the account is after statistics were asked for. -/
  next : κ → Path → Architecture → κ
  /-- The paths of which an account is kept. -/
  Covers : Path → Prop
  /-- Whether an account is right about a state. -/
  Holds : κ → σ → Prop
  architecture_spec : ∀ {k s}, Holds k s → ∀ p, Covers p →
    (source.architecture p s).1 = family p ∧ Holds k (source.architecture p s).2
  statistics_spec : ∀ {k s}, Holds k s → ∀ p, Covers p → ∀ a,
    (source.statistics? p a s).1 = known k p a ∧ Holds (next k p a) (source.statistics? p a s).2

namespace View

variable {source} {κ : Type} (view : View source κ)

/-- What the account is after an entry was applied. -/
def after (k : κ) (e : Entry) : κ :=
  match source.fileOf? e with
  | none => k
  | some file => if e.hasPreset then view.next k file.1 (e.familyAt view.family file.1) else k

/-- What becomes of entries that are applied in their order. -/
def outcomes : κ → List Entry → List Applied
  | _, [] => []
  | k, e :: rest =>
      (source.outcome? view.family (view.known k) e).toList ++ outcomes (view.after k e) rest

theorem outcomes_append (k : κ) (first second : List Entry) :
    view.outcomes k (first ++ second) =
      view.outcomes k first ++ view.outcomes (first.foldl view.after k) second := by
  induction first generalizing k with
  | nil => rfl
  | cons e rest ih => simp [outcomes, ih]

variable {k : κ} {s : σ}

theorem askFamily_spec (hs : view.Holds k s) (e : Entry) {p : Path} (hp : view.Covers p) :
    (source.askFamily e p s).1 = e.familyAt view.family p ∧
      view.Holds k (source.askFamily e p s).2 := by
  unfold Source.askFamily Entry.familyAt
  split
  · exact view.architecture_spec hs p hp
  · exact ⟨rfl, hs⟩

theorem statisticsFor_spec (hs : view.Holds k s) (e : Entry) {p : Path} (hp : view.Covers p)
    (a : Architecture) :
    (source.statisticsFor e p a s).1 = (if e.hasPreset then view.known k p a else none) ∧
      view.Holds (if e.hasPreset then view.next k p a else k) (source.statisticsFor e p a s).2 := by
  unfold statisticsFor Entry.hasPreset
  split
  · exact view.statistics_spec hs p hp a
  · exact ⟨rfl, hs⟩

/-- The file of an entry is one of which an account is kept. -/
def CoversEntry (e : Entry) : Prop := ∀ p, source.resolve? e.name = some p → view.Covers p

/-- **One entry: the outcome, and the account after it.** -/
theorem apply_spec (hs : view.Holds k s) {e : Entry} (he : view.CoversEntry e) :
    (source.apply e s).1 = source.outcome? view.family (view.known k) e ∧
      view.Holds (view.after k e) (source.apply e s).2 := by
  cases hpath : source.resolve? e.name with
  | none =>
      simp only [apply, outcome?, after, fileOf?, hpath, Option.bind_none]
      exact ⟨rfl, hs⟩
  | some p =>
      cases hload : (source.load? p).filter fun tensors => !tensors.isEmpty with
      | none =>
          simp only [apply, applyAt, outcome?, after, fileOf?, hpath, hload, Option.bind_some,
            Option.map_none, Option.bind_none]
          exact ⟨rfl, hs⟩
      | some tensors =>
          have hp := he p hpath
          obtain ⟨hfamily, hstate⟩ := view.askFamily_spec hs e hp
          obtain ⟨hknown, hend⟩ := view.statisticsFor_spec hstate e hp (e.familyAt view.family p)
          simp only [apply, outcome?, after, fileOf?, hpath, hload, Option.bind_some,
            Option.map_some, applyAt_eq source hload, hfamily, hknown]
          exact ⟨trivial, hend⟩

/-- **All entries: the outcomes, and the account after them.** -/
theorem applyAll_spec (hs : view.Holds k s) {entries : List Entry}
    (hentries : ∀ e ∈ entries, view.CoversEntry e) :
    (source.applyAll entries s).1 = view.outcomes k entries ∧
      view.Holds (entries.foldl view.after k) (source.applyAll entries s).2 := by
  induction entries generalizing k s with
  | nil => exact ⟨rfl, hs⟩
  | cons e rest ih =>
      obtain ⟨hfirst, hstate⟩ := view.apply_spec hs (hentries e (List.mem_cons_self ..))
      obtain ⟨hrest, hend⟩ := ih hstate fun e' he' => hentries e' (List.mem_cons_of_mem _ he')
      refine ⟨?_, hend⟩
      show (source.apply e s).1.toList ++ (source.applyAll rest (source.apply e s).2).1 = _
      rw [hfirst, hrest, outcomes]

end View

/-! ## Sources without memory -/

/-- The answers of a source are functions of what is asked. -/
structure Fixed (source : Source σ) (family : Path → Architecture)
    (statistics : Path → Architecture → Option (Statistics Double)) : Prop where
  architecture : ∀ p s, (source.architecture p s).1 = family p
  statistics : ∀ p a s, (source.statistics? p a s).1 = statistics p a

namespace Fixed

variable {source} {family : Path → Architecture}
  {statistics : Path → Architecture → Option (Statistics Double)}

/-- There is nothing to keep account of. -/
def view (hfixed : source.Fixed family statistics) : View source Unit where
  family := family
  known _ := statistics
  next _ _ _ := ()
  Covers _ := True
  Holds _ _ := True
  architecture_spec _ p _ := ⟨hfixed.architecture p _, trivial⟩
  statistics_spec _ p _ a := ⟨hfixed.statistics p a _, trivial⟩

theorem outcomes_view (hfixed : source.Fixed family statistics) (entries : List Entry) :
    hfixed.view.outcomes () entries = entries.filterMap (source.outcome? family statistics) := by
  induction entries with
  | nil => rfl
  | cons e rest ih =>
      show (source.outcome? family statistics e).toList ++ hfixed.view.outcomes () rest = _
      rw [ih, List.filterMap_cons]
      cases source.outcome? family statistics e <;> rfl

/-- **Without memory, entries do not influence one another.** -/
theorem applyAll_eq (hfixed : source.Fixed family statistics) (entries : List Entry) (s : σ) :
    (source.applyAll entries s).1 = entries.filterMap (source.outcome? family statistics) :=
  (hfixed.view.applyAll_spec trivial fun _ _ _ _ => trivial).1.trans (hfixed.outcomes_view entries)

end Fixed

end Source

end LoraSchedule
