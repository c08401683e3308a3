import LoraSchedule.CommandLine.Run
import LoraSchedule.Proofs.Cache.Runs
import LoraSchedule.Proofs.Lists
import Mathlib.Logic.Relation

/-!
# Reports on files

Each file of a report has a task of its own.  All tasks share one cache, in which
a task looks for the family of its file and then for the statistics, and stores
what it has computed itself; between these steps any other task may take its
own.  So a task may find what another has stored, or compute what another is
computing, and the tasks may finish in any order.

It makes no difference, as for one path all tasks ask for the same family.
`Faithful` is the invariant of the cache, and `Stage.Sound` that of a task.

* `Stage.step_spec` shows that each step keeps both, and `Survey.run_spec` that
  any number of steps of any tasks does.
* `reaches_fileReport` says that a report is what a task comes to by itself.
* `stats_reports_each` says that all reports are those of fresh engines,
  whoever takes a step when.
-/

namespace LoraSchedule.CommandLine

open LoraSchedule.Json (Value)
open LoraSchedule.Number (Double)

variable (env : Environment) (engine : Engine) (architecture : Option Architecture)

/-! ## What a report says -/

/-- The family that a file is read as: the one that is given, else the one detected. -/
def familyOf (path : Path) : Architecture := architecture.getD (detect env.files path)

/-- The statistics of a file under this family, if it can be loaded. -/
def measured? (path : Path) : Option (Statistics Double) :=
  statisticsOf? env.files engine.loader path (familyOf env architecture path)

/-- The report on a file with a family and statistics. -/
def reportOn (path : Path) (family : Architecture) (statistics : Option (Statistics Double)) :
    Value :=
  let byRole (s : Statistics Double) : Value :=
    .object (s.energyByRole.map fun entry => (entry.1.name, Value.ofDouble entry.2))
  Value.sortFields (.object [
    ("path", .string path.text),
    ("architecture", .string family.name),
    ("energy_by_tag", (statistics.map byRole).getD .null),
    ("statistics", (statistics.map Statistics.toJson).getD .null)])

/-- What a report on a file says, whatever else is reported on. -/
def reportOf (path : Path) : Value :=
  reportOn path (familyOf env architecture path) (measured? env engine architecture path)

/-! ## Tasks -/

/-- How far the task of a file has come. -/
inductive Stage
  /-- Nothing has been asked for. -/
  | waiting
  /-- No family was kept, so it is being detected. -/
  | detecting
  | detected (family : Architecture)
  /-- No statistics were kept, so they are being computed. -/
  | measuring (family : Architecture)
  | done (family : Architecture) (statistics : Option (Statistics Double))

namespace Stage

/-- Where a task starts: a family that is given is not asked for. -/
def initial : Option Architecture → Stage
  | none => waiting
  | some family => detected family

/-- A step of a task: it looks into the cache, or stores what it has computed. -/
def step (path : Path) : Stage → Cache → Stage × Cache
  | waiting, c =>
    match c.get? path >>= CacheEntry.architecture with
    | some held => (detected held, c.countHit)
    | none => (detecting, c.countMiss)
  | detecting, c =>
    let found := detect env.files path
    (detected found, c.update path fun entry => { entry with architecture := some found })
  | detected family, c =>
    match c.get? path >>= CacheEntry.statistics with
    | some held => (done family (some held), c.countHit)
    | none => (measuring family, c.countMiss)
  | measuring family, c =>
    match statisticsOf? env.files engine.loader path family with
    | none => (done family none, c)
    | some found =>
      (done family (some found),
        c.update path fun entry => { entry with statistics := some found })
  | done family statistics, c => (done family statistics, c)

/-- The report of a task that is done. -/
def report? (path : Path) : Stage → Option Value
  | done family statistics => some (reportOn path family statistics)
  | _ => none

/-- How many steps a task takes at most until it is done. -/
def remaining : Stage → Nat
  | waiting => 4
  | detecting => 3
  | detected _ => 2
  | measuring _ => 1
  | done .. => 0

theorem remaining_initial_le : (initial architecture).remaining ≤ 4 := by
  cases architecture <;> simp [initial, remaining]

/-- A step brings a task closer to its end. -/
theorem remaining_step (path : Path) (stage : Stage) (c : Cache) :
    (stage.step env engine path c).1.remaining ≤ stage.remaining - 1 := by
  cases stage with
  | waiting => unfold step; dsimp only; split <;> simp [remaining]
  | detecting => simp [step, remaining]
  | detected family => unfold step; dsimp only; split <;> simp [remaining]
  | measuring family => unfold step; dsimp only; split <;> simp [remaining]
  | done family statistics => simp [step, remaining]

end Stage

/-! ## The invariant -/

/-- What a cache keeps about the files that are asked about is what a fresh engine
finds out. -/
structure Faithful (asked : Set Path) (c : Cache) : Prop where
  family : ∀ p ∈ asked, ∀ a : Architecture,
    (c.get? p >>= CacheEntry.architecture) = some a → a = detect env.files p
  statistics : ∀ p ∈ asked, ∀ s : Statistics Double,
    (c.get? p >>= CacheEntry.statistics) = some s → measured? env engine architecture p = some s

/-- What a task has found out is what a fresh engine does. -/
def Stage.Sound (path : Path) : Stage → Prop
  | waiting | detecting => architecture = none
  | detected family | measuring family => family = familyOf env architecture path
  | done family statistics =>
    family = familyOf env architecture path ∧ statistics = measured? env engine architecture path

section Invariant

variable {env engine architecture} {asked : Set Path} {c : Cache} {path : Path} {stage : Stage}

theorem faithful_empty : Faithful env engine architecture asked .empty where
  family _ _ _ h := by cases h
  statistics _ _ _ h := by cases h

theorem Faithful.keepFamily (h : Faithful env engine architecture asked c)
    (hasked : Path.ShownApart asked) (hpath : path ∈ asked) :
    Faithful env engine architecture asked
      (c.update path fun entry => { entry with architecture := some (detect env.files path) }) := by
  constructor
  · refine Cache.forall_get?_update (motive := fun p entry => ∀ a : Architecture,
      (entry >>= CacheEntry.architecture) = some a → a = detect env.files p) hasked c hpath _ ?_
      fun p hp _ => h.family p hp
    exact fun a ha => (Option.some.inj ha).symm
  · intro p hp s hs
    refine h.statistics p hp s (Eq.trans (Eq.symm ?_) hs)
    exact Cache.bind_get?_update c path p (fun _ => rfl) rfl

theorem Faithful.keepStatistics (h : Faithful env engine architecture asked c)
    (hasked : Path.ShownApart asked) (hpath : path ∈ asked) {found : Statistics Double}
    (hfound : measured? env engine architecture path = some found) :
    Faithful env engine architecture asked
      (c.update path fun entry => { entry with statistics := some found }) := by
  constructor
  · intro p hp a ha
    refine h.family p hp a (Eq.trans (Eq.symm ?_) ha)
    exact Cache.bind_get?_update c path p (fun _ => rfl) rfl
  · refine Cache.forall_get?_update (motive := fun p entry => ∀ s : Statistics Double,
      (entry >>= CacheEntry.statistics) = some s →
        measured? env engine architecture p = some s) hasked c hpath _ ?_
      fun p hp _ => h.statistics p hp
    exact fun s hs => hfound.trans hs

theorem Stage.sound_initial : (initial architecture).Sound env engine architecture path := by
  cases architecture with
  | none => rfl
  | some family => rfl

theorem Stage.Sound.report?_eq (h : stage.Sound env engine architecture path)
    (hdone : stage.remaining = 0) :
    stage.report? path = some (reportOf env engine architecture path) := by
  cases stage with
  | done family statistics =>
      obtain ⟨rfl, rfl⟩ := h
      rfl
  | _ => cases hdone

/-- **Each step of a task keeps the invariant.** -/
theorem Stage.step_spec (hasked : Path.ShownApart asked) (hpath : path ∈ asked)
    (hc : Faithful env engine architecture asked c)
    (hstage : stage.Sound env engine architecture path) :
    (stage.step env engine path c).1.Sound env engine architecture path ∧
      Faithful env engine architecture asked (stage.step env engine path c).2 := by
  cases stage with
  | waiting =>
      have hnone : architecture = none := hstage
      unfold step
      dsimp only
      split
      · rename_i held hheld
        refine ⟨?_, hc.family, hc.statistics⟩
        rw [Sound, familyOf, hnone, Option.getD_none]
        exact hc.family path hpath held hheld
      · exact ⟨hnone, hc.family, hc.statistics⟩
  | detecting =>
      have hnone : architecture = none := hstage
      refine ⟨?_, hc.keepFamily hasked hpath⟩
      show detect env.files path = familyOf env architecture path
      rw [familyOf, hnone, Option.getD_none]
  | detected family =>
      have hfamily : family = familyOf env architecture path := hstage
      unfold step
      dsimp only
      split
      · rename_i held hheld
        exact ⟨⟨hfamily, (hc.statistics path hpath held hheld).symm⟩, hc.family, hc.statistics⟩
      · exact ⟨hfamily, hc.family, hc.statistics⟩
  | measuring family =>
      have hfamily : family = familyOf env architecture path := hstage
      have hmeasured : statisticsOf? env.files engine.loader path family =
          measured? env engine architecture path := by
        rw [measured?, ← hfamily]
      unfold step
      dsimp only
      split
      · rename_i hnone
        exact ⟨⟨hfamily, hnone.symm.trans hmeasured⟩, hc⟩
      · rename_i found hfound
        have hkept := hmeasured.symm.trans hfound
        exact ⟨⟨hfamily, hkept.symm⟩, hc.keepStatistics hasked hpath hkept⟩
  | done family statistics => exact ⟨hstage, hc⟩

end Invariant

/-! ## A task by itself -/

/-- A task takes a step. -/
def Stage.Steps (path : Path) (before after : Stage × Cache) : Prop :=
  before.1.step env engine path before.2 = after

/-- A task takes steps while no other does. -/
def Stage.Reaches (path : Path) : Stage × Cache → Stage × Cache → Prop :=
  Relation.ReflTransGen (Steps env engine path)

/-- A task that asks for a family gets the one that the engine answers. -/
theorem Stage.reaches_detected (path : Path) (c : Cache) :
    Reaches env engine path (waiting, c) (detected (Engine.architecture env.files path false c).1,
      (Engine.architecture env.files path false c).2) := by
  unfold Engine.architecture
  cases hheld : c.get? path >>= CacheEntry.architecture with
  | some held =>
      rw [Cache.architecture_of_held Bool.false_ne_true hheld]
      refine .single ?_
      simp only [Steps, step, hheld]
  | none =>
      rw [Cache.architecture_of_needed (Or.inr hheld)]
      have hmissed : Steps env engine path (waiting, c) (detecting, c.countMiss) := by
        simp only [Steps, step, hheld]
      exact (Relation.ReflTransGen.single hmissed).tail rfl

/-- So does one that asks for statistics. -/
theorem Stage.reaches_done (path : Path) (family : Architecture) (c : Cache) :
    Reaches env engine path (detected family, c)
      (done family (engine.statistics? env.files path false family c).1,
        (engine.statistics? env.files path false family c).2) := by
  unfold Engine.statistics?
  cases hheld : c.get? path >>= CacheEntry.statistics with
  | some held =>
      rw [Cache.statistics_of_held Bool.false_ne_true hheld]
      refine .single ?_
      simp only [Steps, step, hheld]
  | none =>
      rw [Cache.statistics_of_needed (Or.inr hheld)]
      have hmissed :
          Steps env engine path (detected family, c) (measuring family, c.countMiss) := by
        simp only [Steps, step, hheld]
      refine (Relation.ReflTransGen.single hmissed).tail ?_
      cases hcompute : statisticsOf? env.files engine.loader path family <;>
        simp only [Steps, step, hcompute]

/-- **A report is what a task comes to by itself.** -/
theorem reaches_fileReport (path : Path) (c : Cache) :
    ∃ family statistics after,
      Stage.Reaches env engine path (.initial architecture, c) (.done family statistics, after) ∧
        fileReport env engine architecture path c = (reportOn path family statistics, after) := by
  cases architecture with
  | none =>
      exact ⟨_, _, _, (Stage.reaches_detected env engine path c).trans
        (Stage.reaches_done env engine path _ _), rfl⟩
  | some family => exact ⟨_, _, _, Stage.reaches_done env engine path family c, rfl⟩

section Alone

variable {env engine architecture} {asked : Set Path} {c : Cache} {path : Path}
  (hasked : Path.ShownApart asked)

include hasked

theorem Stage.Reaches.spec {before after : Stage × Cache} (h : Reaches env engine path before after)
    (hpath : path ∈ asked) (hstage : before.1.Sound env engine architecture path)
    (hc : Faithful env engine architecture asked before.2) :
    after.1.Sound env engine architecture path ∧
      Faithful env engine architecture asked after.2 := by
  induction h with
  | refl => exact ⟨hstage, hc⟩
  | tail _ hstep ih =>
      rw [← hstep]
      exact step_spec hasked hpath ih.2 ih.1

theorem fileReport_spec (hpath : path ∈ asked) (hc : Faithful env engine architecture asked c) :
    (fileReport env engine architecture path c).1 = reportOf env engine architecture path ∧
      Faithful env engine architecture asked
        (fileReport env engine architecture path c).2 := by
  obtain ⟨family, statistics, after, hreaches, hreport⟩ :=
    reaches_fileReport env engine architecture path c
  obtain ⟨⟨hfamily, hstatistics⟩, hafter⟩ := hreaches.spec hasked hpath Stage.sound_initial hc
  rw [hreport, hfamily, hstatistics]
  exact ⟨rfl, hafter⟩

/-- **One task after the other, the reports are those of fresh engines.** -/
theorem fileReports_spec {paths : List Path} (hpaths : ∀ path ∈ paths, path ∈ asked)
    (hc : Faithful env engine architecture asked c) :
    (fileReports env engine architecture paths c).1 =
      paths.map (reportOf env engine architecture) := by
  induction paths generalizing c with
  | nil => rfl
  | cons path rest ih =>
      obtain ⟨hreport, hafter⟩ := fileReport_spec hasked (hpaths path (List.mem_cons_self ..)) hc
      have hrest := ih (fun other hother => hpaths other (List.mem_cons_of_mem _ hother)) hafter
      rw [List.map_cons, ← hreport, ← hrest]
      rfl

end Alone

/-! ## Tasks at work together -/

/-- The tasks of a report, and the cache that they share. -/
structure Survey where
  tasks : List (Path × Stage)
  cache : Cache

namespace Survey

/-- The tasks for some files, of a fresh engine. -/
def start (paths : List Path) : Survey :=
  ⟨paths.map fun path => (path, .initial architecture), .empty⟩

/-- A task takes its next step. -/
def turn (s : Survey) (index : Nat) : Survey :=
  match s.tasks[index]? with
  | none => s
  | some (path, stage) =>
    let next := stage.step env engine path s.cache
    ⟨s.tasks.set index (path, next.1), next.2⟩

/-- Tasks take steps, in this order. -/
def run (s : Survey) (turns : List Nat) : Survey := turns.foldl (turn env engine) s

/-- How many steps the task of a file takes at most from here on. -/
def remaining (s : Survey) (index : Nat) : Nat :=
  (s.tasks[index]?.map fun task => task.2.remaining).getD 0

/-- All tasks are done. -/
def IsDone (s : Survey) : Prop := ∀ task ∈ s.tasks, task.2.remaining = 0

/-- The reports of all tasks in their order, once all are done. -/
def reports? (s : Survey) : Option (List Value) :=
  s.tasks.mapM fun task => task.2.report? task.1

/-! ### Progress -/

theorem fst_tasks_start (paths : List Path) :
    (start architecture paths).tasks.map Prod.fst = paths := by
  rw [start, List.map_map]
  exact List.map_id' paths

theorem fst_tasks_turn (s : Survey) (index : Nat) :
    (s.turn env engine index).tasks.map Prod.fst = s.tasks.map Prod.fst := by
  unfold turn
  split
  · rfl
  · rename_i path stage htask
    obtain ⟨hlt, hpath⟩ : ∃ hlt, (s.tasks.map Prod.fst)[index] = path := by
      rw [← List.getElem?_eq_some_iff, List.getElem?_map, htask, Option.map_some]
    rw [List.map_set]
    simp only [← hpath, List.set_getElem_self]

theorem fst_tasks_run (s : Survey) (turns : List Nat) :
    (s.run env engine turns).tasks.map Prod.fst = s.tasks.map Prod.fst := by
  induction turns generalizing s with
  | nil => rfl
  | cons index rest ih => exact (ih _).trans (s.fst_tasks_turn env engine index)

/-- A task comes closer to its end with each of its own steps. -/
theorem remaining_turn (s : Survey) (index other : Nat) :
    (s.turn env engine index).remaining other ≤ s.remaining other - [index].count other := by
  unfold turn
  split
  · rename_i hnone
    by_cases hsame : index = other
    · subst hsame
      simp [remaining, hnone]
    · rw [List.count_singleton, if_neg (by simpa using hsame), Nat.sub_zero]
  · rename_i path stage htask
    obtain ⟨hlt, hget⟩ := List.getElem?_eq_some_iff.mp htask
    by_cases hsame : index = other
    · subst hsame
      have hstep := stage.remaining_step env engine path s.cache
      simpa [remaining, hlt, hget] using hstep
    · simp [remaining, hsame]

theorem remaining_run (s : Survey) (turns : List Nat) (index : Nat) :
    (s.run env engine turns).remaining index ≤ s.remaining index - turns.count index := by
  induction turns generalizing s with
  | nil => exact le_rfl
  | cons first rest ih =>
      have hcount : (first :: rest).count index = [first].count index + rest.count index := by
        rw [← List.count_append, List.singleton_append]
      calc (s.run env engine (first :: rest)).remaining index
          ≤ (s.turn env engine first).remaining index - rest.count index := ih _
        _ ≤ s.remaining index - [first].count index - rest.count index :=
          Nat.sub_le_sub_right (s.remaining_turn env engine first index) _
        _ = s.remaining index - (first :: rest).count index := by
          rw [hcount, Nat.sub_add_eq]

/-- Tasks are done when each has taken as many steps as it may need. -/
theorem isDone_run {paths : List Path} {turns : List Nat}
    (hturns : ∀ index < paths.length, 4 ≤ turns.count index) :
    ((start architecture paths).run env engine turns).IsDone := by
  intro task htask
  obtain ⟨index, hget⟩ := List.mem_iff_getElem?.mp htask
  have hpaths := (start architecture paths).fst_tasks_run env engine turns
  rw [fst_tasks_start] at hpaths
  have hindex : index < paths.length := by
    rw [← hpaths, List.length_map]
    exact (List.getElem?_eq_some_iff.mp hget).1
  have hstart : (start architecture paths).remaining index ≤ 4 := by
    simpa [remaining, start, hindex] using Stage.remaining_initial_le architecture
  have hrun := (start architecture paths).remaining_run env engine turns index
  have hcount := hturns index hindex
  rw [remaining, hget, Option.map_some, Option.getD_some] at hrun
  omega

/-! ### The invariant -/

/-- All that is known is what a fresh engine finds out. -/
structure Sound (asked : Set Path) (s : Survey) : Prop where
  cache : Faithful env engine architecture asked s.cache
  paths : ∀ task ∈ s.tasks, task.1 ∈ asked
  tasks : ∀ task ∈ s.tasks, task.2.Sound env engine architecture task.1

variable {env engine architecture} {asked : Set Path} {s : Survey}

theorem sound_start (paths : List Path) :
    (start architecture paths).Sound env engine architecture {p | p ∈ paths} := by
  refine ⟨faithful_empty, fun task htask => ?_, fun task htask => ?_⟩
  · obtain ⟨path, hpath, rfl⟩ := List.mem_map.mp htask
    exact hpath
  · obtain ⟨path, -, rfl⟩ := List.mem_map.mp htask
    exact Stage.sound_initial

/-- **A step of any task keeps the invariant.** -/
theorem turn_spec (hasked : Path.ShownApart asked) (h : s.Sound env engine architecture asked)
    (index : Nat) : (s.turn env engine index).Sound env engine architecture asked := by
  unfold turn
  split
  · exact h
  · rename_i path stage htask
    have hmem := List.mem_of_getElem? htask
    have hpath : path ∈ asked := h.paths _ hmem
    obtain ⟨hstage, hcache⟩ := Stage.step_spec hasked hpath h.cache (h.tasks _ hmem)
    refine ⟨hcache, fun task hother => ?_, fun task hother => ?_⟩
    · rcases List.mem_or_eq_of_mem_set hother with hother | rfl
      · exact h.paths task hother
      · exact hpath
    · rcases List.mem_or_eq_of_mem_set hother with hother | rfl
      · exact h.tasks task hother
      · exact hstage

/-- **So do any steps of any tasks.** -/
theorem run_spec (hasked : Path.ShownApart asked) (h : s.Sound env engine architecture asked)
    (turns : List Nat) : (s.run env engine turns).Sound env engine architecture asked := by
  induction turns generalizing s with
  | nil => exact h
  | cons index rest ih => exact ih (turn_spec hasked h index)

/-- Once all tasks are done, the reports are those of fresh engines. -/
theorem reports?_of_isDone (h : s.Sound env engine architecture asked) (hdone : s.IsDone) :
    s.reports? = some ((s.tasks.map Prod.fst).map (reportOf env engine architecture)) := by
  rw [List.map_map]
  refine mapM_eq_some_map fun task htask => ?_
  exact (h.tasks task htask).report?_eq (hdone task htask)

end Survey

/-- **The reports on several files**, if their paths are shown apart.  There is one
for each path, in the order of the arguments, and it says what a fresh engine
finds out about that file alone: the family, the one given or else detected, the
statistics under this family, and the energies of these.  The tasks of the files
come to the same reports, whoever takes a step when; and each is done after four
steps of its own. -/
theorem stats_reports_each {paths : List Path} (hpaths : Path.ShownApart {p | p ∈ paths}) :
    let reports := paths.map (reportOf env engine architecture)
    commandLines? env engine (.stats paths architecture) =
        some [String.ofList (Value.array reports).render] ∧
      (reports = paths.flatMap fun path =>
        ((fileReports env engine architecture [path]).run .empty).1) ∧
      ∀ turns : List Nat,
        let after := (Survey.start architecture paths).run env engine turns
        (after.IsDone → after.reports? = some reports) ∧
          ((∀ index < paths.length, 4 ≤ turns.count index) → after.IsDone) := by
  intro reports
  have hreports : ((fileReports env engine architecture paths).run .empty).1 = reports :=
    fileReports_spec hpaths (fun _ h => h) faithful_empty
  have halone : ∀ path, ((fileReports env engine architecture [path]).run .empty).1 =
      [reportOf env engine architecture path] :=
    fun path => fileReports_spec (Path.shownApart_singleton path) (fun _ => List.mem_singleton.mp)
      faithful_empty
  refine ⟨?_, ?_, fun turns => ⟨fun hdone => ?_, Survey.isDone_run env engine architecture⟩⟩
  · rw [commandLines?, statsLines, hreports]
  · simp only [halone]
    exact (List.flatMap_pure_eq_map _ paths).symm
  · have hsound : ((Survey.start architecture paths).run env engine turns).Sound env engine
        architecture {p | p ∈ paths} :=
      Survey.run_spec hpaths (Survey.sound_start paths) turns
    rw [Survey.reports?_of_isDone hsound hdone, Survey.fst_tasks_run, Survey.fst_tasks_start]

/-- A path that is given twice, with a missing one between, and the tasks taking
turns from the last to the first. -/
theorem stats_reports_each_repeated :
    let env : Environment := ⟨⟨[(["ink.pt"], .file [])], []⟩, none, []⟩
    let engine : Engine := .ofConfig (.standard none)
    let paths : List Path := ["ink.pt", "none.pt", "ink.pt"]
    let turns := [2, 1, 0, 2, 1, 0, 2, 1, 0, 2, 1, 0]
    Path.ShownApart {p | p ∈ paths} ∧
      ((Survey.start none paths).run env engine turns).reports? =
        some (paths.map (reportOf env engine none)) := by
  intro env engine paths turns
  have hpaths : Path.ShownApart {p | p ∈ paths} := by
    refine Path.shownApart_texts.mono fun p hp => ?_
    simp only [paths, Set.mem_ofPred_eq, List.mem_cons, List.not_mem_nil, or_false] at hp
    rcases hp with rfl | rfl | rfl
    exacts [⟨_, rfl⟩, ⟨_, rfl⟩, ⟨_, rfl⟩]
  obtain ⟨-, -, hturns⟩ := stats_reports_each env engine none hpaths
  exact ⟨hpaths, (hturns turns).1 ((hturns turns).2 (by decide))⟩

/-- Two files whose paths are shown alike: a container without tensors, and a file
that is none. -/
def mergedFiles : FileTree :=
  ⟨[([0xFF :: (".safetensors" : Bytes)], .file [2, 0, 0, 0, 0, 0, 0, 0, 0x7B, 0x7D]),
    ([0xFE :: (".safetensors" : Bytes)], .file [])], []⟩

/-- Whether a report has statistics. -/
def hasStatistics : Value → Bool
  | .object fields => fields.any fun field =>
      field.1 = "statistics" && !(field.2 matches .null)
  | _ => false

/-- The reports on two such files are not those on the files alone: the second has
the statistics of the first.  And a command line without any path, or with an
empty one, is not understood. -/
theorem merged_reports :
    let env : Environment := ⟨mergedFiles, none, []⟩
    let engine : Engine := .ofConfig (.standard none)
    let paths := [Path.ofByte 0xFF, Path.ofByte 0xFE]
    ((fileReports env engine none paths).run .empty).1.map hasStatistics = [true, true] ∧
      (paths.map (reportOf env engine none)).map hasStatistics = [true, false] ∧
      (∀ env, run env ["stats"] = .usageError) ∧ ∀ env, run env ["stats", ""] = .usageError :=
  ⟨by decide +kernel, by decide +kernel, fun _ => rfl, fun _ => rfl⟩

end LoraSchedule.CommandLine
