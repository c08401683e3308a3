import LoraSchedule.Engine
import LoraSchedule.Proofs.Cache.Runs
import LoraSchedule.Proofs.Resolution.Result
import Mathlib.Logic.Function.Basic

/-!
# What an engine remembers

The cache keeps the statistics of a file under its path alone, and not under the
family that the file was read as.  So what an engine answers depends on its past
in one way: on the family under which the statistics that it still keeps were
computed.  A `Ledger` records that family for each path.  This supposes that the
paths the cache is asked about are shown apart, as it would take others for one
(`Request.Touches` tells these paths, `answers_depend_on_past` has two others).

* `Keeps` is the invariant: what a cache holds of these paths are the statistics
  that the ledger tells of, and families as they are detected.
* `serve_spec` shows that each request leads from a cache and its ledger to a
  cache and its ledger, and `run_spec` that any number of them does.
* `answers_after_run` says what an engine answers after any past.
-/

namespace LoraSchedule

open LoraSchedule.Number (Double)

/-- For each path, the family under which the statistics kept were computed. -/
abbrev Ledger := Path → Option Architecture

namespace Engine

variable (engine : Engine) (t : FileTree)

/-! ## Requests -/

/-- What an engine is asked for, or told to forget. -/
inductive Request
  | architecture (p : Path) (force : Bool)
  | lineage (p : Path) (force : Bool)
  | statistics (p : Path) (force : Bool) (architecture : Architecture)
  | resolve (entries : List Entry) (text : Option String) (prior : Option Plan)
  | clear

/-- The paths that the cache may be asked about by a request: for a schedule, those
that its candidates are resolved to. -/
def Request.Touches : Request → Path → Prop
  | .architecture p _, q | .lineage p _, q | .statistics p _ _, q => q = p
  | .resolve entries text prior, q =>
      ∃ e ∈ candidates entries text prior, engine.resolvePath? t e.name = some q
  | .clear, _ => False

/-- The cache after a request. -/
def serve (c : Cache) : Request → Cache
  | .architecture p force => (architecture t p force c).2
  | .lineage p force => (engine.lineage t p force c).2
  | .statistics p force a => (engine.statistics? t p force a c).2
  | .resolve entries text prior => (engine.resolve t entries text prior c).2
  | .clear => c.clear

/-- The cache of a fresh engine after requests. -/
def run (requests : List Request) : Cache := requests.foldl (engine.serve t) .empty

/-! ## Ledgers -/

/-- What is kept after statistics were asked for: they are computed if that is
wanted or none are kept, and kept if the file can be loaded. -/
def look (L : Ledger) (p : Path) (force : Bool) (a : Architecture) : Ledger :=
  if (force ∨ L p = none) ∧ (statisticsOf? t engine.loader p a).isSome then
    Function.update L p (some a)
  else L

/-- What is kept after an entry was applied: a preset asks for the statistics of
the file of the entry. -/
def note (L : Ledger) (e : Entry) : Ledger :=
  match (engine.source t).fileOf? e with
  | none => L
  | some file =>
      if e.hasPreset then engine.look t L file.1 false (e.familyAt (detect t) file.1) else L

/-- What is kept after a request. -/
def record (L : Ledger) : Request → Ledger
  | .architecture _ _ => L
  | .lineage p force => if detect t p = .sdxl then engine.look t L p force .sdxl else L
  | .statistics p force a => engine.look t L p force a
  | .resolve entries text prior => (candidates entries text prior).foldl (engine.note t) L
  | .clear => fun _ => none

/-- What a fresh engine keeps after requests. -/
def ledger (requests : List Request) : Ledger := requests.foldl (engine.record t) fun _ => none

/-- What is answered where this much is kept. -/
def known (L : Ledger) (p : Path) (a : Architecture) : Option (Statistics Double) :=
  statisticsOf? t engine.loader p ((L p).getD a)

/-! ## The invariant -/

/-- A cache holds of some paths what its ledger tells of. -/
structure Keeps (paths : Set Path) (L : Ledger) (c : Cache) : Prop where
  family : ∀ p ∈ paths, ∀ a, (c.get? p >>= CacheEntry.architecture) = some a → a = detect t p
  statistics : ∀ p ∈ paths, (c.get? p >>= CacheEntry.statistics) =
    (L p).bind (statisticsOf? t engine.loader p)
  computed : ∀ p a, L p = some a → (statisticsOf? t engine.loader p a).isSome = true

variable {engine t} {paths : Set Path} {L : Ledger} {c : Cache}

theorem keeps_of_forgotten (paths : Set Path) (h : ∀ p, c.get? p = none) :
    engine.Keeps t paths (fun _ => none) c :=
  ⟨fun p _ _ hp => by simp [h p] at hp, fun p _ => by rw [h p]; rfl, fun _ _ hp => by cases hp⟩

section ShownApart

variable (hpaths : Path.ShownApart paths)

include hpaths

/-- Statistics that are put into a cache go into its ledger. -/
theorem Keeps.update (h : engine.Keeps t paths L c) {p : Path} (hp : p ∈ paths) {a : Architecture}
    {found : Statistics Double} (hfound : statisticsOf? t engine.loader p a = some found) :
    engine.Keeps t paths (Function.update L p (some a))
      (c.countMiss.update p fun entry => { entry with statistics := some found }) := by
  refine ⟨?_, ?_, ?_⟩
  · intro q hq b hfamily
    have hframe : ((c.countMiss.update p fun entry => { entry with statistics := some found }).get?
        q >>= CacheEntry.architecture) = (c.get? q >>= CacheEntry.architecture) :=
      Cache.bind_get?_update _ p q (fun _ => rfl) rfl
    exact h.family q hq b (hframe.symm.trans hfamily)
  · refine Cache.forall_get?_update (motive := fun q entry => (entry >>= CacheEntry.statistics) =
      (Function.update L p (some a) q).bind (statisticsOf? t engine.loader q)) hpaths _ hp _ ?_
      fun q hq hne => ?_
    · simp [hfound]
    · rw [Function.update_of_ne hne]
      exact h.statistics q hq
  · intro q b hq
    by_cases hsame : q = p
    · subst hsame
      rw [Function.update_self] at hq
      obtain rfl := Option.some.inj hq
      simp [hfound]
    · rw [Function.update_of_ne hsame] at hq
      exact h.computed q b hq

/-- Families are answered as they are detected, kept or not. -/
theorem architecture_spec (h : engine.Keeps t paths L c) {p : Path} (hp : p ∈ paths)
    (force : Bool) :
    (architecture t p force c).1 = detect t p ∧
      engine.Keeps t paths L (architecture t p force c).2 := by
  unfold architecture Cache.architecture
  split
  · rename_i held hheld
    have hkept : (c.get? p >>= CacheEntry.architecture) = some held := by
      cases force with
      | true => cases hheld
      | false => exact hheld
    exact ⟨h.family p hp held hkept, h.family, h.statistics, h.computed⟩
  · refine ⟨rfl, ?_, ?_, h.computed⟩
    · refine Cache.forall_get?_update (motive := fun q entry =>
        ∀ a, (entry >>= CacheEntry.architecture) = some a → a = detect t q) hpaths _ hp _ ?_
        fun q hq _ => h.family q hq
      exact fun a hfamily => (Option.some.inj hfamily).symm
    · intro q hq
      have hframe : ((c.countMiss.update p fun entry =>
          { entry with architecture := some (detect t p) }).get? q >>= CacheEntry.statistics) =
            (c.get? q >>= CacheEntry.statistics) :=
        Cache.bind_get?_update _ p q (fun _ => rfl) rfl
      exact hframe.trans (h.statistics q hq)

/-- **Statistics are answered under the family asked for, unless some are kept:
then under the family in the ledger.** -/
theorem statistics?_spec (h : engine.Keeps t paths L c) {p : Path} (hp : p ∈ paths) (force : Bool)
    (a : Architecture) :
    (engine.statistics? t p force a c).1 =
        statisticsOf? t engine.loader p (if force then a else (L p).getD a) ∧
      engine.Keeps t paths (engine.look t L p force a) (engine.statistics? t p force a c).2 := by
  unfold statistics? Cache.statistics
  split
  · rename_i held hheld
    cases force with
    | true => cases hheld
    | false =>
        have hkept : (c.get? p >>= CacheEntry.statistics) = some held := hheld
        rw [h.statistics p hp] at hkept
        obtain ⟨b, hb, hstatistics⟩ := Option.bind_eq_some_iff.mp hkept
        have hsame : engine.look t L p false a = L := if_neg (by simp [hb])
        rw [hsame]
        refine ⟨?_, h.family, h.statistics, h.computed⟩
        simp [hb, hstatistics]
  · rename_i hmiss
    -- Nothing is kept, or it is not asked for: the file is read under the family asked for.
    have hask : force = true ∨ L p = none := by
      cases force with
      | true => exact Or.inl rfl
      | false =>
          have hkept : (c.get? p >>= CacheEntry.statistics) = none := hmiss
          rw [h.statistics p hp] at hkept
          refine Or.inr (Option.eq_none_iff_forall_ne_some.mpr ?_)
          intro b hb
          have hsome := h.computed p b hb
          rw [hb, Option.bind_some] at hkept
          simp [hkept] at hsome
    have hfamily : (if force then a else (L p).getD a) = a := by
      rcases hask with rfl | hnone
      · rfl
      · simp [hnone]
    rw [hfamily]
    cases hcompute : statisticsOf? t engine.loader p a with
    | none =>
        have hsame : engine.look t L p force a = L := if_neg (by simp [hcompute])
        rw [hsame]
        exact ⟨rfl, h.family, h.statistics, h.computed⟩
    | some found =>
        have hlook : engine.look t L p force a = Function.update L p (some a) :=
          if_pos ⟨hask, by simp [hcompute]⟩
        rw [hlook]
        exact ⟨rfl, h.update hpaths hp hcompute⟩

/-! ## Requests keep the invariant -/

/-- The ledger is what an engine has to be known by. -/
def view (engine : Engine) (t : FileTree) : (engine.source t).View Ledger where
  family := detect t
  known := engine.known t
  next L p a := engine.look t L p false a
  Covers p := p ∈ paths
  Holds := engine.Keeps t paths
  architecture_spec h _ hp := architecture_spec hpaths h hp false
  statistics_spec h _ hp a := statistics?_spec hpaths h hp false a

theorem resolve_spec (h : engine.Keeps t paths L c) {entries : List Entry} {text : Option String}
    {prior : Option Plan}
    (hentries : ∀ p, Request.Touches engine t (.resolve entries text prior) p → p ∈ paths) :
    (engine.resolve t entries text prior c).1.plan.hooks =
        (prior.map Plan.hooks).getD [] ++
          ((engine.view hpaths t).outcomes L (candidates entries text prior)).map Applied.hook ∧
      engine.Keeps t paths ((candidates entries text prior).foldl (engine.note t) L)
        (engine.resolve t entries text prior c).2 := by
  have hcovers : ∀ e ∈ candidates entries text prior, (engine.view hpaths t).CoversEntry e :=
    fun e he p hp => hentries p ⟨e, he, hp⟩
  obtain ⟨hresult, hstate⟩ := (engine.view hpaths t).applyAll_spec h hcovers
  rw [resolve, Source.resolve_eq]
  refine ⟨?_, hstate⟩
  simp only [Plan.compose, hresult]

omit hpaths in
/-- The lineage asks for the family, and then for statistics if it is plain
SDXL. -/
theorem snd_lineage (c : Cache) (p : Path) (force : Bool) :
    (engine.lineage t p force c).2 =
      if (architecture t p force c).1 = .sdxl then
        (engine.statistics? t p force .sdxl (architecture t p force c).2).2
      else (architecture t p force c).2 := by
  unfold lineage
  rcases hasked : architecture t p force c with ⟨family, state⟩
  simp only [bind, StateT.bind, hasked]
  by_cases hsdxl : family = .sdxl
  · subst hsdxl
    rcases hknown : engine.statistics? t p force .sdxl state with ⟨known, last⟩
    simp only [ne_eq, not_true_eq_false, if_true, if_false, StateT.bind, hknown]
    cases known <;> rfl
  · simp only [ne_eq, hsdxl, not_false_eq_true, if_true, if_false]
    rfl

theorem lineage_spec (h : engine.Keeps t paths L c) {p : Path} (hp : p ∈ paths) (force : Bool) :
    engine.Keeps t paths (if detect t p = .sdxl then engine.look t L p force .sdxl else L)
      (engine.lineage t p force c).2 := by
  obtain ⟨hfamily, hstate⟩ := architecture_spec hpaths h hp force
  rw [snd_lineage, hfamily]
  split
  · exact (statistics?_spec hpaths hstate hp force .sdxl).2
  · exact hstate

/-- **Each request leads to a cache that holds what the ledger tells of.** -/
theorem serve_spec (h : engine.Keeps t paths L c) {request : Request}
    (hrequest : ∀ p, request.Touches engine t p → p ∈ paths) :
    engine.Keeps t paths (engine.record t L request) (engine.serve t c request) := by
  cases request with
  | architecture p force => exact (architecture_spec hpaths h (hrequest p rfl) force).2
  | lineage p force => exact lineage_spec hpaths h (hrequest p rfl) force
  | statistics p force a => exact (statistics?_spec hpaths h (hrequest p rfl) force a).2
  | resolve entries text prior => exact (resolve_spec hpaths h hrequest).2
  | clear => exact keeps_of_forgotten paths fun _ => rfl

/-- **So does any number of requests to a fresh engine.** -/
theorem run_spec {requests : List Request}
    (hrequests : ∀ request ∈ requests, ∀ p, request.Touches engine t p → p ∈ paths) :
    engine.Keeps t paths (engine.ledger t requests) (engine.run t requests) := by
  have hstart : engine.Keeps t paths (fun _ => none) .empty := keeps_of_forgotten paths fun _ => rfl
  have hfold : ∀ (requests : List Request) {L : Ledger} {c : Cache},
      (∀ request ∈ requests, ∀ p, request.Touches engine t p → p ∈ paths) →
      engine.Keeps t paths L c → engine.Keeps t paths (requests.foldl (engine.record t) L)
        (requests.foldl (engine.serve t) c) := by
    intro requests
    induction requests with
    | nil => exact fun _ h => h
    | cons request rest ih =>
        intro L c hrequests h
        refine ih (fun other hother => hrequests other (List.mem_cons_of_mem _ hother)) ?_
        exact serve_spec hpaths h (hrequests request (List.mem_cons_self ..))
  exact hfold requests hrequests hstart

end ShownApart

/-! ## A file that two families read differently -/

/-- A container with one tensor.  Its name has the word for blocks of Flux; for
SDXL it is just a numbered layer. -/
def sampleBytes : Bytes :=
  [70, 0, 0, 0, 0, 0, 0, 0] ++
    (("\x7b\"double_blocks.0.w\":\x7b\"dtype\":\"F32\",\"shape\":[1]," ++
      "\"data_offsets\":[0,4]\x7d\x7d").toList.map fun c => UInt8.ofNat c.toNat) ++
    [0, 0, 128, 63]

def sampleTree : FileTree := ⟨[(["ink.safetensors"], .file sampleBytes)], []⟩

def samplePath : Path := "/ink.safetensors"

def sampleEngine : Engine := .ofConfig ⟨["/"], ["safetensors"], .default⟩

def sampleEntry (a : Architecture) : Entry :=
  { Entry.ofName "ink.safetensors" with architecture := a, preset := some "STYLE_FOCUSED" }

/-! ## Answers after any past -/

theorem ledger_append (past later : List Request) :
    engine.ledger t (past ++ later) = later.foldl (engine.record t) (engine.ledger t past) :=
  List.foldl_append

/-- A schedule of enabled entries touches the paths of these. -/
theorem touched_of_enabled {entries : List Entry} (henabled : ∀ e ∈ entries, e.enabled = true)
    (hcovered : ∀ e ∈ entries, ∀ p, engine.resolvePath? t e.name = some p → p ∈ paths)
    (prior : Option Plan) :
    ∀ p, Request.Touches engine t (.resolve entries none prior) p → p ∈ paths := by
  rintro p ⟨e, he, hp⟩
  rw [candidates_of_enabled henabled] at he
  exact hcovered e he p hp

/-- Where the ledger has nothing against it, an entry is applied as by an engine
without a past. -/
theorem outcome?_eq_fresh {e : Entry} {L : Ledger}
    (hagrees : ∀ p, engine.resolvePath? t e.name = some p →
      ∀ a ∈ L p, a = e.familyAt (detect t) p) :
    (engine.source t).outcome? (detect t) (engine.known t L) e =
      (engine.source t).outcome? (detect t) (engine.known t fun _ => none) e := by
  refine (engine.source t).outcome?_congr fun p hpath => ?_
  have hfamily : (L p).getD (e.familyAt (detect t) p) = e.familyAt (detect t) p := by
    cases hkept : L p with
    | none => rw [Option.getD_none]
    | some a => rw [Option.getD_some, hagrees p hpath a hkept]
  rw [known, known, hfamily, Option.getD_none]

/-- **What an engine answers after any past**, if the paths it was and is asked
about are shown apart.  Statistics are those of the file under the family asked
for if they are computed now, else under the family in the ledger.  Each
candidate of a schedule gets the hook that this family gives it; and where the
ledger does not hold another family for its file, this is the hook that a fresh
engine gives to the entry alone. -/
theorem answers_after_run (engine : Engine) (t : FileTree) {paths : Set Path}
    (hpaths : Path.ShownApart paths) (past : List Request)
    (hpast : ∀ request ∈ past, ∀ p, request.Touches engine t p → p ∈ paths) :
    (∀ p ∈ paths, ∀ (force : Bool) (a : Architecture),
      (engine.statistics? t p force a (engine.run t past)).1 =
        statisticsOf? t engine.loader p (if force then a else (engine.ledger t past p).getD a)) ∧
    ∀ (entries : List Entry) (text : Option String) (prior : Option Plan)
      (before : List Entry) (e : Entry) (after : List Entry),
      (∀ p, Request.Touches engine t (.resolve entries text prior) p → p ∈ paths) →
      candidates entries text prior = before ++ e :: after →
      let kept := engine.ledger t (past ++ [.resolve before none none])
      let own := (((engine.source t).outcome? (detect t) (engine.known t kept) e).map
        Applied.hook).toList
      (∃ others, (engine.resolve t entries text prior (engine.run t past)).1.plan.hooks =
        (engine.resolve t before none prior (engine.run t past)).1.plan.hooks ++ own ++ others) ∧
        ((∀ p, engine.resolvePath? t e.name = some p → ∀ a ∈ kept p, a = e.familyAt (detect t) p) →
          own = (engine.resolve t [e] none none .empty).1.plan.hooks) := by
  have hrun := run_spec hpaths hpast
  refine ⟨fun p hp force a => (statistics?_spec hpaths hrun hp force a).1, ?_⟩
  intro entries text prior before e after htouched hcandidates kept own
  have henabled : ∀ e' ∈ before ++ e :: after, e'.enabled = true :=
    fun e' he' => enabled_of_mem_candidates (hcandidates ▸ he')
  have hcovered : ∀ e' ∈ before ++ e :: after, ∀ p, engine.resolvePath? t e'.name = some p →
      p ∈ paths :=
    fun e' he' p hp => htouched p ⟨e', hcandidates ▸ he', hp⟩
  have hbefore : ∀ e' ∈ before, e' ∈ before ++ e :: after := fun _ => List.mem_append_left _
  have halone : ∀ e' ∈ [e], e' ∈ before ++ e :: after := by
    rintro e' he'
    obtain rfl := List.mem_singleton.mp he'
    exact List.mem_append_right _ (List.mem_cons_self ..)
  have hkept : kept = before.foldl (engine.view hpaths t).after (engine.ledger t past) := by
    show engine.ledger t (past ++ [.resolve before none none]) = _
    rw [ledger_append, List.foldl_cons, List.foldl_nil, record,
      candidates_of_enabled fun e' he' => henabled e' (hbefore e' he')]
    rfl
  have hown : ((engine.source t).outcome? (engine.view hpaths t).family
      ((engine.view hpaths t).known
        (before.foldl (engine.view hpaths t).after (engine.ledger t past))) e).toList.map
          Applied.hook = own := by
    rw [← hkept]
    show _ = (((engine.source t).outcome? (detect t) (engine.known t kept) e).map
      Applied.hook).toList
    rw [Option.toList_map]
    rfl
  refine ⟨⟨((engine.view hpaths t).outcomes ((engine.view hpaths t).after
    (before.foldl (engine.view hpaths t).after (engine.ledger t past)) e) after).map
      Applied.hook, ?_⟩, fun hagrees => ?_⟩
  · have htouchedBefore := touched_of_enabled (fun e' he' => henabled e' (hbefore e' he'))
      (fun e' he' => hcovered e' (hbefore e' he')) prior
    rw [(resolve_spec hpaths hrun htouched).1, (resolve_spec hpaths hrun htouchedBefore).1,
      hcandidates, candidates_of_enabled fun e' he' => henabled e' (hbefore e' he'),
      Source.View.outcomes_append, Source.View.outcomes, List.map_append, List.map_append, hown]
    simp only [List.append_assoc]
  · have hfresh : engine.Keeps t paths (fun _ => none) .empty :=
      keeps_of_forgotten paths fun _ => rfl
    have htouchedAlone := touched_of_enabled (fun e' he' => henabled e' (halone e' he'))
      (fun e' he' => hcovered e' (halone e' he')) none
    show (((engine.source t).outcome? (detect t) (engine.known t kept) e).map
      Applied.hook).toList = _
    rw [(resolve_spec hpaths hfresh htouchedAlone).1,
      candidates_of_enabled fun e' he' => henabled e' (halone e' he'), outcome?_eq_fresh hagrees,
      Option.toList_map]
    simp [Source.View.outcomes, view]

/-- Two files whose paths are shown alike, of which only the first can be loaded. -/
def mergedTree : FileTree :=
  ⟨[([0xFF :: (".safetensors" : Bytes)], .file sampleBytes),
    ([0xFE :: (".safetensors" : Bytes)], .file [])], []⟩

/-- Answers that do depend on the past: after the statistics for SDXL, those for
Flux are the same, and an entry for Flux is not scaled.  And after those of a
file, the same are answered for another whose path is shown alike. -/
theorem answers_depend_on_past :
    ¬ (∀ (engine : Engine) (t : FileTree) (past : List Request) (p : Path) (force : Bool)
        (a : Architecture), (engine.statistics? t p force a (engine.run t past)).1 =
          statisticsOf? t engine.loader p a) ∧
      (¬ ∀ (engine : Engine) (t : FileTree) (past : List Request) (e : Entry),
        (engine.resolve t [e] none none (engine.run t past)).1.plan.hooks =
          (engine.resolve t [e] none none .empty).1.plan.hooks) ∧
      statisticsOf? mergedTree sampleEngine.loader (.ofByte 0xFE) .sdxl = none ∧
      ((sampleEngine.statistics? mergedTree (.ofByte 0xFE) false .sdxl
          (sampleEngine.run mergedTree [.statistics (.ofByte 0xFF) false .sdxl])).1.map
        Statistics.blockIds) = some ["layers_0"] := by
  refine ⟨?_, ?_, by decide +kernel, by decide +kernel⟩
  · intro hall
    have hsame := hall sampleEngine sampleTree [.statistics samplePath false .sdxl] samplePath false
      .flux1
    have hids := congrArg (Option.map Statistics.blockIds) hsame
    revert hids
    decide +kernel
  · intro hall
    have hsame := hall sampleEngine sampleTree [.statistics samplePath false .sdxl]
      (sampleEntry .flux1)
    have hvalues := congrArg (List.map fun hook => hook.tensors.values.map Tensor.values) hsame
    revert hvalues
    decide +kernel

/-- The same file after its statistics for SDXL: those for Flux are not
computed, but the hook of an entry for SDXL is that of a fresh engine. -/
theorem answers_after_run_sample :
    (sampleEngine.statistics? sampleTree samplePath false .flux1
        (sampleEngine.run sampleTree [.statistics samplePath false .sdxl])).1 =
      statisticsOf? sampleTree sampleEngine.loader samplePath .sdxl ∧
    ∃ others, (sampleEngine.resolve sampleTree [sampleEntry .sdxl] none none
        (sampleEngine.run sampleTree [.statistics samplePath false .sdxl])).1.plan.hooks =
      (sampleEngine.resolve sampleTree [] none none
        (sampleEngine.run sampleTree [.statistics samplePath false .sdxl])).1.plan.hooks ++
      (sampleEngine.resolve sampleTree [sampleEntry .sdxl] none none .empty).1.plan.hooks ++
      others := by
  have htouched : ∀ request ∈ [Request.statistics samplePath false .sdxl], ∀ p,
      request.Touches sampleEngine sampleTree p → p ∈ ({samplePath} : Set Path) := by
    rintro _ hmem p hp
    obtain rfl := List.mem_singleton.mp hmem
    exact hp
  have hspec := answers_after_run sampleEngine sampleTree (Path.shownApart_singleton samplePath)
    [.statistics samplePath false .sdxl] htouched
  have hpath : sampleEngine.resolvePath? sampleTree (sampleEntry .sdxl).name = some samplePath := by
    decide
  have hkept : sampleEngine.ledger sampleTree [.statistics samplePath false .sdxl] samplePath =
      some .sdxl := by
    decide +kernel
  have hkept' : sampleEngine.ledger sampleTree
      ([.statistics samplePath false .sdxl] ++ [.resolve [] none none]) samplePath =
        some .sdxl := by
    decide +kernel
  have hcandidates : candidates [sampleEntry .sdxl] none none = [] ++ sampleEntry .sdxl :: [] := by
    decide +kernel
  have hcovered : ∀ p, Request.Touches sampleEngine sampleTree
      (.resolve [sampleEntry .sdxl] none none) p → p ∈ ({samplePath} : Set Path) := by
    rintro p ⟨e, he, hp⟩
    rw [hcandidates] at he
    obtain rfl := List.mem_singleton.mp he
    exact Option.some.inj (hp.symm.trans hpath)
  refine ⟨?_, ?_⟩
  · rw [hspec.1 samplePath rfl, if_neg Bool.false_ne_true, hkept, Option.getD_some]
  · obtain ⟨⟨others, hhooks⟩, hown⟩ := hspec.2 _ none none _ _ _ hcovered hcandidates
    refine ⟨others, ?_⟩
    rw [hhooks]
    refine congrArg (· ++ others) (congrArg _ (hown ?_))
    intro p hp a ha
    obtain rfl := Option.some.inj (hpath.symm.trans hp)
    rw [hkept', Option.mem_some_iff] at ha
    exact ha.symm

end Engine

end LoraSchedule
