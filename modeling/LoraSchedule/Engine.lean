import LoraSchedule.Cache
import LoraSchedule.Detection
import LoraSchedule.Files.Search
import LoraSchedule.Json.Record
import LoraSchedule.Resolution
import LoraSchedule.Statistics.Lineage

/-!
# Engines

An engine answers questions about the files below its search roots, and resolves schedules.  It
looks up its answers in a cache first, which engines may share: each question takes a cache and
gives one back.
-/

namespace LoraSchedule

open LoraSchedule.Container (Loader)
open LoraSchedule.Json (Written)
open LoraSchedule.Number (Double)

/-! ## Configuration -/

structure EngineConfig where
  searchRoots : List Path
  extensions : List String
  loader : Loader

namespace EngineConfig

/-- The configuration for a user with this directory for data. -/
def standard (dataDirectory : Option Path) : EngineConfig :=
  ⟨SearchPath.defaultRoots dataDirectory, SearchPath.defaultExtensions, .default⟩

/-- Puts a search root in front of the others. -/
def withRoot (c : EngineConfig) (root : Path) : EngineConfig :=
  { c with searchRoots := root :: c.searchRoots }

def loaderOfWritten? (written : Written) : Option Loader := do
  let [size] ← written.record? ["max_file_size"] | none
  return ⟨← Written.orDefault Loader.default.maxFileSize Written.natural? size⟩

/-- Reads a configuration over a standard one. -/
def ofWritten? (standard : EngineConfig) (written : Written) : Option EngineConfig := do
  let [roots, extensions, loader] ←
    written.record? ["search_roots", "extensions", "loader"] | none
  let path? (written : Written) : Option Path := written.string?.map Path.ofString
  return ⟨← Written.orDefault standard.searchRoots (Written.list? path?) roots,
    ← Written.orDefault standard.extensions (Written.list? Written.string?) extensions,
    ← Written.orDefault standard.loader loaderOfWritten? loader⟩

inductive ReadError
  | unreadable
  | malformed
deriving DecidableEq

/-- Reads a configuration file. -/
def read (t : FileTree) (standard : EngineConfig) (p : Path) : Except ReadError EngineConfig :=
  match t.readText? p with
  | none => .error .unreadable
  | some text =>
    match Written.ofText? text.toList >>= ofWritten? standard with
    | none => .error .malformed
    | some config => .ok config

end EngineConfig

/-- The enabled entries of a schedule file, if it can be read as text. -/
def Schedule.ofFile? (t : FileTree) (p : Path) : Option (List Entry) :=
  (t.readText? p).map Schedule.ofText

/-! ## Engines -/

structure Engine where
  config : EngineConfig
  search : SearchPath
  loader : Loader

namespace Engine

/-- The engine that a configuration describes. -/
def ofConfig (config : EngineConfig) : Engine :=
  { config
    search := (SearchPath.ofRoots config.searchRoots).withExtensions config.extensions
    loader := config.loader }

variable (engine : Engine) (t : FileTree)

/-- The family of a file. -/
def architecture (p : Path) (force : Bool) : StateM Cache Architecture := fun cache =>
  cache.architecture p force fun _ => detect t p

/-- The statistics of a file read as one of a family. -/
def statistics? (p : Path) (force : Bool) (architecture : Architecture) :
    StateM Cache (Option (Statistics Double)) := fun cache =>
  cache.statistics p force fun _ => statisticsOf? t engine.loader p architecture

/-- The family of a file; plain SDXL is refined to a lineage by its statistics. -/
def lineage (p : Path) (force : Bool) : StateM Cache Architecture := do
  let family ← architecture t p force
  if family ≠ .sdxl then return family
  match ← engine.statistics? t p force family with
  | some s => return s.lineage
  | none => return family

/-- The file that a name stands for. -/
def resolvePath? (name : String) : Option Path := engine.search.resolve? t name

/-- What the engine knows about files, for resolving schedules. -/
def source : Source Cache where
  resolve? := engine.resolvePath? t
  load? p := (engine.loader.load t p).toOption
  words := Sidecar.wordsOfFile t
  architecture p := architecture t p false
  statistics? p family := engine.statistics? t p false family

/-- Combines entries, a text and a prior plan. -/
def resolve (entries : List Entry) (text : Option String) (prior : Option Plan) :
    StateM Cache Resolution :=
  (engine.source t).resolve entries text prior

end Engine

end LoraSchedule
