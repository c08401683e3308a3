import LoraSchedule.Architecture.Basic
import LoraSchedule.Dict
import LoraSchedule.Files.Path
import LoraSchedule.Number.Scalar
import LoraSchedule.Statistics.Basic

/-!
# The analysis cache

What was found out about a file is kept under its path, as it is shown, until it is found out anew
or the cache is cleared.  The family and the statistics of a file are kept apart.  Two spellings of
a path are kept apart too, but not two paths that are shown alike.
-/

namespace LoraSchedule

open LoraSchedule.Number (Binary Double)

/-- What is kept about one path. -/
structure CacheEntry where
  architecture : Option Architecture
  statistics : Option (Statistics Double)

def CacheEntry.empty : CacheEntry := ⟨none, none⟩

structure Cache where
  entries : Dict CacheEntry
  /-- How many look-ups were answered from the cache. -/
  hits : Nat
  /-- How many were not. -/
  misses : Nat

namespace Cache

def empty : Cache := ⟨∅, 0, 0⟩

instance : Inhabited Cache := ⟨empty⟩

/-- What a path is kept under. -/
def keyOf (p : Path) : String := p.text

/-- What is kept about a path. -/
def get? (c : Cache) (p : Path) : Option CacheEntry := c.entries.get? (keyOf p)

/-- Changes what is kept about a path. -/
def update (c : Cache) (p : Path) (change : CacheEntry → CacheEntry) : Cache :=
  { c with entries := c.entries.insert (keyOf p) (change ((c.get? p).getD .empty)) }

def countHit (c : Cache) : Cache := { c with hits := c.hits + 1 }

def countMiss (c : Cache) : Cache := { c with misses := c.misses + 1 }

/-- The family kept under a path; if there is none, or a new look is wanted, it is computed and
kept. -/
def architecture (c : Cache) (p : Path) (force : Bool) (compute : Unit → Architecture) :
    Architecture × Cache :=
  match (if force then none else c.get? p >>= CacheEntry.architecture) with
  | some held => (held, c.countHit)
  | none =>
    let found := compute ()
    (found, c.countMiss.update p fun entry => { entry with architecture := some found })

/-- The statistics kept under a path; if there are none, or a new look is wanted, they are computed
and kept.  A computation without a result leaves everything as it was. -/
def statistics (c : Cache) (p : Path) (force : Bool)
    (compute : Unit → Option (Statistics Double)) : Option (Statistics Double) × Cache :=
  match (if force then none else c.get? p >>= CacheEntry.statistics) with
  | some held => (some held, c.countHit)
  | none =>
    match compute () with
    | none => (none, c.countMiss)
    | some found =>
      (some found, c.countMiss.update p fun entry => { entry with statistics := some found })

/-- Forgets all paths, but not the counts. -/
def clear (c : Cache) : Cache := { c with entries := ∅ }

/-- How many paths something is kept about. -/
def size (c : Cache) : Nat := c.entries.size

/-- The fraction of look-ups that were answered from the cache. -/
def hitRate (c : Cache) : Double :=
  if c.hits + c.misses = 0 then Binary.ofNat 0
  else Binary.ofNat c.hits / Binary.ofNat (c.hits + c.misses)

end Cache

end LoraSchedule
