import LoraSchedule.Cache
import LoraSchedule.Dict.Lemmas
import LoraSchedule.Proofs.Text.Utf8
import Mathlib.Data.Finset.Card

/-!
# Runs of a cache

A cache that starts empty is determined by the calls made of it, and what it
holds can be told from these alone: `lastFamily` and `lastStatistics` look back
for the last computation of a field for a path since the last clear.  But the
cache takes two paths for one where they are shown alike (`merged_paths`).  So
the paths of a run have to be shown apart (`Path.ShownApart`), as all paths are
that are texts (`Path.shownApart_texts`).

The cache itself cannot say whether a computation was run, as it is handed its
result.  So the look-ups are written once more with a computation that has
effects (`architectureM`, `statisticsM`); with one that counts how often it is
run they give the same as before, and the count (`architectureM_counted`,
`statisticsM_counted`).

* `Tells` is the invariant: each path has the entry that the past gives it,
  nothing is held under any other, and the counts are those of the past.
* `perform_spec` shows that each call keeps it, and `run_spec` that a run does.
* `run_refines_past` says what a cache answers, holds and counts after any calls.
-/

namespace LoraSchedule

open LoraSchedule.Number (Double)

/-! ## Paths that are shown apart -/

namespace Path

/-- No two of these paths are shown alike. -/
def ShownApart (paths : Set Path) : Prop := ∀ p ∈ paths, ∀ q ∈ paths, p.text = q.text → p = q

/-- Texts are shown as they are. -/
@[simp] theorem text_ofString (s : String) : (s : Path).text = s := by
  rw [text, ofString, Utf8.decode_encode, String.ofList_toList]

theorem shownApart_texts : ShownApart {p | ∃ s : String, p = s} := by
  rintro _ ⟨s, rfl⟩ _ ⟨s', rfl⟩ h
  rw [text_ofString, text_ofString] at h
  rw [h]

theorem ShownApart.mono {paths others : Set Path} (h : ShownApart paths) (hsub : others ⊆ paths) :
    ShownApart others :=
  fun p hp q hq => h p (hsub hp) q (hsub hq)

theorem shownApart_singleton (p : Path) : ShownApart {p} := by
  rintro q rfl r rfl -
  rfl

/-- A path with a byte in its name that is no text by itself. -/
def ofByte (byte : UInt8) : Path := ⟨slash :: byte :: (".safetensors" : Bytes)⟩

end Path

namespace Cache

/-! ## The branches of a look-up -/

section Branches

variable {c : Cache} {p : Path} {force : Bool}

theorem architecture_of_held {held : Architecture} (hforce : ¬ force = true)
    (hheld : (c.get? p >>= CacheEntry.architecture) = some held)
    (compute : Unit → Architecture) : c.architecture p force compute = (held, c.countHit) := by
  rw [architecture, if_neg hforce, hheld]

theorem architecture_of_needed
    (hneeded : force = true ∨ (c.get? p >>= CacheEntry.architecture) = none)
    (compute : Unit → Architecture) :
    c.architecture p force compute =
      (compute (), c.countMiss.update p fun entry =>
        { entry with architecture := some (compute ()) }) := by
  have hmiss : (if force then none else c.get? p >>= CacheEntry.architecture) = none := by
    rcases hneeded with hforce | hnone
    · rw [if_pos hforce]
    · rw [hnone, ite_self]
  rw [architecture, hmiss]

theorem statistics_of_held {held : Statistics Double} (hforce : ¬ force = true)
    (hheld : (c.get? p >>= CacheEntry.statistics) = some held)
    (compute : Unit → Option (Statistics Double)) :
    c.statistics p force compute = (some held, c.countHit) := by
  rw [statistics, if_neg hforce, hheld]

theorem statistics_of_needed
    (hneeded : force = true ∨ (c.get? p >>= CacheEntry.statistics) = none)
    (compute : Unit → Option (Statistics Double)) :
    c.statistics p force compute =
      (compute (), match compute () with
        | none => c.countMiss
        | some found =>
            c.countMiss.update p fun entry => { entry with statistics := some found }) := by
  have hmiss : (if force then none else c.get? p >>= CacheEntry.statistics) = none := by
    rcases hneeded with hforce | hnone
    · rw [if_pos hforce]
    · rw [hnone, ite_self]
  rw [statistics, hmiss]
  cases compute () <;> rfl

end Branches

/-! ## Look-ups with effects -/

section Effects

variable {m : Type → Type} [Monad m]

/-- The look-up of a family, with a computation that has effects. -/
def architectureM (c : Cache) (p : Path) (force : Bool) (compute : m Architecture) :
    m (Architecture × Cache) :=
  match (if force then none else (c.get? p) >>= CacheEntry.architecture) with
  | some held => pure (held, c.countHit)
  | none => do
    let found ← compute
    return (found, c.countMiss.update p fun entry => { entry with architecture := some found })

/-- The look-up of statistics, with a computation that has effects. -/
def statisticsM (c : Cache) (p : Path) (force : Bool)
    (compute : m (Option (Statistics Double))) : m (Option (Statistics Double) × Cache) :=
  match (if force then none else (c.get? p) >>= CacheEntry.statistics) with
  | some held => pure (some held, c.countHit)
  | none => do
    match ← compute with
    | none => return (none, c.countMiss)
    | some found =>
      return (some found,
        c.countMiss.update p fun entry => { entry with statistics := some found })

end Effects

/-- A computation that counts how often it is run. -/
def counted {α : Type} (result : α) : StateM Nat α := fun runs => (result, runs + 1)

theorem architectureM_counted (c : Cache) (p : Path) (force : Bool) (found : Architecture)
    (runs : Nat) :
    c.architectureM p force (counted found) runs =
      (c.architecture p force fun _ => found,
        if force ∨ (c.get? p >>= CacheEntry.architecture) = none then runs + 1 else runs) := by
  unfold architectureM architecture
  cases force with
  | true => rfl
  | false => cases c.get? p >>= CacheEntry.architecture <;> simp <;> rfl

theorem statisticsM_counted (c : Cache) (p : Path) (force : Bool)
    (found : Option (Statistics Double)) (runs : Nat) :
    c.statisticsM p force (counted found) runs =
      (c.statistics p force fun _ => found,
        if force ∨ (c.get? p >>= CacheEntry.statistics) = none then runs + 1 else runs) := by
  unfold statisticsM statistics
  cases force with
  | true => cases found <;> rfl
  | false => cases c.get? p >>= CacheEntry.statistics <;> cases found <;> simp <;> rfl

/-! ## Calls -/

/-- A call, with the result of its computation should that be run. -/
inductive Call
  | architecture (p : Path) (force : Bool) (result : Architecture)
  | statistics (p : Path) (force : Bool) (result : Option (Statistics Double))
  | get (p : Path)
  | clear

/-- The path that a call is about. -/
def Call.path? : Call → Option Path
  | .architecture p .. | .statistics p .. | .get p => some p
  | .clear => none

def Call.isLookup : Call → Bool
  | .architecture .. | .statistics .. => true
  | .get _ | .clear => false

/-- The cache after a call; the state counts the computations that were run. -/
def perform (c : Cache) : Call → StateM Nat Cache
  | .architecture p force result => Prod.snd <$> c.architectureM p force (counted result)
  | .statistics p force result => Prod.snd <$> c.statisticsM p force (counted result)
  | .get _ => pure c
  | .clear => pure c.clear

/-- An empty cache after calls, of which the newest comes first. -/
def run : (past : List Call) → StateM Nat Cache
  | [] => pure .empty
  | call :: past => do (← run past).perform call

/-! ## What the past tells -/

/-- The last family computed for a path since the last clear. -/
def lastFamily : (past : List Call) → (p : Path) → Option Architecture
  | [], _ => none
  | .clear :: _, _ => none
  | .architecture other force result :: past, p =>
      if p = other ∧ (force ∨ lastFamily past p = none) then some result
      else lastFamily past p
  | _ :: past, p => lastFamily past p

/-- The last statistics computed with success for a path since the last clear. -/
def lastStatistics : (past : List Call) → (p : Path) → Option (Statistics Double)
  | [], _ => none
  | .clear :: _, _ => none
  | .statistics other force (some result) :: past, p =>
      if p = other ∧ (force ∨ lastStatistics past p = none) then some result
      else lastStatistics past p
  | _ :: past, p => lastStatistics past p

/-- An entry with these fields, if any of them has a value. -/
def entryOf? (family : Option Architecture) (known : Option (Statistics Double)) :
    Option CacheEntry :=
  if family = none ∧ known.isNone then none else some ⟨family, known⟩

/-- The entry of a path. -/
def lastHeld? (past : List Call) (p : Path) : Option CacheEntry :=
  entryOf? (lastFamily past p) (lastStatistics past p)

section Entries

variable (family : Option Architecture) (known : Option (Statistics Double))

theorem entryOf?_bind_architecture :
    entryOf? family known >>= CacheEntry.architecture = family := by
  cases family <;> cases known <;> rfl

theorem entryOf?_bind_statistics : entryOf? family known >>= CacheEntry.statistics = known := by
  cases family <;> cases known <;> rfl

theorem entryOf?_getD_empty : (entryOf? family known).getD .empty = ⟨family, known⟩ := by
  cases family <;> cases known <;> rfl

theorem isSome_entryOf?_iff :
    (entryOf? family known).isSome = true ↔ family.isSome = true ∨ known.isSome = true := by
  cases family <;> cases known <;> simp [entryOf?]

end Entries

/-! ## Changes of one entry -/

theorem get?_update (c : Cache) (p other : Path) (change : CacheEntry → CacheEntry) :
    (c.update p change).get? other =
      if other.text = p.text then some (change ((c.get? p).getD .empty)) else c.get? other :=
  Dict.get?_insert ..

theorem get?_congr (c : Cache) {p q : Path} (h : p.text = q.text) : c.get? p = c.get? q :=
  congrArg c.entries.get? h

theorem get?_update_of_ne (c : Cache) {p other : Path} (h : other.text ≠ p.text)
    (change : CacheEntry → CacheEntry) : (c.update p change).get? other = c.get? other := by
  rw [get?_update, if_neg h]

/-- What holds of the entries of paths that are shown apart holds after a change,
if it does of the changed entry. -/
theorem forall_get?_update {paths : Set Path} (hpaths : Path.ShownApart paths) (c : Cache)
    {p : Path} (hp : p ∈ paths) (change : CacheEntry → CacheEntry)
    {motive : Path → Option CacheEntry → Prop}
    (hself : motive p (some (change ((c.get? p).getD .empty))))
    (hother : ∀ q ∈ paths, q ≠ p → motive q (c.get? q)) :
    ∀ q ∈ paths, motive q ((c.update p change).get? q) := by
  intro q hq
  rw [get?_update]
  split
  · rename_i hsame
    obtain rfl := hpaths q hq p hp hsame
    exact hself
  · rename_i hdifferent
    exact hother q hq fun heq => hdifferent (congrArg Path.text heq)

/-- A change that leaves a field alone leaves it alone for every path. -/
theorem bind_get?_update {β : Type} (c : Cache) (p other : Path)
    {change : CacheEntry → CacheEntry} {field : CacheEntry → Option β}
    (hchange : ∀ entry, field (change entry) = field entry) (hempty : field .empty = none) :
    ((c.update p change).get? other >>= field) = (c.get? other >>= field) := by
  rw [get?_update]
  split
  · rename_i hsame
    rw [c.get?_congr hsame]
    cases hentry : c.get? p with
    | none => simp [hchange, hempty]
    | some entry => simp [hchange]
  · rfl

/-- A look-up of a family does not touch the statistics of any path, nor the
entry of a path that is shown apart. -/
theorem architecture_frame (c : Cache) (p : Path) (force : Bool)
    (compute : Unit → Architecture) :
    (∀ other, ((c.architecture p force compute).2.get? other >>= CacheEntry.statistics) =
        (c.get? other >>= CacheEntry.statistics)) ∧
      ∀ other : Path, other.text ≠ p.text →
        (c.architecture p force compute).2.get? other = c.get? other := by
  unfold architecture
  split
  · exact ⟨fun _ => rfl, fun _ _ => rfl⟩
  · exact ⟨fun other => bind_get?_update _ p other (fun _ => rfl) rfl,
      fun other hother => get?_update_of_ne _ hother _⟩

/-- A look-up of statistics does not touch the family of any path, nor the entry
of a path that is shown apart. -/
theorem statistics_frame (c : Cache) (p : Path) (force : Bool)
    (compute : Unit → Option (Statistics Double)) :
    (∀ other, ((c.statistics p force compute).2.get? other >>= CacheEntry.architecture) =
        (c.get? other >>= CacheEntry.architecture)) ∧
      ∀ other : Path, other.text ≠ p.text →
        (c.statistics p force compute).2.get? other = c.get? other := by
  unfold statistics
  split
  · exact ⟨fun _ => rfl, fun _ _ => rfl⟩
  · split
    · exact ⟨fun _ => rfl, fun _ _ => rfl⟩
    · exact ⟨fun other => bind_get?_update _ p other (fun _ => rfl) rfl,
        fun other hother => get?_update_of_ne _ hother _⟩

/-- A computation without a result leaves all entries as they were. -/
theorem entries_statistics_of_none (c : Cache) (p : Path) (force : Bool)
    {compute : Unit → Option (Statistics Double)} (hnone : compute () = none) :
    (c.statistics p force compute).2.entries = c.entries := by
  unfold statistics
  split
  · rfl
  · rw [hnone]
    rfl

/-! ## The invariant -/

/-- A cache holds of some paths what the past tells, and of no others, and its
counts are those of the past, in which this many computations were run. -/
structure Tells (paths : Set Path) (past : List Call) (runs : Nat) (c : Cache) : Prop where
  get : ∀ p ∈ paths, c.get? p = lastHeld? past p
  keys : ∀ key, (c.entries.get? key).isSome = true → ∃ p ∈ paths, p.text = key
  lookups : c.hits + c.misses = past.countP Call.isLookup
  misses : c.misses = runs

section Invariant

variable {paths : Set Path} {past : List Call} {runs : Nat} {c : Cache} {p : Path}

theorem Tells.family (h : Tells paths past runs c) (hp : p ∈ paths) :
    (c.get? p >>= CacheEntry.architecture) = lastFamily past p := by
  rw [h.get p hp, lastHeld?, entryOf?_bind_architecture]

theorem Tells.statistics (h : Tells paths past runs c) (hp : p ∈ paths) :
    (c.get? p >>= CacheEntry.statistics) = lastStatistics past p := by
  rw [h.get p hp, lastHeld?, entryOf?_bind_statistics]

/-- The entries that the past tells of change for one path as those of a cache do. -/
theorem Tells.get_update (hpaths : Path.ShownApart paths) (h : Tells paths past runs c)
    (hp : p ∈ paths) {call : Call} {change : CacheEntry → CacheEntry}
    (hself : lastHeld? (call :: past) p =
      some (change ⟨lastFamily past p, lastStatistics past p⟩))
    (hother : ∀ other, other ≠ p → lastHeld? (call :: past) other = lastHeld? past other) :
    ∀ other ∈ paths, (c.countMiss.update p change).get? other = lastHeld? (call :: past) other := by
  have hentry : c.countMiss.get? p = lastHeld? past p := h.get p hp
  refine forall_get?_update (motive := fun other entry => entry = lastHeld? (call :: past) other)
    hpaths _ hp change ?_ fun other hmem hne => ?_
  · rw [hentry, lastHeld?, entryOf?_getD_empty, hself]
  · rw [hother other hne]
    exact h.get other hmem

theorem Tells.keys_update (h : Tells paths past runs c) (hp : p ∈ paths)
    (change : CacheEntry → CacheEntry) (key : String)
    (hkey : ((c.countMiss.update p change).entries.get? key).isSome = true) :
    ∃ q ∈ paths, q.text = key := by
  rw [update, Dict.get?_insert] at hkey
  split at hkey
  · rename_i hsame
    exact ⟨p, hp, hsame.symm⟩
  · exact h.keys key hkey

theorem Tells.countMiss (h : Tells paths past runs c) {call : Call}
    (hlookup : call.isLookup = true) :
    c.countMiss.hits + c.countMiss.misses = (call :: past).countP Call.isLookup := by
  rw [List.countP_cons_of_pos hlookup, ← h.lookups]
  exact (Nat.add_assoc ..).symm

theorem Tells.countHit (h : Tells paths past runs c) {call : Call}
    (hlookup : call.isLookup = true) :
    c.countHit.hits + c.countHit.misses = (call :: past).countP Call.isLookup := by
  rw [List.countP_cons_of_pos hlookup, ← h.lookups]
  exact Nat.add_right_comm ..

section Lookups

variable (hpaths : Path.ShownApart paths)

include hpaths

/-- **A look-up of a family runs its computation just if that is wanted or no
family is held, and else answers the last one.** -/
theorem architecture_spec (h : Tells paths past runs c) (hp : p ∈ paths) (force : Bool)
    (found : Architecture) :
    (c.architecture p force fun _ => found).1 =
        (if force then found else (lastFamily past p).getD found) ∧
      Tells paths (.architecture p force found :: past)
        (if force ∨ lastFamily past p = none then runs + 1 else runs)
        (c.architecture p force fun _ => found).2 := by
  by_cases hneeded : force = true ∨ lastFamily past p = none
  · have hanswer : (if force then found else (lastFamily past p).getD found) = found := by
      rcases hneeded with hforce | hnone
      · rw [if_pos hforce]
      · rw [hnone, Option.getD_none, ite_self]
    rw [architecture_of_needed (by rwa [h.family hp]), if_pos hneeded, hanswer]
    refine ⟨rfl, h.get_update hpaths hp ?_ ?_, h.keys_update hp _, h.countMiss rfl,
      congrArg (· + 1) h.misses⟩
    · simp [lastHeld?, lastFamily, lastStatistics, hneeded, entryOf?]
    · intro other hother
      simp [lastHeld?, lastFamily, lastStatistics, hother]
  · obtain ⟨hforce, hsome⟩ := not_or.mp hneeded
    obtain ⟨held, hheld⟩ := Option.ne_none_iff_exists'.mp hsome
    rw [architecture_of_held hforce (by rw [h.family hp, hheld]), if_neg hneeded, if_neg hforce,
      hheld]
    refine ⟨rfl, fun other hmem => ?_, h.keys, h.countHit rfl, h.misses⟩
    have hsame :
        lastFamily (.architecture p force found :: past) other = lastFamily past other := by
      rw [lastFamily, if_neg]
      rintro ⟨rfl, hneeded'⟩
      exact hneeded hneeded'
    rw [lastHeld?, hsame]
    exact h.get other hmem

/-- **A look-up of statistics runs its computation just if that is wanted or
none are held, and else answers the last ones.** -/
theorem statistics_spec (h : Tells paths past runs c) (hp : p ∈ paths) (force : Bool)
    (found : Option (Statistics Double)) :
    (c.statistics p force fun _ => found).1 =
        (if force then found else (lastStatistics past p).or found) ∧
      Tells paths (.statistics p force found :: past)
        (if force ∨ lastStatistics past p = none then runs + 1 else runs)
        (c.statistics p force fun _ => found).2 := by
  by_cases hneeded : force = true ∨ lastStatistics past p = none
  · have hanswer : (if force then found else (lastStatistics past p).or found) = found := by
      rcases hneeded with hforce | hnone
      · rw [if_pos hforce]
      · rw [hnone, Option.none_or, ite_self]
    rw [statistics_of_needed (by rwa [h.statistics hp]), if_pos hneeded, hanswer]
    cases found with
    | none => exact ⟨rfl, h.get, h.keys, h.countMiss rfl, congrArg (· + 1) h.misses⟩
    | some found =>
        refine ⟨rfl, h.get_update hpaths hp ?_ ?_, h.keys_update hp _, h.countMiss rfl,
          congrArg (· + 1) h.misses⟩
        · simp [lastHeld?, lastFamily, lastStatistics, hneeded, entryOf?]
        · intro other hother
          simp [lastHeld?, lastFamily, lastStatistics, hother]
  · obtain ⟨hforce, hsome⟩ := not_or.mp hneeded
    obtain ⟨held, hheld⟩ := Option.ne_none_iff_exists'.mp hsome
    rw [statistics_of_held hforce (by rw [h.statistics hp, hheld]), if_neg hneeded, if_neg hforce,
      hheld, Option.some_or]
    refine ⟨rfl, fun other hmem => ?_, h.keys, h.countHit rfl, h.misses⟩
    have hsame : lastStatistics (.statistics p force found :: past) other =
        lastStatistics past other := by
      cases found with
      | none => rfl
      | some found =>
          rw [lastStatistics, if_neg]
          rintro ⟨rfl, hneeded'⟩
          exact hneeded hneeded'
    rw [lastHeld?, hsame]
    exact h.get other hmem

/-- **Each call keeps the invariant.** -/
theorem perform_spec (h : Tells paths past runs c) {call : Call}
    (hcall : ∀ p ∈ call.path?, p ∈ paths) :
    Tells paths (call :: past) (c.perform call runs).2 (c.perform call runs).1 := by
  cases call with
  | architecture p force found =>
      have hcounted : c.perform (.architecture p force found) runs =
          ((c.architectureM p force (counted found) runs).1.2,
            (c.architectureM p force (counted found) runs).2) := rfl
      have hp : p ∈ paths := hcall p rfl
      rw [hcounted, architectureM_counted, h.family hp]
      exact (architecture_spec hpaths h hp force found).2
  | statistics p force found =>
      have hcounted : c.perform (.statistics p force found) runs =
          ((c.statisticsM p force (counted found) runs).1.2,
            (c.statisticsM p force (counted found) runs).2) := rfl
      have hp : p ∈ paths := hcall p rfl
      rw [hcounted, statisticsM_counted, h.statistics hp]
      exact (statistics_spec hpaths h hp force found).2
  | get p => exact ⟨h.get, h.keys, h.lookups, h.misses⟩
  | clear => exact ⟨fun _ _ => rfl, fun _ hkey => (nomatch hkey), h.lookups, h.misses⟩

/-- **So does a run from the empty cache.** -/
theorem run_spec {past : List Call} (hpast : ∀ call ∈ past, ∀ p ∈ call.path?, p ∈ paths) :
    Tells paths past (run past 0).2 (run past 0).1 := by
  induction past with
  | nil => exact ⟨fun _ _ => rfl, fun _ hkey => (nomatch hkey), rfl, rfl⟩
  | cons call past ih =>
      have hrest := ih fun call hcall => hpast call (List.mem_cons_of_mem _ hcall)
      exact perform_spec hpaths hrest (hpast call (List.mem_cons_self ..))

/-- The number of entries is the number of paths that have one. -/
theorem Tells.exists_held (h : Tells paths past runs c) :
    ∃ held : Finset Path, (∀ p, p ∈ held ↔ p ∈ paths ∧ (c.get? p).isSome = true) ∧
      c.size = held.card := by
  have hkeys : ∀ key, key ∈ c.entries.keys → ∃ p ∈ paths, p.text = key :=
    fun key hkey => h.keys key (Dict.mem_keys_iff.mp hkey)
  -- each key is that of one of the paths
  choose! pathOf hpathOf htext using hkeys
  have hnodup : c.entries.keys.Nodup := by
    refine c.entries.keys_ascending.imp ?_
    rintro key _ hlt rfl
    exact String.lt_irrefl key hlt
  have hinjective : ∀ key ∈ c.entries.keys.toFinset, ∀ other ∈ c.entries.keys.toFinset,
      pathOf key = pathOf other → key = other := by
    intro key hkey other hother heq
    rw [← htext key (List.mem_toFinset.mp hkey), heq, htext other (List.mem_toFinset.mp hother)]
  refine ⟨c.entries.keys.toFinset.image pathOf, fun p => ?_, ?_⟩
  · rw [Finset.mem_image]
    constructor
    · rintro ⟨key, hkey, rfl⟩
      rw [List.mem_toFinset] at hkey
      refine ⟨hpathOf key hkey, ?_⟩
      show (c.entries.get? (pathOf key).text).isSome = true
      rw [htext key hkey]
      exact Dict.mem_keys_iff.mp hkey
    · rintro ⟨hp, hsome⟩
      have hkey : p.text ∈ c.entries.keys := Dict.mem_keys_iff.mpr hsome
      exact ⟨p.text, List.mem_toFinset.mpr hkey,
        hpaths _ (hpathOf _ hkey) p hp (htext _ hkey)⟩
  · rw [Finset.card_image_of_injOn hinjective, List.toFinset_card_of_nodup hnodup]
    exact (List.length_map Prod.fst).symm

end Lookups

end Invariant

/-! ## Whole runs -/

/-- **A cache after any calls about paths that are shown apart.**  A look-up runs
its computation just if that is wanted or nothing is held for the field and the
path; else it answers the value of the last computation that had one, since the
last clear.  Statistics that cannot be computed leave all entries as they were,
and no look-up touches the other field or another path.  A path has an entry
just if one of its fields has a value.  Hits and misses are the look-ups since
the cache was made, misses the computations that were run, and the entries the
paths that have one. -/
theorem run_refines_past {paths : Set Path} (hpaths : Path.ShownApart paths) (past : List Call)
    (hpast : ∀ call ∈ past, ∀ p ∈ call.path?, p ∈ paths) :
    let c := (run past 0).1
    (∀ p ∈ paths, ∀ (force : Bool) (found : Architecture) (runs : Nat),
      c.architectureM p force (counted found) runs =
          (c.architecture p force fun _ => found,
            if force ∨ lastFamily past p = none then runs + 1 else runs) ∧
        (c.architecture p force fun _ => found).1 =
          if force then found else (lastFamily past p).getD found) ∧
    (∀ p ∈ paths, ∀ (force : Bool) (found : Option (Statistics Double)) (runs : Nat),
      c.statisticsM p force (counted found) runs =
          (c.statistics p force fun _ => found,
            if force ∨ lastStatistics past p = none then runs + 1 else runs) ∧
        (c.statistics p force fun _ => found).1 =
          if force then found else (lastStatistics past p).or found) ∧
    (∀ (p : Path) (force : Bool),
      (c.statistics p force fun _ => none).2.entries = c.entries) ∧
    (∀ p ∈ paths, ∀ (force : Bool) (found : Architecture),
      let after := (c.architecture p force fun _ => found).2
      (∀ other, (after.get? other >>= CacheEntry.statistics) =
          (c.get? other >>= CacheEntry.statistics)) ∧
        ∀ other ∈ paths, other ≠ p → after.get? other = c.get? other) ∧
    (∀ p ∈ paths, ∀ (force : Bool) (found : Option (Statistics Double)),
      let after := (c.statistics p force fun _ => found).2
      (∀ other, (after.get? other >>= CacheEntry.architecture) =
          (c.get? other >>= CacheEntry.architecture)) ∧
        ∀ other ∈ paths, other ≠ p → after.get? other = c.get? other) ∧
    (∀ p ∈ paths, (c.get? p >>= CacheEntry.architecture) = lastFamily past p ∧
      (c.get? p >>= CacheEntry.statistics) = lastStatistics past p ∧
      ((c.get? p).isSome = true ↔
        (lastFamily past p).isSome = true ∨ (lastStatistics past p).isSome = true)) ∧
    c.hits + c.misses = past.countP Call.isLookup ∧
    c.misses = (run past 0).2 ∧
    ∃ held : Finset Path,
      (∀ p, p ∈ held ↔ p ∈ paths ∧
        ((lastFamily past p).isSome = true ∨ (lastStatistics past p).isSome = true)) ∧
      c.size = held.card := by
  have hrun := run_spec hpaths hpast
  have hentry : ∀ p ∈ paths, (((run past 0).1.get? p).isSome = true ↔
      (lastFamily past p).isSome = true ∨ (lastStatistics past p).isSome = true) := by
    intro p hp
    rw [hrun.get p hp, lastHeld?, isSome_entryOf?_iff]
  refine ⟨?_, ?_, ?_, ?_, ?_, ?_, hrun.lookups, hrun.misses, ?_⟩
  · intro p hp force found runs
    refine ⟨?_, (architecture_spec hpaths hrun hp force found).1⟩
    rw [architectureM_counted, hrun.family hp]
  · intro p hp force found runs
    refine ⟨?_, (statistics_spec hpaths hrun hp force found).1⟩
    rw [statisticsM_counted, hrun.statistics hp]
  · exact fun p force => entries_statistics_of_none _ p force rfl
  · intro p hp force found
    obtain ⟨hfield, hothers⟩ := architecture_frame (run past 0).1 p force fun _ => found
    exact ⟨hfield, fun other hmem hne => hothers other fun htext => hne (hpaths _ hmem _ hp htext)⟩
  · intro p hp force found
    obtain ⟨hfield, hothers⟩ := statistics_frame (run past 0).1 p force fun _ => found
    exact ⟨hfield, fun other hmem hne => hothers other fun htext => hne (hpaths _ hmem _ hp htext)⟩
  · exact fun p hp => ⟨hrun.family hp, hrun.statistics hp, hentry p hp⟩
  · obtain ⟨held, hheld, hsize⟩ := hrun.exists_held hpaths
    exact ⟨held, fun p => (hheld p).trans (and_congr_right (hentry p)), hsize⟩

/-- Two spellings of a path, of which only the first was looked up: the second is
computed, and then the first is still held. -/
theorem run_refines_past_spellings :
    let past := [Call.architecture "loras/a.pt" false .sdxl]
    let c := (run past 0).1
    (c.architecture "loras//a.pt" false fun _ => .flux1).1 = .flux1 ∧
      (c.architecture "loras/a.pt" false fun _ => .flux1).1 = .sdxl ∧
      ((c.architecture "loras//a.pt" false fun _ => .flux1).2.get? "loras/a.pt" >>=
        CacheEntry.architecture) = some .sdxl := by
  intro past c
  have hpast : ∀ call ∈ past, ∀ p ∈ call.path?, p ∈ {p : Path | ∃ s : String, p = s} := by
    intro call hcall p hp
    obtain rfl := List.mem_singleton.mp hcall
    exact ⟨"loras/a.pt", (Option.some.inj hp).symm⟩
  obtain ⟨hfamily, -, -, hframe, -, hheld, -⟩ :=
    run_refines_past Path.shownApart_texts past hpast
  refine ⟨?_, ?_, ?_⟩
  · exact (hfamily "loras//a.pt" ⟨_, rfl⟩ false .flux1 0).2.trans (by decide)
  · exact (hfamily "loras/a.pt" ⟨_, rfl⟩ false .flux1 0).2.trans (by decide)
  · rw [(hframe "loras//a.pt" ⟨_, rfl⟩ false .flux1).2 "loras/a.pt" ⟨_, rfl⟩ (by decide),
      (hheld "loras/a.pt" ⟨_, rfl⟩).1]
    decide

/-- **Paths that are shown alike share an entry**, and two spellings of a path do
not.  After a look-up of the first path the second is answered without a
computation, has an entry, and its computations change the first. -/
theorem merged_paths :
    let first := Path.ofByte 0xFF
    let second := Path.ofByte 0xFE
    let past := [Call.architecture first false .sdxl]
    let c := (run past 0).1
    first ≠ second ∧ lastFamily past second = none ∧
      (c.architecture second false fun _ => .flux1).1 = .sdxl ∧
      (c.architecture second false fun _ => .flux1).2.misses = c.misses ∧
      (c.get? second).isSome = true ∧
      ((c.architecture second true fun _ => .flux1).2.get? first >>= CacheEntry.architecture) =
        some .flux1 ∧
      (c.architecture second true fun _ => .flux1).2.size = 1 ∧
    ("loras/a.pt" : Path).components = ("loras//a.pt" : Path).components ∧
      ((run [.architecture "loras/a.pt" false .sdxl] 0).1.architecture "loras//a.pt" false
        fun _ => .flux1).1 = .flux1 := by
  decide +kernel

end Cache

end LoraSchedule
