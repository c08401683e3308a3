import LoraSchedule.Dict.Lemmas
import LoraSchedule.Proofs.Lists
import LoraSchedule.Proofs.Resolution.Result

/-!
# The lines of applied entries

Which entries are applied, and how they are written, does not depend on what a
source answers about families and statistics, however its answers change
(`resolve_writes`): the weights of a preset are not written out, and an entry
without an active preset has no weights but its own.
-/

namespace LoraSchedule

open LoraSchedule.Number (Binary Double)
open LoraSchedule.Text

/-! ## What is written of an entry -/

/-- An entry as its line shows it. -/
def Entry.written (e : Entry) : Entry :=
  { e with name := displayName e.name, points := padPoints (sortPoints e.points) }

/-- A preset that is not active has no weights. -/
theorem entryWeights_of_activePreset?_eq_none {e : Entry} (h : e.activePreset? = none)
    (a : Architecture) (known : Option (Statistics Double)) :
    entryWeights e a known = e.vectors := by
  have hunion : (∅ : Dict Double).union e.vectors = e.vectors := by
    refine Dict.ext_get? fun key => ?_
    rw [Dict.get?_union, Dict.get?_empty, Option.or_none]
  unfold entryWeights
  split
  · rename_i id known hid
    have hinactive : id = "" ∨ id = Preset.customId := by
      by_contra hactive
      rw [Entry.activePreset?, Option.filter_eq_none_iff] at h
      exact h id hid (decide_eq_true (not_or.mp hactive))
    have hnone : Preset.ofId? id = none := by rcases hinactive with rfl | rfl <;> decide
    rw [presetWeights, hnone]
    exact hunion
  · rfl

/-- How a hook and a shown entry come from an entry that was applied. -/
structure Applied.Writes (a : Applied) (e : Entry) : Prop where
  name : a.hook.name = e.name
  modelStrength : a.hook.modelStrength = e.modelStrength
  clipStrength : a.hook.clipStrength = e.clipStrength
  keyframes : a.hook.keyframes = e.written.points
  shownName : a.shown.name = e.written.name
  shownModel : a.shown.modelStrength = e.modelStrength
  shownClip : a.shown.clipStrength = e.clipStrength
  shownPoints : a.shown.points = e.written.points
  shownExtra : a.shown.renderExtra = e.renderExtra

theorem Applied.Writes.line {a : Applied} {e : Entry} (h : a.Writes e) :
    a.shown.renderChars = e.written.renderChars := by
  have hextra : e.written.renderExtra = e.renderExtra := rfl
  rw [Entry.renderChars, h.shownName, h.shownModel, h.shownClip, h.shownPoints, h.shownExtra,
    ← hextra]
  rfl

theorem writes_applied (e : Entry) (a : Architecture) (known : Option (Statistics Double))
    (tensors : TensorDict) : (applied e a (entryWeights e a known) tensors).Writes e where
  name := rfl
  modelStrength := rfl
  clipStrength := rfl
  keyframes := rfl
  shownName := rfl
  shownModel := rfl
  shownClip := rfl
  shownPoints := rfl
  shownExtra := by
    have hsame : (applied e a (entryWeights e a known) tensors).shown.activePreset? =
        e.activePreset? := rfl
    cases hactive : e.activePreset? with
    | some id => simp only [Entry.renderExtra, hsame, hactive]
    | none =>
        have hvectors : (applied e a (entryWeights e a known) tensors).shown.vectors =
            e.vectors := entryWeights_of_activePreset?_eq_none hactive a known
        simp only [Entry.renderExtra, hsame, hactive, hvectors]

/-- What is read off hooks and lines can be read off the entries. -/
theorem map_eq_of_writes {results : List Applied} {entries : List Entry}
    (hwrites : List.Forall₂ Applied.Writes results entries) {β : Type} {read : Applied → β}
    {readEntry : Entry → β} (h : ∀ a e, a.Writes e → read a = readEntry e) :
    results.map read = entries.map readEntry := by
  induction hwrites with
  | nil => rfl
  | cons hfirst _ ih => rw [List.map_cons, List.map_cons, h _ _ hfirst, ih]

/-! ## Which entries are applied -/

namespace Source

variable {σ : Type} (source : Source σ)

/-- Whether an entry is applied. -/
def applies (e : Entry) : Bool := (source.fileOf? e).isSome && !e.isSilent

/-- An entry is applied in every state of the source or in none. -/
theorem apply_cases (e : Entry) (s : σ) :
    (source.applies e = true ∧ ∃ a, (source.apply e s).1 = some a ∧ a.Writes e) ∨
      (source.applies e = false ∧ (source.apply e s).1 = none) := by
  unfold applies fileOf? apply
  cases hpath : source.resolve? e.name with
  | none => exact Or.inr ⟨rfl, rfl⟩
  | some p =>
      cases hload : (source.load? p).filter fun tensors => !tensors.isEmpty with
      | none =>
          simp only [Option.bind_some, hload, Option.map_none, applyAt]
          exact Or.inr ⟨rfl, rfl⟩
      | some tensors =>
          simp only [Option.bind_some, hload, Option.map_some, applyAt_eq source hload]
          cases e.isSilent with
          | false => exact Or.inl ⟨rfl, _, rfl, writes_applied ..⟩
          | true => exact Or.inr ⟨rfl, rfl⟩

/-- **The applied entries in their order, and what comes of each.** -/
theorem applyAll_writes (entries : List Entry) (s : σ) :
    List.Forall₂ Applied.Writes (source.applyAll entries s).1 (entries.filter source.applies) := by
  induction entries generalizing s with
  | nil => exact List.Forall₂.nil
  | cons e rest ih =>
      have hrest := ih (source.apply e s).2
      show List.Forall₂ Applied.Writes
        ((source.apply e s).1.toList ++ (source.applyAll rest (source.apply e s).2).1) _
      rcases source.apply_cases e s with ⟨happlies, a, ha, hwrites⟩ | ⟨hskipped, hnone⟩
      · rw [ha, List.filter_cons_of_pos happlies]
        exact List.Forall₂.cons hwrites hrest
      · rw [hnone, List.filter_cons_of_neg (Bool.eq_false_iff.mp hskipped)]
        exact hrest

/-- **What a resolution adds to the prior plan and to the kept text.** -/
theorem resolve_writes (entries : List Entry) (text : Option String) (prior : Option Plan) (s : σ) :
    ∃ results, List.Forall₂ Applied.Writes results
        ((candidates entries text prior).filter source.applies) ∧
      (source.resolve entries text prior s).1.plan.hooks =
        (prior.map Plan.hooks).getD [] ++ results.map Applied.hook ∧
      (source.resolve entries text prior s).1.text =
        String.ofList (joinWith ['\n'] ((kept? text prior).toList.map String.toList ++
          results.map fun a => a.shown.renderChars)) := by
  refine ⟨_, source.applyAll_writes (candidates entries text prior) s, ?_, ?_⟩ <;> rw [resolve_eq]
  rfl

end Source

end LoraSchedule
