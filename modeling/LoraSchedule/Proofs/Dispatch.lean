import LoraSchedule.Plan
import Mathlib.Data.List.Basic

/-!
# What a sink is handed

The patches of a plan are told by the places of its hooks: a *slot* is a hook,
by its place in the plan, with one of the two targets.  The slots at which the
strength is not a zero, in their order, are exactly those that patches come from
(`pairwise_slots`, `mem_slots_iff`, `map_patchAt?_slots`), so none is lost, sent
twice or moved, also where a hook occurs more than once in a plan.

A sink is any function on the state of a model.  What it is handed is found out
with one that notes its calls (`calls`), and every other sink is called just
like that one (`dispatch_eq_foldl_calls`).
-/

namespace LoraSchedule

open LoraSchedule.Number (Binary Double)

/-- The strength of a hook on a target. -/
def Hook.strength (hook : Hook) : PatchTarget → Double
  | .model => hook.modelStrength
  | .clip => hook.clipStrength

namespace Plan

/-! ## Slots -/

/-- A hook of a plan, by its place there, and a target. -/
structure Slot where
  place : Nat
  target : PatchTarget

/-- The order of slots: by hooks, and for one hook the model before the text encoder. -/
def Slot.Before (first second : Slot) : Prop :=
  first.place < second.place ∨
    first.place = second.place ∧ first.target = .model ∧ second.target = .clip

/-- At a slot there is something to patch: the strength of its hook on its target is neither of
the two zeros. -/
def HasStrengthAt (plan : Plan) (slot : Slot) : Prop :=
  ∃ hook, plan.hooks[slot.place]? = some hook ∧
    ∀ negative, hook.strength slot.target ≠ Binary.zero negative

/-- The patch of a hook on a target, with the strength of the hook. -/
def patchOf (hook : Hook) (target : PatchTarget) : Patch := ⟨hook, target, hook.strength target⟩

/-- The patch of a slot. -/
def patchAt? (plan : Plan) (slot : Slot) : Option Patch :=
  plan.hooks[slot.place]?.map fun hook => patchOf hook slot.target

/-- The targets on which a hook has a strength. -/
def targetsOf (hook : Hook) : List PatchTarget :=
  [.model, .clip].filter fun target => !(hook.strength target).isZero

/-- The slots of a plan at which there is something to patch. -/
def slots (plan : Plan) : List Slot :=
  plan.hooks.zipIdx.flatMap fun entry => (targetsOf entry.1).map (Slot.mk entry.2)

theorem isZero_eq_false_iff {x : Double} :
    x.isZero = false ↔ ∀ negative, x ≠ Binary.zero negative := by
  rw [Binary.isZero, decide_eq_false_iff_not]
  constructor
  · rintro hpos negative rfl
    exact hpos rfl
  · intro hne hzero
    apply hne x.negative
    rw [Binary.zero, ← hzero]

theorem mem_targetsOf_iff {hook : Hook} {target : PatchTarget} :
    target ∈ targetsOf hook ↔ ∀ negative, hook.strength target ≠ Binary.zero negative := by
  have hall : target ∈ [PatchTarget.model, .clip] := by cases target <;> simp
  rw [targetsOf, List.mem_filter, and_iff_right hall, Bool.not_eq_true', isZero_eq_false_iff]

theorem patchesOf_eq (hook : Hook) : patchesOf hook = (targetsOf hook).map (patchOf hook) := by
  have hboth : patchesOf hook = ([PatchTarget.model, .clip].map (patchOf hook)).filter
      fun patch => !patch.strength.isZero := rfl
  rw [hboth, List.filter_map]
  rfl

/-! ## The slots of a plan -/

/-- **A plan has something to patch at just these slots.** -/
theorem mem_slots_iff {plan : Plan} {slot : Slot} :
    slot ∈ plan.slots ↔ plan.HasStrengthAt slot := by
  simp only [slots, List.mem_flatMap, List.mem_map, mem_targetsOf_iff, Prod.exists,
    List.mem_zipIdx_iff_getElem?]
  constructor
  · rintro ⟨hook, place, hhook, target, hstrength, rfl⟩
    exact ⟨hook, hhook, hstrength⟩
  · rintro ⟨hook, hhook, hstrength⟩
    exact ⟨hook, slot.place, hhook, slot.target, hstrength, rfl⟩

/-- **Slots are in order, so none occurs twice.** -/
theorem pairwise_slots (plan : Plan) : plan.slots.Pairwise Slot.Before := by
  rw [slots, List.pairwise_flatMap]
  constructor
  · intro entry _
    rw [List.pairwise_map]
    have htargets : [PatchTarget.model, .clip].Pairwise fun first second =>
        first = .model ∧ second = .clip := by simp
    exact (htargets.filter _).imp fun h => Or.inr ⟨rfl, h⟩
  · have hplaces : plan.hooks.zipIdx.Pairwise fun first second => first.2 < second.2 := by
      apply List.pairwise_map.mp
      rw [List.zipIdx_map_snd]
      exact List.pairwise_lt_range'
    apply hplaces.imp
    intro first second hlt a ha b hb
    obtain ⟨_, _, rfl⟩ := List.mem_map.mp ha
    obtain ⟨_, _, rfl⟩ := List.mem_map.mp hb
    exact Or.inl hlt

/-- **The patches of a plan are those of its slots, in order.** -/
theorem map_patchAt?_slots (plan : Plan) :
    plan.slots.map plan.patchAt? = plan.patches.map some := by
  have hentry : ∀ entry ∈ plan.hooks.zipIdx,
      ((targetsOf entry.1).map (Slot.mk entry.2)).map plan.patchAt? =
        (patchesOf entry.1).map some := by
    intro entry hmem
    have hhook : plan.hooks[entry.2]? = some entry.1 := List.mem_zipIdx_iff_getElem?.mp hmem
    rw [patchesOf_eq, List.map_map, List.map_map]
    apply List.map_congr_left
    intro target _
    simp only [Function.comp_apply, patchAt?, hhook, Option.map_some]
  calc plan.slots.map plan.patchAt?
      = plan.hooks.zipIdx.flatMap fun entry => (patchesOf entry.1).map some := by
        rw [slots, List.map_flatMap]
        exact List.flatMap_congr hentry
    _ = (plan.hooks.zipIdx.map Prod.fst).flatMap fun hook => (patchesOf hook).map some := by
        rw [List.flatMap_map]
    _ = plan.patches.map some := by
        rw [List.zipIdx_map_fst, patches, List.map_flatMap]

theorem length_slots (plan : Plan) : plan.slots.length = plan.patches.length := by
  rw [← List.length_map plan.patchAt?, map_patchAt?_slots, List.length_map]

/-- Patches of a longer plan are added behind those there are. -/
theorem patches_append (first second : List Hook) :
    patches ⟨first ++ second⟩ = patches ⟨first⟩ ++ patches ⟨second⟩ :=
  List.flatMap_append

/-! ## Calls of a sink -/

/-- The calls of the sink in a dispatch, by a sink that notes them. -/
def calls (plan : Plan) : List (List Patch) :=
  (plan.dispatch (fun noted patches => noted ++ [patches]) []).1

theorem calls_eq (plan : Plan) :
    plan.calls = if plan.slots = [] then [] else [plan.patches] := by
  have hempty : plan.patches.isEmpty = true ↔ plan.slots = [] := by
    rw [List.isEmpty_iff, ← List.length_eq_zero_iff, ← length_slots, List.length_eq_zero_iff]
  simp only [calls, dispatch, hempty, List.nil_append]

/-- Whatever a sink does with a model, it is called as the noting one is. -/
theorem dispatch_eq_foldl_calls {σ : Type} (plan : Plan) (sink : σ → List Patch → σ) (state : σ) :
    plan.dispatch sink state = (plan.calls.foldl sink state, plan.slots.length) := by
  rw [length_slots, calls, dispatch, dispatch]
  split_ifs <;> rfl

/-- **A sink is handed the patches of all slots with a strength, at once.**  The plan is an earlier
one followed by hooks.  Its slots with a strength, in order, give the patches, those of the earlier
plan first; the sink is called once with these, or not at all if there are none, and their number
is returned. -/
theorem dispatch_compose (prior : Option Plan) (hooks : List Hook) :
    let plan := compose prior hooks
    ∃ (slots : List Slot) (patches : List Patch),
      slots.Pairwise Slot.Before ∧
      (∀ slot, slot ∈ slots ↔ plan.HasStrengthAt slot) ∧
      slots.map plan.patchAt? = patches.map some ∧
      patches = ((prior.map Plan.patches).getD []) ++ Plan.patches ⟨hooks⟩ ∧
      plan.calls = (if slots = [] then [] else [patches]) ∧
      ∀ (σ : Type) (sink : σ → List Patch → σ) (state : σ),
        plan.dispatch sink state = (plan.calls.foldl sink state, slots.length) := by
  intro plan
  have hpatches : plan.patches = ((prior.map Plan.patches).getD []) ++ Plan.patches ⟨hooks⟩ := by
    cases prior with
    | none => rfl
    | some prior => exact patches_append prior.hooks hooks
  exact ⟨plan.slots, plan.patches, plan.pairwise_slots, fun _ => mem_slots_iff,
    plan.map_patchAt?_slots, hpatches, plan.calls_eq, fun _ => plan.dispatch_eq_foldl_calls⟩

end Plan

end LoraSchedule
