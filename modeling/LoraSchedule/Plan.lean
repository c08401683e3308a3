import LoraSchedule.Container.Tensor
import LoraSchedule.Schedule.Entry

/-!
# Activation plans

A plan lists the hooks of a schedule in their order.  A hook patches the diffusion model and the
text encoder, each with its own strength; a strength of zero patches nothing.
-/

namespace LoraSchedule

open LoraSchedule.Number (Binary Double)

/-- A LoRA that is applied with block weights already in its tensors. -/
structure Hook where
  name : String
  tensors : TensorDict
  modelStrength : Double
  clipStrength : Double
  /-- The strength curve; without points it is constant. -/
  keyframes : List KeyPoint
deriving DecidableEq

/-- The part of the model that a patch changes. -/
inductive PatchTarget
  | model
  | clip
deriving DecidableEq

structure Patch where
  hook : Hook
  target : PatchTarget
  strength : Double
deriving DecidableEq

structure Plan where
  hooks : List Hook
deriving DecidableEq, Inhabited

namespace Plan

/-- The hooks of an earlier plan, if there is one, followed by new ones. -/
def compose (prior : Option Plan) (hooks : List Hook) : Plan :=
  ⟨(prior.map Plan.hooks).getD [] ++ hooks⟩

/-- The patches of a hook whose strengths are not zero. -/
def patchesOf (hook : Hook) : List Patch :=
  [⟨hook, .model, hook.modelStrength⟩, ⟨hook, .clip, hook.clipStrength⟩].filter
    fun patch => !patch.strength.isZero

/-- The patches of a plan, hook by hook. -/
def patches (plan : Plan) : List Patch := plan.hooks.flatMap patchesOf

/-- Hands the patches of a plan to a sink, which changes the state of a model; the sink is not
called without a patch.  The number of patches comes with the state. -/
def dispatch {σ : Type} (plan : Plan) (sink : σ → List Patch → σ) (state : σ) : σ × Nat :=
  let patches := plan.patches
  (if patches.isEmpty then state else sink state patches, patches.length)

end Plan

end LoraSchedule
