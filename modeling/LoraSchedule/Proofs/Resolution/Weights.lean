import LoraSchedule.Detection
import LoraSchedule.Dict.Lemmas
import LoraSchedule.Proofs.Container.Scan
import LoraSchedule.Proofs.Engine.History
import LoraSchedule.Proofs.Resolution.Outcome
import LoraSchedule.Proofs.Statistics.Records

/-!
# What an entry does to the tensors of its file

The weights of an entry go by block ids, and the ids of blocks that a preset
weighs are found by a scan of the whole file: it meets tensors that are not
loaded, too, and may count more layers than the loaded tensors have.  Still each
loaded tensor is multiplied by the factor that the entry has for the block and
the role of the tensor itself (`apply_scales_tensors`).

* `get?_presetWeights`: the preset's weight of a block is its factor for the
  recorded role.
* `get?_entryWeights`: the record is right about every tensor of the file, so
  the weight of its block is the factor of the entry.
* `get?_applied`: this is what the tensor is multiplied by.
-/

namespace LoraSchedule

open LoraSchedule.Container (Loader LoadError)
open LoraSchedule.Number (Binary Double)

/-! ## Factors -/

/-- The factor of a preset for a role, unless it is neutral; an id that names no
preset has none. -/
def Preset.factor? (id : String) (role : Role) : Option Double :=
  (Preset.ofId? id).bind fun preset =>
    let factor := round4 (preset.weight role)
    if isNeutral factor then none else some factor

/-- The factor of an entry for a block of a role: the entry's own for the id, or
else the one of its preset. -/
def Entry.factor? (e : Entry) (id : String) (role : Role) : Option Double :=
  (e.vectors.get? id).or (e.preset.bind fun preset => Preset.factor? preset role)

/-- A tensor multiplied by a factor in single precision, if there is one. -/
def Tensor.scaleBy? (tensor : Tensor) : Option Double → Tensor
  | some factor => tensor.scale (factor.convert .single)
  | none => tensor

@[simp] theorem Tensor.shape_scaleBy? (tensor : Tensor) (factor : Option Double) :
    (tensor.scaleBy? factor).shape = tensor.shape := by
  cases factor <;> rfl

theorem Tensor.values_scaleBy? (tensor : Tensor) (factor : Option Double) :
    (tensor.scaleBy? factor).values =
      match factor with
      | some factor => tensor.values.map (· * factor.convert .single)
      | none => tensor.values := by
  cases factor <;> rfl

theorem Preset.factor?_empty (role : Role) : Preset.factor? "" role = none := rfl

theorem get?_presetWeights (a : Architecture) (preset : String) (ids : List String)
    (records : Dict BlockRecord) (id : String) :
    (presetWeights a preset ids records).get? id =
      if id ∈ ids then Preset.factor? preset (roleOfId a records id) else none := by
  unfold presetWeights Preset.factor?
  cases Preset.ofId? preset with
  | none => simp
  | some preset =>
      rw [Option.bind_some, ← Dict.get?_ofList_filterMap ids fun id =>
        if isNeutral (round4 (preset.weight (roleOfId a records id))) then none
        else some (round4 (preset.weight (roleOfId a records id)))]
      refine congrArg (fun entries => (Dict.ofList entries).get? id) ?_
      refine List.filterMap_congr ?_
      intro id _
      split <;> simp [*]

/-- **In the statistics of a file, each of its tensors has the weight of its own
block and role.** -/
theorem get?_entryWeights (e : Entry) (a : Architecture) {norms : List (String × Double)}
    {key : String} (hkey : key ∈ norms.map Prod.fst) :
    (entryWeights e a (if e.hasPreset then some (.ofNorms a norms) else none)).get?
        (Block.ofKey a.layout key).id =
      e.factor? (Block.ofKey a.layout key).id
        ((Block.ofKey a.layout key).role a.layout (Block.layerCount (norms.map Prod.fst))) := by
  unfold Entry.factor? Entry.hasPreset
  cases hpreset : e.preset with
  | none => simp [entryWeights, hpreset]
  | some preset =>
      by_cases hempty : preset = ""
      · subst hempty
        simp [entryWeights, hpreset, Preset.factor?_empty]
      · have hlisted : (Block.ofKey a.layout key).id ∈ (Statistics.ofNorms a norms).blockIds := by
          obtain ⟨tensor, htensor, rfl⟩ := List.mem_map.mp hkey
          exact Statistics.mem_blockIds_ofNorms.mpr ⟨tensor, htensor, rfl⟩
        have hrole := Statistics.get?_blocks_ofNorms (a := a) hkey
        have hsome : ((some preset).filter (· ≠ "")).isSome = true := by simp [hempty]
        rw [if_pos hsome]
        simp only [entryWeights, hpreset]
        rw [Dict.get?_union, get?_presetWeights, if_pos hlisted, roleOfId, hrole]
        rfl

/-! ## Hooks -/

section Hooks

variable (e : Entry) (a : Architecture) (weights : Dict Double) (tensors : TensorDict)

theorem tensors_applied :
    (applied e a weights tensors).hook.tensors = applyWeights a weights tensors := by
  show (if weights.isEmpty then tensors else applyWeights a weights tensors) = _
  split
  · rename_i hempty
    refine Dict.ext_get? ?_
    intro key
    rw [applyWeights, Dict.get?_map, Dict.get?_of_isEmpty hempty]
    cases tensors.get? key <;> rfl
  · rfl

theorem get?_applied (key : String) :
    (applied e a weights tensors).hook.tensors.get? key =
      (tensors.get? key).map fun tensor =>
        tensor.scaleBy? (weights.get? (Block.ofKey a.layout key).id) := by
  rw [tensors_applied, applyWeights, Dict.get?_map]
  rfl

theorem keys_applied : (applied e a weights tensors).hook.tensors.keys = tensors.keys := by
  rw [tensors_applied, applyWeights, Dict.keys_map]

end Hooks

/-! ## Files -/

variable {t : FileTree} {loader : Loader} {p : Path} {tensors : TensorDict}

/-- What is loaded from a file is among what a scan of it meets. -/
theorem exists_visit_of_load (hload : loader.load t p = .ok tensors) :
    ∃ visited, loader.visit t p = .ok visited ∧
      ∀ key tensor, tensors.get? key = some tensor → key ∈ visited.map Prod.fst := by
  rw [Loader.load_eq] at hload
  cases hvisit : loader.visit t p with
  | error error => simp [hvisit, Except.map] at hload
  | ok visited =>
      rw [hvisit] at hload
      obtain rfl := Except.ok.inj hload
      refine ⟨visited, rfl, ?_⟩
      intro key tensor hfound
      have hkey := Dict.mem_keys_ofList.mp (Dict.mem_keys_iff.mpr (Option.isSome_of_eq_some hfound))
      obtain ⟨⟨name, value⟩, hentry, rfl⟩ := List.mem_map.mp hkey
      obtain ⟨found, hmem, hsome⟩ := List.mem_filterMap.mp hentry
      obtain ⟨decoded, -, heq⟩ := Option.map_eq_some_iff.mp hsome
      exact List.mem_map.mpr ⟨found, hmem, congrArg Prod.fst heq⟩

/-- With the statistics of its file, an entry multiplies each tensor by its
factor for the block and the role of the tensor. -/
theorem get?_applied_of_visit (e : Entry) (a : Architecture)
    {visited : List (String × Except LoadError Tensor)}
    (hvisit : loader.visit t p = .ok visited) {key : String} {tensor : Tensor}
    (hnamed : key ∈ visited.map Prod.fst) (htensor : tensors.get? key = some tensor) :
    (applied e a (entryWeights e a (if e.hasPreset then statisticsOf? t loader p a else none))
        tensors).hook.tensors.get? key =
      some (tensor.scaleBy? (e.factor? (Block.ofKey a.layout key).id
        ((Block.ofKey a.layout key).role a.layout (Block.layerCount (visited.map Prod.fst))))) := by
  have hstatistics : statisticsOf? t loader p a =
      some (.ofNorms a (visited.map fun tensor => (tensor.1, countedNorm tensor.2))) := by
    rw [statisticsOf?, hvisit]
  have hnames : (visited.map fun tensor => (tensor.1, countedNorm tensor.2)).map Prod.fst =
      visited.map Prod.fst := by
    rw [List.map_map]
    rfl
  have hweight := get?_entryWeights e a (hnames ▸ hnamed)
  rw [get?_applied, htensor, Option.map_some, hstatistics, hweight, hnames]

/-! ## Applied entries -/

/-- **What an applied entry does to the tensors of its file**, if the statistics
that are answered for it are those of the file.  The hook has the tensors that
are loaded; each keeps its shape, and its values are multiplied by the factor
that the entry has for the block and the role of the tensor among all tensors
that the file names. -/
theorem apply_scales_tensors {σ : Type} (source : Source σ) (t : FileTree) (loader : Loader)
    (e : Entry) (s : σ) {result : Applied}
    (hload : ∀ p, source.load? p = (loader.load t p).toOption)
    (hstatistics : ∀ p, source.resolve? e.name = some p →
      let family := (source.askFamily e p s).1
      (source.statistics? p family (source.askFamily e p s).2).1 = statisticsOf? t loader p family)
    (happlied : (source.apply e s).1 = some result) :
    ∃ p tensors visited, source.resolve? e.name = some p ∧ loader.load t p = .ok tensors ∧
      loader.visit t p = .ok visited ∧ result.hook.tensors.keys = tensors.keys ∧
      ∀ key tensor, tensors.get? key = some tensor →
        let layout := (source.askFamily e p s).1.layout
        let block := Block.ofKey layout key
        let role := block.role layout (Block.layerCount (visited.map Prod.fst))
        ∃ weighted, result.hook.tensors.get? key = some weighted ∧
          weighted.shape = tensor.shape ∧
          weighted.values =
            match e.factor? block.id role with
            | some factor => tensor.values.map (· * factor.convert .single)
            | none => tensor.values := by
  obtain ⟨p, tensors, hpath, hloaded, rfl⟩ := source.exists_of_apply_eq_some happlied
  have hok : loader.load t p = .ok tensors := by
    rw [hload] at hloaded
    cases hresult : loader.load t p with
    | error error => simp [hresult, Except.toOption] at hloaded
    | ok found => simpa [hresult, Except.toOption] using hloaded
  obtain ⟨visited, hvisit, hnamed⟩ := exists_visit_of_load hok
  have hanswer : (source.statisticsFor e p (source.askFamily e p s).1
      (source.askFamily e p s).2).1 =
        if e.hasPreset then statisticsOf? t loader p (source.askFamily e p s).1 else none := by
    rw [← hstatistics p hpath]
    unfold Source.statisticsFor Entry.hasPreset
    split <;> rfl
  refine ⟨p, tensors, visited, hpath, hok, hvisit, keys_applied .., ?_⟩
  intro key tensor htensor layout block role
  refine ⟨tensor.scaleBy? (e.factor? block.id role), ?_, tensor.shape_scaleBy? _,
    tensor.values_scaleBy? _⟩
  rw [hanswer]
  exact get?_applied_of_visit e _ hvisit (hnamed key tensor htensor) htensor

/-- A block of Flux that a fresh engine finds to be early: the preset has 0.6
for it. -/
theorem apply_scales_tensors_sample :
    ∃ result, ((Engine.sampleEngine.source Engine.sampleTree).apply (Engine.sampleEntry .unknown)
        .empty).1 = some result ∧
      ∃ weighted, result.hook.tensors.get? "double_blocks.0.w" = some weighted ∧
        weighted.shape = [1] ∧
        weighted.values = [(Binary.ofDecimal ⟨false, 6, -1⟩ : Double).convert .single] := by
  have hsample : Engine.sampleEngine.resolvePath? Engine.sampleTree
      (Engine.sampleEntry .unknown).name = some Engine.samplePath := by
    decide
  have hfresh : Engine.sampleEngine.Keeps Engine.sampleTree {Engine.samplePath} (fun _ => none)
      .empty :=
    Engine.keeps_of_forgotten _ fun _ => rfl
  let view := Engine.view (Path.shownApart_singleton Engine.samplePath) Engine.sampleEngine
    Engine.sampleTree
  have happlied : ((Engine.sampleEngine.source Engine.sampleTree).apply
      (Engine.sampleEntry .unknown) .empty).1.isSome = true := by
    decide +kernel
  obtain ⟨result, hresult⟩ := Option.isSome_iff_exists.mp happlied
  obtain ⟨p, tensors, visited, hpath, hload, hvisit, -, hweighted⟩ :=
    apply_scales_tensors (Engine.sampleEngine.source Engine.sampleTree) Engine.sampleTree
      Engine.sampleEngine.loader (Engine.sampleEntry .unknown) .empty (fun _ => rfl)
      (fun p hp => by
        have hcovers : view.Covers p := Option.some.inj (hp.symm.trans hsample)
        exact (view.statistics_spec (view.askFamily_spec hfresh _ hcovers).2 p hcovers _).1)
      hresult
  obtain rfl : p = Engine.samplePath := Option.some.inj (hpath.symm.trans hsample)
  have htensor : (Engine.sampleEngine.loader.load Engine.sampleTree Engine.samplePath).toOption.bind
      (Dict.get? · "double_blocks.0.w") =
        some ⟨[1], [(Binary.ofNat 1 : Double).convert .single]⟩ := by
    decide +kernel
  rw [hload, Except.toOption, Option.bind_some] at htensor
  obtain ⟨weighted, hfound, hshape, hvalues⟩ := hweighted _ _ htensor
  have hfamily : ((Engine.sampleEngine.source Engine.sampleTree).askFamily
      (Engine.sampleEntry .unknown) Engine.samplePath .empty).1 = .flux1 := by
    decide +kernel
  have hblock : Block.ofKey Architecture.flux1.layout "double_blocks.0.w" = .double 0 := by
    decide
  have hfactor : (Engine.sampleEntry .unknown).factor? (Block.double 0).id .pose =
      some (Binary.ofDecimal ⟨false, 6, -1⟩) := by
    decide +kernel
  have hvalue : (Binary.ofNat 1 : Double).convert .single *
      (Binary.ofDecimal ⟨false, 6, -1⟩ : Double).convert .single =
        (Binary.ofDecimal ⟨false, 6, -1⟩ : Double).convert .single := by
    decide +kernel
  have hrole : Block.role Architecture.flux1.layout (Block.layerCount (visited.map Prod.fst))
      (.double 0) = .pose := rfl
  rw [hfamily, hblock, hrole, hfactor] at hvalues
  exact ⟨result, hresult, weighted, hfound, hshape,
    hvalues.trans (congrArg (fun value => [value]) hvalue)⟩

end LoraSchedule
