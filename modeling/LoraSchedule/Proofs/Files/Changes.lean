import LoraSchedule.Dict.Lemmas
import LoraSchedule.Proofs.Files.Tree

/-!
# Changing one file

Two trees may differ at one place only, where neither has a directory
(`FileTree.DiffersAt`).  No path goes through that place, so that a path leads to
the same node in both unless it leads just there (`DiffersAt.node?_eq`).  Writing
over a file and removing one are such changes.

Links apart, a path to a file ends in the name of the file
(`exists_of_fileName?`), and a path with another name in its stead leads to
another place (`ne_of_locate?_withFileName`).
-/

namespace LoraSchedule.FileTree

open LoraSchedule.Path (slash point)
open LoraSchedule.Text

variable {t t' : FileTree} {place target : List Bytes}

/-! ## Trees that differ at one place -/

/-- A tree with a file at a place, and one that is like it except that it has
another file there, or none. -/
structure DiffersAt (place : List Bytes) (t t' : FileTree) : Prop where
  workingDirectory : t'.workingDirectory = t.workingDirectory
  elsewhere : ∀ other, other ≠ place → t'.nodeAt? other = t.nodeAt? other
  exists_file : ∃ contents, t.nodeAt? place = some (.file contents)
  file_or_none : t'.nodeAt? place = none ∨ ∃ contents, t'.nodeAt? place = some (.file contents)

namespace DiffersAt

variable (h : DiffersAt place t t')

include h

theorem ne_directory : t.nodeAt? place ≠ some .directory := by
  obtain ⟨contents, hfile⟩ := h.exists_file
  simp [hfile]

theorem ne_directory' : t'.nodeAt? place ≠ some .directory := by
  rcases h.file_or_none with hnone | ⟨contents, hfile⟩
  · simp [hnone]
  · simp [hfile]

/-- The directories are the same. -/
theorem directory_iff (other : List Bytes) :
    t'.nodeAt? other = some .directory ↔ t.nodeAt? other = some .directory := by
  by_cases hother : other = place
  · rw [hother]
    exact iff_of_false h.ne_directory' h.ne_directory
  · rw [h.elsewhere other hother]

/-- Where the trees differ, a walk that comes there goes on in neither. -/
theorem enter_cases (folder : List Bytes) (rest : List Bytes) :
    (t.enter folder place rest = .arrived place ∧
        (t'.enter folder place rest = .arrived place ∨
          t'.enter folder place rest = .lost ∧ t'.nodeAt? place = none)) ∨
      t.enter folder place rest ≠ .arrived place ∧
        t'.enter folder place rest = t.enter folder place rest := by
  obtain ⟨contents, hfile⟩ := h.exists_file
  have henter : t.enter folder place rest = t.walk place rest := by simp only [enter, hfile]
  rw [henter]
  cases rest with
  | nil =>
      refine Or.inl ⟨by rw [walk], ?_⟩
      rcases h.file_or_none with hnone | ⟨contents', hfile'⟩
      · exact Or.inr ⟨by simp only [enter, hnone], hnone⟩
      · exact Or.inl (by simp only [enter, hfile', walk])
  | cons segment rest =>
      rw [walk_of_not_directory h.ne_directory]
      refine Or.inr ⟨by simp, ?_⟩
      rcases h.file_or_none with hnone | ⟨contents', hfile'⟩
      · simp only [enter, hnone]
      · simp only [enter, hfile', walk_of_not_directory h.ne_directory']

/-- **A walk is the same in both trees**, unless it arrives at the place where they
differ. -/
theorem walk_cases (start segments : List Bytes) :
    (t.walk start segments = .arrived place ∧
        (t'.walk start segments = .arrived place ∨
          t'.walk start segments = .lost ∧ t'.nodeAt? place = none)) ∨
      t.walk start segments ≠ .arrived place ∧ t'.walk start segments = t.walk start segments := by
  induction segments generalizing start with
  | nil =>
      by_cases hstart : start = place
      · exact Or.inl ⟨by rw [hstart, walk], Or.inl (by rw [hstart, walk])⟩
      · exact Or.inr ⟨fun heq => hstart (Walk.arrived.inj heq), rfl⟩
  | cons segment rest ih =>
      by_cases hplace : t.nodeAt? start = some .directory
      swap
      · rw [walk_of_not_directory hplace,
          walk_of_not_directory (mt (h.directory_iff start).mp hplace)]
        exact Or.inr ⟨by simp, rfl⟩
      have hplace' := (h.directory_iff start).mpr hplace
      rcases Path.component?_cases segment with hblank | hparent | hname
      · rw [walk_blank hplace hblank, walk_blank hplace' hblank]
        exact ih start
      · rw [walk_parent hplace hparent, walk_parent hplace' hparent]
        exact ih start.dropLast
      rw [walk_name hplace hname, walk_name hplace' hname]
      by_cases hnext : start ++ [segment] = place
      · rw [hnext]
        exact h.enter_cases start rest
      · rw [enter, enter, h.elsewhere _ hnext]
        split
        · exact Or.inr ⟨by simp, rfl⟩
        · exact Or.inr ⟨by simp, rfl⟩
        · exact ih _

/-- **So is what is followed.** -/
theorem follow?_cases (links : Nat) (start segments : List Bytes) :
    ((∃ left, t.follow? links start segments = some (left, place)) ∧
        ((∃ left, t'.follow? links start segments = some (left, place)) ∨
          t'.follow? links start segments = none ∧ t'.nodeAt? place = none)) ∨
      (∀ left, t.follow? links start segments ≠ some (left, place)) ∧
        t'.follow? links start segments = t.follow? links start segments := by
  induction links using Nat.strong_induction_on generalizing start segments with
  | _ links ih =>
  rw [follow?_eq, follow?_eq t']
  rcases h.walk_cases start segments with ⟨hwalk, hwalk' | ⟨hwalk', hnone⟩⟩ | ⟨hne, hsame⟩
  · rw [hwalk, hwalk']
    exact Or.inl ⟨⟨links, rfl⟩, Or.inl ⟨links, rfl⟩⟩
  · rw [hwalk, hwalk']
    exact Or.inl ⟨⟨links, rfl⟩, Or.inr ⟨rfl, hnone⟩⟩
  · rw [hsame]
    cases hwalk : t.walk start segments with
    | lost => exact Or.inr ⟨by simp, rfl⟩
    | arrived mid =>
        refine Or.inr ⟨fun left heq => hne ?_, rfl⟩
        rw [hwalk, (Prod.mk.inj (Option.some.inj heq)).2]
    | atLink folder link rest =>
        cases links with
        | zero => exact Or.inr ⟨by simp, rfl⟩
        | succ links =>
            by_cases hempty : link.bytes = []
            · simp only [if_pos hempty]
              exact Or.inr ⟨by simp, trivial⟩
            · simp only [if_neg hempty]
              exact ih links (Nat.lt_succ_self _) _ _

/-- **A path leads to the same node in both trees**, unless it leads to the place
where they differ. -/
theorem node?_eq (p : Path) :
    t'.node? p = if t.locate? p = some place then t'.nodeAt? place else t.node? p := by
  simp only [node?, locate?, trace?, h.workingDirectory, Option.bind_eq_bind]
  by_cases hempty : p.bytes = []
  · simp [hempty]
  simp only [if_neg hempty]
  rcases h.follow?_cases maxLinks (startFrom t.workingDirectory p) (Path.segments p.bytes) with
    ⟨⟨left, hfollow⟩, ⟨left', hfollow'⟩ | ⟨hlost, hnone⟩⟩ | ⟨hne, hsame⟩
  · simp [hfollow, hfollow']
  · simp [hfollow, hlost, hnone]
  · rw [hsame]
    cases hfollow : t.follow? maxLinks (startFrom t.workingDirectory p) (Path.segments p.bytes) with
    | none => simp
    | some mid =>
        have hmid : mid.2 ≠ place := fun heq => hne mid.1 (by rw [hfollow, ← heq])
        simp [hmid, h.elsewhere mid.2 hmid]

theorem node?_of_ne {p : Path} (hp : t.locate? p ≠ some place) : t'.node? p = t.node? p := by
  rw [h.node?_eq, if_neg hp]

end DiffersAt

/-! ## Writing and removing files -/

theorem lookup_filter_ne (nodes : List (List Bytes × Node)) (place other : List Bytes) :
    (nodes.filter fun node => node.1 ≠ place).lookup other =
      if other = place then none else nodes.lookup other := by
  rw [Dict.lookup_filter_key (fun key => decide (key ≠ place))]
  by_cases hother : other = place <;> simp [hother]

theorem nodeAt?_put (hne : place ≠ []) (node : Node) (other : List Bytes) :
    (t.put place node).nodeAt? other = if other = place then some node else t.nodeAt? other := by
  by_cases hother : other = place
  · simp [nodeAt?, put, hother, hne]
  · have hbeq : (other == place) = false := by simpa using hother
    simp only [nodeAt?, put, List.lookup_cons, hbeq, lookup_filter_ne, if_neg hother]

theorem nodeAt?_remove (hne : place ≠ []) (other : List Bytes) :
    (t.remove place).nodeAt? other = if other = place then none else t.nodeAt? other := by
  by_cases hother : other = place
  · simp only [nodeAt?, remove, lookup_filter_ne, hother, if_neg hne, if_true]
  · simp only [nodeAt?, remove, lookup_filter_ne, if_neg hother]

section Files

variable {contents : Bytes} (hfile : t.nodeAt? place = some (.file contents))

include hfile

/-- The root is a directory. -/
theorem ne_nil_of_file : place ≠ [] := by
  rintro rfl
  cases hfile

theorem differsAt_put (written : Bytes) : DiffersAt place t (t.put place (.file written)) := by
  have hne := ne_nil_of_file hfile
  refine ⟨rfl, fun other hother => ?_, ⟨contents, hfile⟩, Or.inr ⟨written, ?_⟩⟩
  · rw [nodeAt?_put hne, if_neg hother]
  · rw [nodeAt?_put hne, if_pos rfl]

theorem differsAt_remove : DiffersAt place t (t.remove place) := by
  have hne := ne_nil_of_file hfile
  refine ⟨rfl, fun other hother => ?_, ⟨contents, hfile⟩, Or.inl ?_⟩
  · rw [nodeAt?_remove hne, if_neg hother]
  · rw [nodeAt?_remove hne, if_pos rfl]

/-! ## Files beside each other -/

variable {p : Path} {name : Bytes}

/-- **A path to a file ends in the name of the file**, without links. -/
theorem exists_of_fileName? (hlinks : t.LinkFree) (hp : t.locate? p = some place)
    (hname : p.fileName? = some name) : ∃ mid, place = mid ++ [name] := by
  obtain ⟨left, htrace⟩ := locate?_eq_some_iff.mp hp
  rw [trace?_eq (bytes_ne_nil_of_trace? htrace)] at htrace
  obtain hnil | ⟨front, last, hlast⟩ := (Path.segments p.bytes).eq_nil_or_concat'
  · exact absurd hnil (List.splitOn_ne_nil _ _)
  have hslash : slash ∉ last := (mem_splitOn (show last ∈ Path.segments p.bytes by simp [hlast])).1
  have hgetLast : (Path.segments p.bytes).getLast? = some last := by simp [hlast]
  rw [hlast] at htrace
  obtain ⟨mid, -, hstep, hparent | hcomponent⟩ := exists_mid_of_follow? htrace (by simp [hfile])
  · -- a step to the parent is no name
    have hend : p.components.getLast? = some .parent := by
      rw [Path.components, hlast, List.filterMap_append, ← List.append_assoc]
      simp [hparent]
    rw [Path.fileName?, hend] at hname
    cases hname
  · have hisName := (Path.isName_of_component? hslash hcomponent).2
    obtain rfl : last = name :=
      Option.some.inj ((Path.fileName?_of_getLast? hgetLast hisName).symm.trans hname)
    exact ⟨mid.2, hlinks.eq_append_of_follow? hisName hstep⟩

/-- **Another name leads to another place**, without links. -/
theorem ne_of_locate?_withFileName (hlinks : t.LinkFree) (hp : t.locate? p = some place)
    (hname : IsName name) (hother : p.fileName? ≠ some name) :
    t.locate? (p.withFileName name) ≠ some place := by
  intro hq
  have habsolute : (⟨name⟩ : Path).isAbsolute = false := by
    have hhead : name.head? ≠ some slash := fun heq => hname.slash (List.mem_of_mem_head? heq)
    simpa [Path.isAbsolute] using hhead
  have hsegments : Path.segments (⟨name⟩ : Path).bytes = [name] :=
    Path.segments_of_not_mem hname.slash
  cases hfileName : p.fileName? with
  | none =>
      -- the path itself would have to lead to a directory
      obtain ⟨left, htrace⟩ := locate?_eq_some_iff.mp hp
      obtain ⟨left', hfollow⟩ := locate?_eq_some_iff.mp hq
      rw [Path.withFileName, hfileName, Option.isSome_none, if_neg Bool.false_ne_true,
        trace?_join (bytes_ne_nil_of_trace? htrace) habsolute, htrace,
        Option.bind_some, hsegments] at hfollow
      rw [nodeAt?_of_follow?_cons hfollow] at hfile
      cases hfile
  | some own =>
      obtain ⟨mid, rfl⟩ := exists_of_fileName? hfile hlinks hp hfileName
      have hqName : (p.withFileName name).fileName? = some name :=
        Path.fileName?_join _ habsolute (by rw [hsegments]; rfl) hname
      obtain ⟨mid', hplace⟩ := exists_of_fileName? hfile hlinks hq hqName
      have hsame : own = name := List.append_inj_right' hplace rfl |> List.singleton_inj.mp
      exact hother (by rw [hfileName, hsame])

end Files

end LoraSchedule.FileTree
