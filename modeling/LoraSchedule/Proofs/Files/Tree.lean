import LoraSchedule.Files.Tree
import LoraSchedule.Proofs.Files.Path

/-!
# Places in file trees

A path is followed part by part (`walk`), and from each link on along what the
link says (`follow?_append`).  A relative path continued from a root leads where
it leads from the root's own place (`trace?_join`).

A tree is well formed (`FileTree.WellFormed`) if what it lists are names, each
place is listed once, and whatever is listed lies in a directory.  There a row
of names leads to the place that it spells, with no link on the way
(`WellFormed.follow?_names`).

A path to a file ends in a name (`exists_name_of_follow?`).  Links apart
(`FileTree.LinkFree`), this is the name of the file, and nothing but a step to a
parent leads upwards (`LinkFree.prefix_of_follow?`).
-/

namespace LoraSchedule

/-- Whether a node is a symbolic link. -/
def Node.isLink : Node → Bool
  | .link _ => true
  | _ => false

namespace FileTree

open LoraSchedule.Path (slash point)
open LoraSchedule.Text

variable {t : FileTree} {place target : List Bytes} {links left : Nat}

/-! ## Walking -/

section Walking

variable {segment : Bytes}

theorem walk_of_not_directory (h : t.nodeAt? place ≠ some .directory) (rest : List Bytes) :
    t.walk place (segment :: rest) = .lost := by
  rw [walk, if_pos h]

theorem walk_blank (hplace : t.nodeAt? place = some .directory)
    (hsegment : Path.component? segment = none) (rest : List Bytes) :
    t.walk place (segment :: rest) = t.walk place rest := by
  rw [walk, if_neg (not_not.mpr hplace), hsegment]

theorem walk_parent (hplace : t.nodeAt? place = some .directory)
    (hsegment : Path.component? segment = some .parent) (rest : List Bytes) :
    t.walk place (segment :: rest) = t.walk place.dropLast rest := by
  rw [walk, if_neg (not_not.mpr hplace), hsegment]

/-- How a walk goes on that comes to a place from the directory it is in. -/
def enter (t : FileTree) (folder place rest : List Bytes) : Walk :=
  match t.nodeAt? place with
  | none => .lost
  | some (.link target) => .atLink folder target rest
  | some _ => t.walk place rest

theorem walk_name {name : Bytes} (hplace : t.nodeAt? place = some .directory)
    (hsegment : Path.component? segment = some (.name name)) (rest : List Bytes) :
    t.walk place (segment :: rest) = t.enter place (place ++ [name]) rest := by
  have hwalk := walk.eq_2 t place segment rest
  rw [if_neg (not_not.mpr hplace), hsegment] at hwalk
  exact hwalk

theorem enter_of_node {node : Node} (hnode : t.nodeAt? place = some node)
    (hlink : ∀ link, node ≠ .link link) (folder rest : List Bytes) :
    t.enter folder place rest = t.walk place rest := by
  rw [enter, hnode]
  cases node with
  | link link => exact absurd rfl (hlink link)
  | file contents => rfl
  | directory => rfl

end Walking

/-- A walk goes on from where its first part arrives. -/
theorem walk_append (t : FileTree) (place : List Bytes) (front rest : List Bytes) :
    t.walk place (front ++ rest) =
      match t.walk place front with
      | .arrived mid => t.walk mid rest
      | .atLink folder target others => .atLink folder target (others ++ rest)
      | .lost => .lost := by
  induction front generalizing place with
  | nil => rfl
  | cons segment front ih =>
      rw [List.cons_append, walk.eq_2, walk.eq_2]
      by_cases hplace : t.nodeAt? place = some .directory
      · rw [if_neg (not_not.mpr hplace), if_neg (not_not.mpr hplace)]
        split
        · split
          · rfl
          · rfl
          · exact ih _
        · exact ih _
        · exact ih _
      · rw [if_pos hplace, if_pos hplace]

/-! ## Following links -/

theorem follow?_eq (t : FileTree) (links : Nat) (place segments : List Bytes) :
    t.follow? links place segments =
      match t.walk place segments with
      | .arrived place => some (links, place)
      | .lost => none
      | .atLink folder target rest =>
        match links with
        | 0 => none
        | links + 1 =>
          if target.bytes = [] then none
          else t.follow? links (startFrom folder target) (Path.segments target.bytes ++ rest) :=
  follow?.eq_def t links place segments

@[simp] theorem follow?_nil (t : FileTree) (links : Nat) (place : List Bytes) :
    t.follow? links place [] = some (links, place) := by
  rw [follow?_eq, walk]

/-- A path goes on from where its first part leads, with the links that are left. -/
theorem follow?_append (t : FileTree) (links : Nat) (place front rest : List Bytes) :
    t.follow? links place (front ++ rest) =
      (t.follow? links place front).bind fun mid => t.follow? mid.1 mid.2 rest := by
  -- by the links that may be followed: after a link the path is another one
  induction links generalizing place front with
  | zero =>
      rw [follow?_eq, follow?_eq t 0 place front, walk_append]
      cases t.walk place front with
      | arrived mid => rw [Option.bind_some, follow?_eq]
      | lost => rfl
      | atLink folder target others => rfl
  | succ links ih =>
      rw [follow?_eq, follow?_eq t (links + 1) place front, walk_append]
      cases t.walk place front with
      | arrived mid => rw [Option.bind_some, follow?_eq]
      | lost => rfl
      | atLink folder target others =>
          by_cases hempty : target.bytes = []
          · simp only [if_pos hempty, Option.bind_none]
          · simp only [if_neg hempty]
            rw [← ih, List.append_assoc]

/-- A path goes on only from a directory. -/
theorem nodeAt?_of_follow?_cons {segment : Bytes} {rest : List Bytes} {end? : Nat × List Bytes}
    (h : t.follow? links place (segment :: rest) = some end?) :
    t.nodeAt? place = some .directory := by
  by_contra hplace
  rw [follow?_eq, walk_of_not_directory hplace] at h
  cases h

/-- A part that names nothing changes nothing where a path goes on. -/
theorem follow?_blank {segment : Bytes} (hplace : t.nodeAt? place = some .directory)
    (hsegment : Path.component? segment = none) (rest : List Bytes) :
    t.follow? links place (segment :: rest) = t.follow? links place rest := by
  rw [follow?_eq, walk_blank hplace hsegment, ← follow?_eq]

theorem follow?_name {name : Bytes} {node : Node} (hplace : t.nodeAt? place = some .directory)
    (hname : IsName name) (hnode : t.nodeAt? (place ++ [name]) = some node)
    (hlink : ∀ target, node ≠ .link target) (rest : List Bytes) :
    t.follow? links place (name :: rest) = t.follow? links (place ++ [name]) rest := by
  rw [follow?_eq, walk_name hplace (Path.component?_of_isName hname), enter_of_node hnode hlink,
    ← follow?_eq]

theorem follow?_bind_of_ne_nil {rest : List Bytes} (hrest : rest ≠ []) :
    ((t.follow? links place [[]]).bind fun mid => t.follow? mid.1 mid.2 rest) =
      t.follow? links place rest := by
  rw [← follow?_append, List.singleton_append]
  by_cases hplace : t.nodeAt? place = some .directory
  · exact follow?_blank hplace rfl rest
  · obtain ⟨segment, rest, rfl⟩ := List.exists_cons_of_ne_nil hrest
    rw [follow?_eq, follow?_eq, walk_of_not_directory hplace, walk_of_not_directory hplace]

/-- The last part of a path to a file does not name nothing, as it would lead to
the directory before it. -/
theorem exists_mid_of_follow? {front : List Bytes} {last : Bytes}
    (h : t.follow? links place (front ++ [last]) = some (left, target))
    (hfile : t.nodeAt? target ≠ some .directory) :
    ∃ mid, t.follow? links place front = some mid ∧
      t.follow? mid.1 mid.2 [last] = some (left, target) ∧
        (Path.component? last = some .parent ∨ Path.component? last = some (.name last)) := by
  rw [follow?_append, Option.bind_eq_some_iff] at h
  obtain ⟨mid, hmid, hlast⟩ := h
  refine ⟨mid, hmid, hlast, (Path.component?_cases last).resolve_left fun hblank => ?_⟩
  have hdirectory := nodeAt?_of_follow?_cons hlast
  rw [follow?_blank hdirectory hblank, follow?_nil] at hlast
  obtain rfl : mid.2 = target := (Prod.mk.inj (Option.some.inj hlast)).2
  exact hfile hdirectory

/-- **A path to a file ends in a name.**  This is the name of the file or of a
link to it. -/
theorem exists_name_of_follow? {segments : List Bytes} (hparent : [point, point] ∉ segments)
    (hslash : ∀ segment ∈ segments, slash ∉ segment) (hne : segments ≠ [])
    (h : t.follow? links place segments = some (left, target))
    (hfile : t.nodeAt? target ≠ some .directory) :
    ∃ front name mid, segments = front ++ [name] ∧ IsName name ∧
      t.follow? links place front = some mid ∧ t.follow? mid.1 mid.2 [name] = some (left, target) := by
  obtain rfl | ⟨front, name, rfl⟩ := segments.eq_nil_or_concat'
  · exact absurd rfl hne
  obtain ⟨mid, hmid, hlast, hdots | hname⟩ := exists_mid_of_follow? h hfile
  · have hdots' := Path.eq_of_component?_parent hdots
    exact absurd (by simp [hdots']) hparent
  · exact ⟨front, name, mid, rfl, (Path.isName_of_component? (hslash name (by simp)) hname).2, hmid,
      hlast⟩

/-! ## Trees without links -/

theorem mem_nodes_of_nodeAt? {node : Node} (h : t.nodeAt? place = some node) (hne : place ≠ []) :
    (place, node) ∈ t.nodes := by
  rw [nodeAt?, if_neg hne, List.lookup_eq_some_iff] at h
  obtain ⟨before, after, hnodes, -⟩ := h
  simp [hnodes]

/-- There are no links. -/
def LinkFree (t : FileTree) : Prop := ∀ entry ∈ t.nodes, entry.2.isLink = false

instance (t : FileTree) : Decidable t.LinkFree := inferInstanceAs (Decidable (∀ _ ∈ _, _))

namespace LinkFree

variable (h : t.LinkFree) {segments : List Bytes}

include h

theorem nodeAt?_ne_link (place : List Bytes) (link : Path) :
    t.nodeAt? place ≠ some (.link link) := by
  intro hlink
  by_cases hne : place = []
  · simp [nodeAt?, hne] at hlink
  · have hnone := h _ (mem_nodes_of_nodeAt? hlink hne)
    cases hnone

theorem walk_of_enter {folder rest : List Bytes}
    (henter : t.enter folder place rest = .arrived target) : t.walk place rest = .arrived target := by
  cases hnode : t.nodeAt? place with
  | none => simp [enter, hnode] at henter
  | some node =>
      rwa [enter_of_node hnode fun link heq => h.nodeAt?_ne_link place link (heq ▸ hnode)] at henter

theorem walk_ne_atLink (folder : List Bytes) (link : Path) (rest : List Bytes) :
    t.walk place segments ≠ .atLink folder link rest := by
  induction segments generalizing place with
  | nil => simp [walk]
  | cons segment others ih =>
      rw [walk]
      split_ifs
      · simp
      · split
        · split
          · simp
          · rename_i hnode
            exact absurd hnode (h.nodeAt?_ne_link _ _)
          · exact ih
        · exact ih
        · exact ih

theorem walk_of_follow? (hfollow : t.follow? links place segments = some (left, target)) :
    t.walk place segments = .arrived target := by
  rw [follow?_eq] at hfollow
  cases hwalk : t.walk place segments with
  | arrived mid =>
      simp only [hwalk, Option.some.injEq, Prod.mk.injEq] at hfollow
      rw [hfollow.2]
  | lost => simp [hwalk] at hfollow
  | atLink folder link rest => exact absurd hwalk (h.walk_ne_atLink folder link rest)

/-- Without a step to a parent, a path leads further down. -/
theorem prefix_of_follow? (hparent : [point, point] ∉ segments)
    (hfollow : t.follow? links place segments = some (left, target)) : place <+: target := by
  have hwalk := h.walk_of_follow? hfollow
  clear hfollow
  induction segments generalizing place with
  | nil =>
      obtain rfl := Walk.arrived.inj hwalk
      exact List.prefix_refl _
  | cons segment rest ih =>
      rw [List.mem_cons, not_or] at hparent
      by_cases hplace : t.nodeAt? place = some .directory
      · rcases Path.component?_cases segment with hblank | hdots | hname
        · rw [walk_blank hplace hblank] at hwalk
          exact ih hparent.2 hwalk
        · exact absurd (Path.eq_of_component?_parent hdots).symm hparent.1
        · rw [walk_name hplace hname] at hwalk
          exact (List.prefix_append place _).trans (ih hparent.2 (h.walk_of_enter hwalk))
      · rw [walk_of_not_directory hplace] at hwalk
        cases hwalk

/-- The last name of a path is the name of the file. -/
theorem eq_append_of_follow? {name : Bytes} (hname : IsName name)
    (hfollow : t.follow? links place [name] = some (left, target)) : target = place ++ [name] := by
  have hwalk := h.walk_of_follow? hfollow
  rw [walk_name (nodeAt?_of_follow?_cons hfollow) (Path.component?_of_isName hname)] at hwalk
  exact (Walk.arrived.inj (h.walk_of_enter hwalk)).symm

end LinkFree

/-! ## Continued paths -/

theorem trace?_eq {p : Path} (h : p.bytes ≠ []) :
    t.trace? p = t.follow? maxLinks (startFrom t.workingDirectory p) (Path.segments p.bytes) :=
  if_neg h

theorem bytes_ne_nil_of_trace? {p : Path} {mid : Nat × List Bytes} (h : t.trace? p = some mid) :
    p.bytes ≠ [] := by
  intro hnil
  rw [trace?, if_pos hnil] at h
  cases h

theorem locate?_eq_some_iff {p : Path} :
    t.locate? p = some place ↔ ∃ links, t.trace? p = some (links, place) := by
  simp [locate?]

theorem bytes_ne_nil_of_locate? {p : Path} (h : t.locate? p = some place) : p.bytes ≠ [] := by
  obtain ⟨links, htrace⟩ := locate?_eq_some_iff.mp h
  exact bytes_ne_nil_of_trace? htrace

/-- **A relative path continues where the path before it leads.** -/
theorem trace?_join {root q : Path} (hroot : root.bytes ≠ []) (hq : q.isAbsolute = false) :
    t.trace? (root.join q) =
      (t.trace? root).bind fun mid => t.follow? mid.1 mid.2 (Path.segments q.bytes) := by
  have hsegments : Path.segments q.bytes ≠ [] := List.splitOn_ne_nil _ _
  rcases Path.join_cases root hq with ⟨hnil, -⟩ | ⟨front, hfront, hjoin⟩ | ⟨-, hjoin⟩
  · exact absurd hnil hroot
  · -- the root ends in a slash: its last segment is empty
    have hstart : startFrom t.workingDirectory (root.join q) =
        startFrom t.workingDirectory root := by
      simp only [startFrom, Path.isAbsolute, hjoin, hfront]
      cases front <;> rfl
    have hempty : Path.segments [] = [[]] := rfl
    rw [trace?_eq (by simp [hjoin]), trace?_eq hroot, hstart, hjoin, hfront,
      Path.segments_append_slash, Path.segments_append_slash, hempty, follow?_append,
      follow?_append, Option.bind_assoc]
    simp only [follow?_bind_of_ne_nil hsegments]
  · have hstart : startFrom t.workingDirectory (root.join q) =
        startFrom t.workingDirectory root := by
      obtain ⟨c, rest, hbytes⟩ := List.exists_cons_of_ne_nil hroot
      simp [startFrom, Path.isAbsolute, hjoin, hbytes]
    rw [trace?_eq (by simp [hjoin]), trace?_eq hroot, hstart, hjoin, Path.segments_append_slash,
      follow?_append]

/-- Where a path is followed from that continues another.  The empty path leads
nowhere, but what continues it is followed from the working directory. -/
def continuedFrom? (t : FileTree) (root : Path) : Option (List Bytes) :=
  if root.bytes = [] then some t.workingDirectory else t.locate? root

theorem continuedFrom?_of_ne {root : Path} (h : root.bytes ≠ []) :
    t.continuedFrom? root = t.locate? root :=
  if_neg h

theorem continuedFrom?_of_locate? {root : Path} (h : t.locate? root = some place) :
    t.continuedFrom? root = some place := by
  rw [continuedFrom?_of_ne (bytes_ne_nil_of_locate? h), h]

/-- **A continued path is followed from there.** -/
theorem exists_start_of_join {root q : Path} (hq : q.isAbsolute = false) (hne : q.bytes ≠ [])
    {mid : Nat × List Bytes} (h : t.trace? (root.join q) = some mid) :
    ∃ start ∈ t.continuedFrom? root, ∃ links,
      t.follow? links start (Path.segments q.bytes) = some mid := by
  by_cases hroot : root.bytes = []
  · have hjoin : root.join q = q := by simp [Path.join, hroot, hq]
    rw [hjoin, trace?_eq hne, startFrom, hq] at h
    exact ⟨t.workingDirectory, if_pos hroot, maxLinks, h⟩
  · rw [trace?_join hroot hq, Option.bind_eq_some_iff] at h
    obtain ⟨⟨links, start⟩, hstart, hfollow⟩ := h
    have hlocate := locate?_eq_some_iff.mpr ⟨links, hstart⟩
    exact ⟨start, continuedFrom?_of_locate? hlocate, links, hfollow⟩

theorem isFile_eq_true_iff {p : Path} : t.isFile p = true ↔
    ∃ place contents, t.locate? p = some place ∧ t.nodeAt? place = some (.file contents) := by
  unfold isFile read? node?
  cases hplace : t.locate? p with
  | none => simp
  | some place =>
      cases hnode : t.nodeAt? place with
      | none => simp [hnode]
      | some node => cases node <;> simp [hnode]

/-- A path that is continued by nothing leads to no file. -/
theorem isFile_join_empty (t : FileTree) (root : Path) : t.isFile (root.join "") = false := by
  by_contra hfile
  rw [Bool.not_eq_false, isFile_eq_true_iff] at hfile
  obtain ⟨place, contents, hlocate, hnode⟩ := hfile
  obtain ⟨links, htrace⟩ := locate?_eq_some_iff.mp hlocate
  have hne := bytes_ne_nil_of_trace? htrace
  -- the path ends in a slash, which only a directory can stand before
  obtain ⟨front, hbytes⟩ : ∃ front, (root.join "").bytes = front ++ [slash] := by
    rcases Path.join_cases root (q := "") rfl with ⟨-, hjoin⟩ | ⟨front, -, hjoin⟩ | ⟨-, hjoin⟩
    · exact absurd hjoin hne
    · exact ⟨front, hjoin⟩
    · exact ⟨root.bytes, hjoin⟩
  rw [trace?_eq hne, hbytes, Path.segments_append_slash] at htrace
  obtain ⟨-, -, -, hlast⟩ := exists_mid_of_follow? htrace (by simp [hnode])
  rcases hlast with hparent | hname
  · exact absurd hparent (by decide)
  · exact absurd hname (by decide)

/-! ## Well-formed trees -/

/-- A tree as a file system holds it: each listed place is named by names, is
listed once, and lies in a directory. -/
structure WellFormed (t : FileTree) : Prop where
  names : ∀ entry ∈ t.nodes, ∀ name ∈ entry.1, IsName name
  listed : ∀ entry ∈ t.nodes, t.nodeAt? entry.1 = some entry.2
  parent : ∀ entry ∈ t.nodes, t.nodeAt? entry.1.dropLast = some .directory

instance (t : FileTree) : Decidable t.WellFormed :=
  decidable_of_iff
    ((∀ entry ∈ t.nodes, ∀ name ∈ entry.1, IsName name) ∧
      (∀ entry ∈ t.nodes, t.nodeAt? entry.1 = some entry.2) ∧
        ∀ entry ∈ t.nodes, t.nodeAt? entry.1.dropLast = some .directory)
    ⟨fun h => ⟨h.1, h.2.1, h.2.2⟩, fun h => ⟨h.names, h.listed, h.parent⟩⟩

namespace WellFormed

variable (ht : t.WellFormed) {names : List Bytes}

include ht

theorem isName_of_mem (h : (t.nodeAt? place).isSome) {name : Bytes} (hname : name ∈ place) :
    IsName name := by
  obtain ⟨node, hnode⟩ := Option.isSome_iff_exists.mp h
  exact ht.names _ (mem_nodes_of_nodeAt? hnode (List.ne_nil_of_mem hname)) name hname

/-- What is above anything is a directory. -/
theorem directory_of_append (h : (t.nodeAt? (place ++ names)).isSome) (hne : names ≠ []) :
    t.nodeAt? place = some .directory := by
  -- from the last name upwards: the parent of what is listed is listed
  induction names using List.reverseRecOn with
  | nil => exact absurd rfl hne
  | append_singleton front name ih =>
      obtain ⟨node, hnode⟩ := Option.isSome_iff_exists.mp h
      have hparent : t.nodeAt? (place ++ front) = some .directory := by
        simpa [← List.append_assoc] using ht.parent _ (mem_nodes_of_nodeAt? hnode (by simp))
      by_cases hfront : front = []
      · simpa [hfront] using hparent
      · exact ih (by simp [hparent]) hfront

/-- **Names lead to the place that they spell.** -/
theorem follow?_names {node : Node} (h : t.nodeAt? (place ++ names) = some node)
    (hlink : ∀ target, node ≠ .link target) :
    t.follow? links place names = some (links, place ++ names) := by
  induction names generalizing place with
  | nil => rw [follow?_nil, List.append_nil]
  | cons name rest ih =>
      have hsome := Option.isSome_of_eq_some h
      have hname : IsName name := ht.isName_of_mem hsome (by simp)
      have hplace : t.nodeAt? place = some .directory := ht.directory_of_append hsome (by simp)
      have hrest : t.nodeAt? ((place ++ [name]) ++ rest) = some node := by simpa using h
      -- the next place is the end, or above it
      obtain ⟨next, hnext, hnextLink⟩ : ∃ next, t.nodeAt? (place ++ [name]) = some next ∧
          ∀ target, next ≠ .link target := by
        by_cases hnil : rest = []
        · exact ⟨node, by simpa [hnil] using hrest, hlink⟩
        · exact ⟨.directory, ht.directory_of_append (Option.isSome_of_eq_some hrest) hnil, by simp⟩
      rw [follow?_name hplace hname hnext hnextLink, ih hrest]
      simp

theorem mem_filesBelow_iff : names ∈ t.filesBelow place ↔
    names ≠ [] ∧ ∃ contents, t.nodeAt? (place ++ names) = some (.file contents) := by
  rw [filesBelow, List.mem_mergeSort, List.mem_filter, List.mem_filterMap]
  constructor
  · rintro ⟨⟨⟨spelled, node⟩, hmem, hsome⟩, hne⟩
    cases node with
    | directory => cases hsome
    | link target => cases hsome
    | file contents =>
        split_ifs at hsome with hprefix
        obtain ⟨rest, rfl⟩ := List.isPrefixOf_iff_prefix.mp hprefix
        obtain rfl : rest = names := by simpa using hsome
        exact ⟨of_decide_eq_true hne, contents, ht.listed _ hmem⟩
  · rintro ⟨hne, contents, hnode⟩
    exact ⟨⟨_, mem_nodes_of_nodeAt? hnode (by simp [hne]), by simp⟩, decide_eq_true hne⟩

end WellFormed

end FileTree

end LoraSchedule
