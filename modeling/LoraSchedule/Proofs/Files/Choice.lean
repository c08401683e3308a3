import LoraSchedule.Proofs.Files.Search
import Mathlib.Data.List.Lex

/-!
# Which file a name stands for

A name that could lead out of the roots stands for nothing.  Otherwise the first
root from which it leads to a file decides.  If there is none, all files of a
known kind below the roots are compared: one that has the name or the stem of
the query qualifies (`Qualifies`), and is rated by what they share (`rating`).
The best rating wins, then the first root, then the first file in the order of
a walk (`IsChoice`).

`resolve_chooses` says so, and that a result always lies below a root, unless a
link leads elsewhere.  The empty root stands for the working directory there
(`FileTree.continuedFrom?`): names lead on from it, although nothing is searched
below it.
-/

namespace LoraSchedule

open LoraSchedule.Path (point)
open LoraSchedule.Text

/-- Names are compared byte by byte. -/
instance byteOrder : LinearOrder UInt8 where
  le_refl := UInt8.le_refl
  le_trans _ _ _ := UInt8.le_trans
  le_antisymm _ _ := UInt8.le_antisymm
  le_total := UInt8.le_total
  lt_iff_le_not_ge a b := by
    rw [UInt8.not_le]
    exact ⟨fun h => ⟨UInt8.le_of_lt h, h⟩, And.right⟩
  toDecidableLE := inferInstance

namespace SearchPath

/-! ## Files that qualify -/

section Queries

variable (query : String) (names : List Bytes)

/-- A file has the name of a query, ignoring case. -/
def SameName : Prop :=
  (relativePath names).fileName?.map folded = (query : Path).fileName?.map folded

/-- A file has the stem of a query, ignoring case. -/
def SameStem : Prop :=
  (relativePath names).fileStem?.map folded = (query : Path).fileStem?.map folded

/-- A query of several parts occurs in the path of a file from its root. -/
def IsFragment : Prop :=
  '/' ∈ normalize query.toList ∧
    containsText (normalize query.toList) (normalize (relativePath names).text.toList) = true

instance : Decidable (SameName query names) := inferInstanceAs (Decidable (_ = _))

instance : Decidable (SameStem query names) := inferInstanceAs (Decidable (_ = _))

instance : Decidable (IsFragment query names) := inferInstanceAs (Decidable (_ ∧ _))

/-- How well a file fits a query of which it has the name or the stem. -/
def rating : Nat :=
  (if SameName query names then 100 else 50) + if IsFragment query names then 25 else 0

end Queries

variable (s : SearchPath) (t : FileTree) (query : String)

/-- Names lead from the root at an index to a file of a known kind that has the
name or the stem of a query. -/
structure Qualifies (index : Nat) (names : List Bytes) : Prop where
  below : ∃ root ∈ s.roots[index]?, ∃ start ∈ t.locate? root, ∃ contents,
    t.nodeAt? (start ++ names) = some (.file contents)
  accepted : ∃ name ∈ names.getLast?, s.accepts name = true
  agrees : SameName query names ∨ SameStem query names

/-- A file that qualifies, and comes before all others by rating, root and place. -/
structure IsChoice (index : Nat) (names : List Bytes) : Prop where
  qualifies : s.Qualifies t query index names
  rating_le : ∀ other names', s.Qualifies t query other names' →
    rating query names' ≤ rating query names
  first : ∀ other names', s.Qualifies t query other names' →
    rating query names' = rating query names → index < other ∨ index = other ∧ names ≤ names'

variable {s t query} {names : List Bytes}

/-- What is rated no lower than a file with the name has the name, too. -/
theorem sameName_of_rating_le {names' : List Bytes}
    (h : rating query names' ≤ rating query names) (hname : SameName query names') :
    SameName query names := by
  by_contra hother
  have hfragment : (if IsFragment query names then 25 else 0) ≤ 25 := by split <;> omega
  rw [rating, rating, if_pos hname, if_neg hother] at h
  omega

/-- Only one file comes before all others. -/
theorem IsChoice.unique {index other : Nat} {names' : List Bytes}
    (h : s.IsChoice t query index names) (h' : s.IsChoice t query other names') :
    index = other ∧ names = names' := by
  have hsame : rating query names = rating query names' :=
    le_antisymm (h'.rating_le _ _ h.qualifies) (h.rating_le _ _ h'.qualifies)
  rcases h.first _ _ h'.qualifies hsame.symm with hlt | ⟨heq, hle⟩
  · rcases h'.first _ _ h.qualifies hsame with hgt | ⟨heq, -⟩ <;> omega
  · rcases h'.first _ _ h.qualifies hsame with hgt | ⟨-, hge⟩
    · omega
    · exact ⟨heq, le_antisymm hle hge⟩

/-! ## Scores -/

theorem fileName?_relativePath {folders : List Bytes} {name : Bytes}
    (hnames : ∀ part ∈ folders ++ [name], IsName part) :
    (relativePath (folders ++ [name])).fileName? = some name := by
  apply Path.fileName?_of_getLast?
  · simp [segments_relativePath (by simp) hnames]
  · exact hnames name (by simp)

/-- **Only files with the name or the stem of a query have a score, their rating.** -/
theorem score?_eq (hne : names ≠ []) (hnames : ∀ part ∈ names, IsName part) :
    score? query names =
      if SameName query names ∨ SameStem query names then some (rating query names) else none := by
  obtain ⟨folders, name, rfl⟩ := names.eq_nil_or_concat'.resolve_left hne
  have hname := fileName?_relativePath hnames
  have hsame : SameName query (folders ++ [name]) ↔
      some (folded name) = (query : Path).fileName?.map folded := by
    rw [SameName, hname, Option.map_some]
  have hstem : SameStem query (folders ++ [name]) ↔
      some (folded (splitName point name).1) =
        (query : Path).fileStem?.map folded := by
    rw [SameStem, Path.fileStem?, hname, Option.map_some, Option.map_some]
  unfold score? rating
  simp only [List.getLast?_concat, Option.getD_some, ← hsame, ← hstem]
  by_cases hfull : SameName query (folders ++ [name])
  · simp only [hfull, true_or, if_true]
    rfl
  · simp only [hfull, false_or, if_false]
    rfl

/-! ## Candidates in order -/

/-- A walk comes to files in ascending order of the names that lead to them. -/
theorem pairwise_filesBelow (t : FileTree) (place : List Bytes) :
    (t.filesBelow place).Pairwise (· ≤ ·) := by
  unfold FileTree.filesBelow
  refine (List.pairwise_mergeSort ?_ ?_ _).imp ?_
  · simp only [Bool.not_eq_true', decide_eq_false_iff_not, not_lt]
    exact fun _ _ _ => le_trans
  · simp only [Bool.or_eq_true, Bool.not_eq_true', decide_eq_false_iff_not, not_lt]
    exact le_total
  · simp

theorem pairwise_candidatesBelow (s : SearchPath) (t : FileTree) (root : Path) :
    (s.candidatesBelow t root).Pairwise fun c d => c.names ≤ d.names := by
  unfold candidatesBelow
  split
  · exact List.Pairwise.nil
  · exact List.pairwise_map.mpr ((pairwise_filesBelow t _).filter _)

/-- An item of a list of lists, and what comes before and after it. -/
theorem exists_of_flatMap_eq {α β : Type} {parts : α → List β} {items : List α}
    {front rest : List β} {b : β} (h : items.flatMap parts = front ++ b :: rest) :
    ∃ before item after left right, items = before ++ item :: after ∧
      parts item = left ++ b :: right ∧ front = before.flatMap parts ++ left ∧
      rest = right ++ after.flatMap parts := by
  induction items generalizing front with
  | nil => simp at h
  | cons item items ih =>
      rw [List.flatMap_cons] at h
      rcases List.append_eq_append_iff.mp h with ⟨mid, rfl, hmid⟩ | ⟨mid, hitem, hmid⟩
      · obtain ⟨before, other, after, left, right, rfl, hparts, rfl, rfl⟩ := ih hmid
        exact ⟨item :: before, other, after, left, right, rfl, hparts, by simp, rfl⟩
      · cases mid with
        | nil =>
            have hlater : items.flatMap parts = [] ++ b :: rest := hmid.symm
            obtain ⟨before, other, after, left, right, rfl, hparts, hfront, rfl⟩ := ih hlater
            refine ⟨item :: before, other, after, left, right, rfl, hparts, ?_, rfl⟩
            rw [List.flatMap_cons, List.append_assoc, ← hfront]
            simpa using hitem.symm
        | cons first mid =>
            obtain ⟨rfl, rfl⟩ := List.cons.inj hmid
            exact ⟨[], item, items, front, mid, rfl, hitem, rfl, rfl⟩

/-- Where a candidate stands among all: before another, or it comes from a later
root, or from the same root and is walked to later. -/
theorem mem_front_or_later {before after : List Path} {root root' : Path}
    {left right : List Candidate} {c d : Candidate} {index : Nat}
    (hparts : s.candidatesBelow t root = left ++ c :: right)
    (hroot : (before ++ root :: after)[index]? = some root')
    (hd : d ∈ s.candidatesBelow t root') :
    d ∈ before.flatMap (s.candidatesBelow t) ++ left ∨
      (d = c ∨ d ∈ right ++ after.flatMap (s.candidatesBelow t)) ∧
        (before.length < index ∨ before.length = index ∧ c.names ≤ d.names) := by
  rcases lt_trichotomy index before.length with hlt | rfl | hgt
  · rw [List.getElem?_append_left hlt] at hroot
    have hmem := List.mem_flatMap.mpr ⟨root', List.mem_of_getElem? hroot, hd⟩
    exact Or.inl (List.mem_append_left _ hmem)
  · obtain rfl : root = root' := by simpa using hroot
    have hascend := s.pairwise_candidatesBelow t root
    rw [hparts] at hd hascend
    rcases List.mem_append.mp hd with hleft | hright
    · exact Or.inl (List.mem_append_right _ hleft)
    · rcases List.mem_cons.mp hright with rfl | hright
      · exact Or.inr ⟨Or.inl rfl, Or.inr ⟨rfl, le_rfl⟩⟩
      · have hle := List.rel_of_pairwise_cons (List.pairwise_append.mp hascend).2.1 hright
        exact Or.inr ⟨Or.inr (List.mem_append_left _ hright), Or.inr ⟨rfl, hle⟩⟩
  · obtain ⟨offset, rfl⟩ := Nat.exists_eq_add_of_lt hgt
    rw [List.getElem?_append_right (by omega)] at hroot
    have hafter : after[offset]? = some root' := by
      rw [← hroot, show before.length + offset + 1 - before.length = offset + 1 by omega,
        List.getElem?_cons_succ]
    have hmem := List.mem_flatMap.mpr ⟨root', List.mem_of_getElem? hafter, hd⟩
    exact Or.inr ⟨Or.inr (List.mem_append_right _ hmem), Or.inl hgt⟩

section WellFormed

variable (ht : t.WellFormed)

include ht

theorem mem_candidatesBelow_iff {root : Path} {c : Candidate} :
    c ∈ s.candidatesBelow t root ↔
      (∃ start ∈ t.locate? root, ∃ contents, t.nodeAt? (start ++ c.names) = some (.file contents)) ∧
        (∃ name ∈ c.names.getLast?, s.accepts name = true) ∧
          c.path = root.join (relativePath c.names) := by
  unfold candidatesBelow
  cases hplace : t.locate? root with
  | none => simp
  | some start =>
      simp only [List.mem_map, List.mem_filter, Option.mem_some_iff, exists_eq_left']
      constructor
      · rintro ⟨names, ⟨hmem, haccepts⟩, rfl⟩
        obtain ⟨hne, hnode⟩ := ht.mem_filesBelow_iff.mp hmem
        obtain ⟨folders, name, rfl⟩ := names.eq_nil_or_concat'.resolve_left hne
        exact ⟨hnode, ⟨name, by simp, by simpa using haccepts⟩, rfl⟩
      · rintro ⟨hnode, ⟨name, hname, haccepts⟩, hpath⟩
        refine ⟨c.names, ⟨ht.mem_filesBelow_iff.mpr ⟨?_, hnode⟩, ?_⟩, ?_⟩
        · intro hnil
          rw [hnil] at hname
          cases hname
        · rw [Option.mem_def.mp hname, Option.map_some, Option.getD_some]
          exact haccepts
        · rw [← hpath]

/-- Names that lead to a file of a known kind are names. -/
theorem isName_of_below {root : Path}
    (hbelow : ∃ start ∈ t.locate? root, ∃ contents,
      t.nodeAt? (start ++ names) = some (.file contents))
    (haccepted : ∃ name ∈ names.getLast?, s.accepts name = true) :
    names ≠ [] ∧ ∀ part ∈ names, IsName part := by
  obtain ⟨start, -, contents, hnode⟩ := hbelow
  obtain ⟨name, hname, -⟩ := haccepted
  constructor
  · rintro rfl
    cases hname
  · intro part hpart
    exact ht.isName_of_mem (by simp [hnode]) (List.mem_append_right start hpart)

/-- A file that qualifies is a candidate with a score. -/
theorem Qualifies.exists_candidate {index : Nat} (h : s.Qualifies t query index names) :
    ∃ root ∈ s.roots[index]?, ⟨names, root.join (relativePath names)⟩ ∈ s.candidatesBelow t root ∧
      score? query names = some (rating query names) := by
  obtain ⟨root, hroot, hbelow⟩ := h.below
  obtain ⟨hne, hnames⟩ := isName_of_below ht hbelow h.accepted
  refine ⟨root, hroot, (mem_candidatesBelow_iff ht).mpr ⟨hbelow, h.accepted, rfl⟩, ?_⟩
  rw [score?_eq hne hnames, if_pos h.agrees]

/-- A candidate with a score is a file that qualifies. -/
theorem qualifies_of_score? {index score : Nat} {root : Path} {c : Candidate}
    (hroot : s.roots[index]? = some root) (hc : c ∈ s.candidatesBelow t root)
    (hscore : score? query c.names = some score) :
    s.Qualifies t query index c.names ∧ score = rating query c.names := by
  obtain ⟨hbelow, haccepted, -⟩ := (mem_candidatesBelow_iff ht).mp hc
  obtain ⟨hne, hnames⟩ := isName_of_below ht hbelow haccepted
  rw [score?_eq hne hnames] at hscore
  split_ifs at hscore with hagrees
  exact ⟨⟨⟨root, hroot, hbelow⟩, haccepted, hagrees⟩, (Option.some.inj hscore).symm⟩

/-- **The best match is the choice.** -/
theorem isChoice_of_best? {c : Candidate} (h : best? query (s.candidates t) = some c) :
    ∃ index, ∃ root ∈ s.roots[index]?, c.path = root.join (relativePath c.names) ∧
      s.IsChoice t query index c.names := by
  obtain ⟨front, rest, score, hsplit, hscore, hfront, hrest⟩ := exists_of_best? h
  obtain ⟨before, root, after, left, right, hroots, hparts, rfl, rfl⟩ := exists_of_flatMap_eq hsplit
  have hroot : s.roots[before.length]? = some root := by simp [hroots]
  have hc : c ∈ s.candidatesBelow t root := by
    rw [hparts]
    exact List.mem_append_right left (List.mem_cons_self ..)
  obtain ⟨hqualifies, hrating⟩ := qualifies_of_score? ht hroot hc hscore
  have hcompare : ∀ other names', s.Qualifies t query other names' →
      rating query names' < score ∨ rating query names' ≤ score ∧
        (before.length < other ∨ before.length = other ∧ c.names ≤ names') := by
    intro other names' hother
    obtain ⟨root', hroot', hd, hother⟩ := hother.exists_candidate ht
    rw [hroots] at hroot'
    rcases mem_front_or_later hparts hroot' hd with hmem | ⟨hmem, hlater⟩
    · exact Or.inl (hfront _ hmem _ hother)
    · refine Or.inr ⟨?_, hlater⟩
      rcases hmem with rfl | hmem
      · exact (Option.some.inj (hother.symm.trans hscore)).le
      · exact hrest _ hmem _ hother
  rw [hrating] at hcompare
  refine ⟨before.length, root, hroot, ((mem_candidatesBelow_iff ht).mp hc).2.2, hqualifies, ?_, ?_⟩
  · exact fun other names' hother => (hcompare other names' hother).elim le_of_lt And.left
  · intro other names' hother hsame
    exact ((hcompare other names' hother).resolve_left hsame.not_lt).2

end WellFormed

/-! ## Results -/

/-- A name could lead out of the directory in which it starts. -/
def Leaves (query : String) : Prop :=
  .root ∈ (query : Path).components ∨ .parent ∈ (query : Path).components

instance : Decidable (Leaves query) := inferInstanceAs (Decidable (_ ∨ _))

theorem staysInside_iff : staysInside query = true ↔ ¬Leaves query := by
  simp only [staysInside, Leaves, Path.components, List.all_eq_true, decide_eq_true_eq, not_or]
  exact ⟨fun h => ⟨fun hroot => (h _ hroot).1 rfl, fun hparent => (h _ hparent).2 rfl⟩,
    fun h c hc => ⟨fun heq => h.1 (heq ▸ hc), fun heq => h.2 (heq ▸ hc)⟩⟩

/-- A name that leaves stands for nothing. -/
theorem resolve?_of_leaves (h : Leaves query) : s.resolve? t query = none := by
  rw [resolve?, if_pos]
  exact Or.inr (by simpa using mt staysInside_iff.mp (not_not.mpr h))

/-- **The first root from which a name leads to a file decides.** -/
theorem resolve?_of_direct {before after : List Path} {root : Path}
    (hroots : s.roots = before ++ root :: after) (hinside : staysInside query = true)
    (hbefore : ∀ other ∈ before, t.isFile (other.join query) = false)
    (hfile : t.isFile (root.join query) = true) :
    s.resolve? t query = some (root.join query) := by
  have hne : query ≠ "" := by
    rintro rfl
    rw [FileTree.isFile_join_empty] at hfile
    cases hfile
  have hfind : (s.roots.map fun root => root.join query).find? t.isFile =
      some (root.join query) := by
    rw [hroots, List.find?_eq_some_iff_append]
    refine ⟨hfile, before.map fun root => root.join query,
      after.map fun root => root.join query, by simp, ?_⟩
    simpa using hbefore
  rw [resolve?, if_neg (by simp [hne, hinside])]
  simp only [hfind]

/-- A query that ends in no name matches nothing. -/
theorem best?_of_fileName?_eq_none (h : (query : Path).fileName? = none)
    (candidates : List Candidate) : best? query candidates = none := by
  refine best?_eq_none_iff.mpr fun c _ => ?_
  simp [score?, Path.fileStem?, h]

/-- **Where no root decides, the best match does.** -/
theorem resolve?_of_not_direct (hinside : staysInside query = true)
    (hnone : ∀ root ∈ s.roots, t.isFile (root.join query) = false) :
    s.resolve? t query = (best? query (s.candidates t)).map Candidate.path := by
  have hfind : (s.roots.map fun root => root.join query).find? t.isFile = none := by
    simpa using hnone
  by_cases hne : query = ""
  · subst hne
    rw [best?_of_fileName?_eq_none (by decide)]
    rfl
  · rw [resolve?, if_neg (by simp [hne, hinside])]
    simp only [hfind]
    split_ifs with hname
    · rw [best?_of_fileName?_eq_none (Option.isNone_iff_eq_none.mp hname)]
      rfl
    · rfl

section WellFormed

variable (ht : t.WellFormed)

include ht

/-- **Every result is a file below a root**, where no link leads elsewhere. -/
theorem exists_root_of_resolve? (hlinks : t.LinkFree) {p : Path}
    (h : s.resolve? t query = some p) :
    ∃ root ∈ s.roots, ∃ start ∈ t.continuedFrom? root, ∃ names, names ≠ [] ∧ ∃ contents,
      t.locate? p = some (start ++ names) ∧
        t.nodeAt? (start ++ names) = some (.file contents) := by
  obtain ⟨hne, hinside, ⟨root, hroot, rfl, hfile⟩ | ⟨c, hc, -, rfl⟩⟩ := resolve?_cases h
  · obtain ⟨target, contents, name, hlocate, hnode, -, -, hfree⟩ :=
      exists_of_direct hne hinside hfile
    obtain ⟨place, rfl, start, hstart, folders, rfl⟩ := hfree hlinks
    rw [List.append_assoc] at hlocate hnode
    exact ⟨root, hroot, start, hstart, folders ++ [name], by simp, contents, hlocate, hnode⟩
  · obtain ⟨place, folders, name, contents, hbelow, -, -, hlocate, hnode, -⟩ :=
      exists_of_mem_candidates ht hc
    obtain ⟨root, hroot, start, hstart, rest, rfl⟩ := hbelow
    rw [List.append_assoc] at hlocate hnode
    exact ⟨root, hroot, start, FileTree.continuedFrom?_of_locate? hstart, rest ++ [name], by simp,
      contents, hlocate, hnode⟩

/-- Nothing is the best match just if nothing qualifies. -/
theorem best?_eq_none_iff_not_qualifies : best? query (s.candidates t) = none ↔
    ∀ index names, ¬s.Qualifies t query index names := by
  rw [best?_eq_none_iff]
  constructor
  · intro hnone index names h
    obtain ⟨root, hroot, hmem, hscore⟩ := h.exists_candidate ht
    have hcandidate := List.mem_flatMap.mpr ⟨root, List.mem_of_getElem? hroot, hmem⟩
    rw [hnone _ hcandidate] at hscore
    cases hscore
  · intro hall c hc
    obtain ⟨root, hroot, hmem⟩ := List.mem_flatMap.mp hc
    obtain ⟨index, hindex⟩ := List.mem_iff_getElem?.mp hroot
    cases hscore : score? query c.names with
    | none => rfl
    | some score => exact absurd (qualifies_of_score? ht hindex hmem hscore).1 (hall index c.names)

/-- **Where no root decides, the result is the choice.** -/
theorem resolve?_eq_some_iff {p : Path} (hinside : staysInside query = true)
    (hnone : ∀ root ∈ s.roots, t.isFile (root.join query) = false) :
    s.resolve? t query = some p ↔ ∃ index, ∃ root ∈ s.roots[index]?, ∃ names,
      p = root.join (relativePath names) ∧ s.IsChoice t query index names := by
  rw [resolve?_of_not_direct hinside hnone]
  constructor
  · intro hp
    obtain ⟨c, hc, rfl⟩ := Option.map_eq_some_iff.mp hp
    obtain ⟨index, root, hroot, hpath, hchoice⟩ := isChoice_of_best? ht hc
    exact ⟨index, root, hroot, c.names, hpath, hchoice⟩
  · rintro ⟨index, root, hroot, names, rfl, hchoice⟩
    cases hbest : best? query (s.candidates t) with
    | none =>
        exact absurd hchoice.qualifies ((best?_eq_none_iff_not_qualifies ht).mp hbest index names)
    | some c =>
        obtain ⟨other, root', hroot', hpath, hother⟩ := isChoice_of_best? ht hbest
        obtain ⟨rfl, rfl⟩ := hchoice.unique hother
        obtain rfl := Option.some.inj (hroot.symm.trans hroot')
        rw [Option.map_some, hpath]

/-- **Which file a name stands for.**  A name that could lead out of the roots
stands for none, and every result is a file below a root, if there are no links.
The first root from which the name leads to a file decides; where there is none,
the choice among the files that qualify is the result, so that there is one just
if any file qualifies.  A file with the name of the query is chosen before all
that have only its stem. -/
theorem resolve_chooses (s : SearchPath) (query : String) :
    (Leaves query → s.resolve? t query = none) ∧
    (t.LinkFree → ∀ p, s.resolve? t query = some p →
      ∃ root ∈ s.roots, ∃ start ∈ t.continuedFrom? root, ∃ names, names ≠ [] ∧ ∃ contents,
        t.locate? p = some (start ++ names) ∧
          t.nodeAt? (start ++ names) = some (.file contents)) ∧
    (¬Leaves query →
      (∀ before root after, s.roots = before ++ root :: after →
        (∀ other ∈ before, t.isFile (other.join query) = false) →
          t.isFile (root.join query) = true →
            s.resolve? t query = some (root.join query)) ∧
      ((∀ root ∈ s.roots, t.isFile (root.join query) = false) →
        (∀ p, s.resolve? t query = some p ↔ ∃ index, ∃ root ∈ s.roots[index]?, ∃ names,
          p = root.join (relativePath names) ∧ s.IsChoice t query index names) ∧
        (s.resolve? t query = none ↔ ∀ index names, ¬s.Qualifies t query index names))) ∧
    ∀ index names other names', s.IsChoice t query index names →
      s.Qualifies t query other names' → SameName query names' → SameName query names := by
  refine ⟨resolve?_of_leaves, fun hlinks p hp => exists_root_of_resolve? ht hlinks hp, fun hstays => ?_,
    fun index names other names' hchoice hother =>
      sameName_of_rating_le (hchoice.rating_le other names' hother)⟩
  have hinside := staysInside_iff.mpr hstays
  refine ⟨fun before root after hroots => resolve?_of_direct hroots hinside, fun hnone =>
    ⟨fun p => resolve?_eq_some_iff ht hinside hnone, ?_⟩⟩
  rw [resolve?_of_not_direct hinside hnone, Option.map_eq_none_iff]
  exact best?_eq_none_iff_not_qualifies ht

end WellFormed

/-! ## A name and a stem -/

/-- Two folders: the first has a file with the stem of the second's file. -/
def folderTree : FileTree :=
  ⟨[(["lib"], .directory), (["lib", "a"], .directory), (["lib", "a", "ink.pt"], .file []),
    (["lib", "b"], .directory), (["lib", "b", "ink.safetensors"], .file [])], []⟩

theorem wellFormed_folderTree : folderTree.WellFormed := by decide

/-- A file with the name is found, although one with the stem comes before it. -/
theorem resolve_chooses_name :
    folderTree.WellFormed ∧
      (ofRoots ["/lib"]).Qualifies folderTree "x/INK.safetensors" 0 ["a", "ink.pt"] ∧
      ∃ names, (ofRoots ["/lib"]).resolve? folderTree "x/INK.safetensors" =
        some (("/lib" : Path).join (relativePath names)) ∧
          SameName "x/INK.safetensors" names := by
  have hstem : (ofRoots ["/lib"]).Qualifies folderTree "x/INK.safetensors" 0 ["a", "ink.pt"] :=
    ⟨⟨"/lib", rfl, ["lib"], by decide, [], by decide⟩, ⟨"ink.pt", rfl, by decide⟩,
      by decide +kernel⟩
  have hname : (ofRoots ["/lib"]).Qualifies folderTree "x/INK.safetensors" 0
      ["b", "ink.safetensors"] :=
    ⟨⟨"/lib", rfl, ["lib"], by decide, [], by decide⟩, ⟨"ink.safetensors", rfl, by decide⟩,
      by decide +kernel⟩
  have hnone : ∀ root ∈ (ofRoots ["/lib"]).roots,
      folderTree.isFile (root.join "x/INK.safetensors") = false := by
    decide
  obtain ⟨-, -, hstays, hbeats⟩ :=
    resolve_chooses wellFormed_folderTree (ofRoots ["/lib"]) "x/INK.safetensors"
  obtain ⟨hsome, hfound⟩ := (hstays (by decide)).2 hnone
  cases hresult : (ofRoots ["/lib"]).resolve? folderTree "x/INK.safetensors" with
  | none => exact absurd hname (hfound.mp hresult 0 _)
  | some p =>
      obtain ⟨index, root, hroot, names, hpath, hchoice⟩ := (hsome p).mp hresult
      refine ⟨wellFormed_folderTree, hstem, names, ?_,
        hbeats index names 0 _ hchoice hname (by decide +kernel)⟩
      have hroots : root = "/lib" := by
        simpa [ofRoots] using List.mem_of_getElem? hroot
      rw [hpath, hroots]

end SearchPath

end LoraSchedule
