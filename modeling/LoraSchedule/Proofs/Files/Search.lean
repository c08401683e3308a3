import LoraSchedule.Files.Search
import LoraSchedule.Proofs.Files.Tree
import LoraSchedule.Proofs.Text.Lowercase

/-!
# What a search finds

A name is found directly, as a path from a root, or as the best match among the
candidates (`resolve?_cases`).  Either way the result is a file, and its path
ends in a name that tells how it was found: in the name that was looked for
(`exists_of_direct`), or in one that agrees with it in lower case, in full or
up to the extension (`isSome_score?_iff`).  Only the first way leads through
links, so that only there a file may have another name than its path, and may
lie below no root.

`FindsStem` says that a stem finds a file of this stem.  A stem without a point
after its first character finds one as soon as some candidate has this stem
(`findsStem_of_file`): such a stem is its own stem, and no candidate has it as
its full name.
-/

namespace LoraSchedule

open LoraSchedule.Path (slash point)
open LoraSchedule.Text

/-! ## Names in lower case -/

/-- The stem of a name in lower case is the stem in lower case. -/
theorem fst_splitName_lowercase {name : List Char} (h : 'Σ' ∉ name) :
    (splitName '.' (lowercase name)).1 = lowercase (splitName '.' name).1 := by
  by_cases hdot : '.' ∈ name.tail
  · obtain ⟨before, after, hbefore, hafter, rfl⟩ := exists_of_mem_tail hdot
    simp only [List.mem_append, List.mem_cons, not_or] at h
    rw [lowercase_append_dot h.1 h.2.2, splitName_append hbefore hafter,
      splitName_append (by simpa using hbefore) (by simpa using hafter)]
  · have hlower : '.' ∉ (lowercase name).tail :=
      fun hmem => hdot (dot_mem_tail_lowercase_iff.mp hmem)
    rw [splitName_eq_self hdot, splitName_eq_self hlower]

namespace SearchPath

variable {s : SearchPath} {t : FileTree}

/-- The stem of a name that is shown in lower case is shown so. -/
theorem folded_fst_splitName {name : Bytes} (h : 'Σ' ∉ Utf8.decode name) :
    folded (splitName point name).1 = (splitName '.' (folded name)).1 := by
  have hstem : (splitName '.' (Utf8.decode name)).1 = Utf8.decode (splitName point name).1 :=
    congrArg Prod.fst (Utf8.splitName_decode (show point.toNat < 0x80 by decide) name)
  rw [folded, folded, fst_splitName_lowercase h, hstem]

@[simp] theorem folded_encode (text : List Char) : folded (Utf8.encode text) = lowercase text := by
  rw [folded, Utf8.decode_encode]

/-- A name of a known kind has an extension. -/
theorem point_mem_tail_of_accepts {name : Bytes} (h : s.accepts name = true) :
    point ∈ name.tail := by
  by_contra hpoint
  simp [accepts, splitName_eq_self hpoint] at h

theorem dot_mem_tail_folded {name : Bytes} (h : point ∈ name.tail) : '.' ∈ (folded name).tail :=
  dot_mem_tail_lowercase_iff.mpr ((Utf8.mem_tail_decode_iff (by decide)).mpr h)

/-! ## The best match -/

/-- Holds the better of two matches, the first of equal ones. -/
def holdBetter (query : String) (best : Option (Nat × Candidate)) (candidate : Candidate) :
    Option (Nat × Candidate) :=
  match score? query candidate.names, best with
  | none, best => best
  | some score, none => some (score, candidate)
  | some score, some held => if held.1 < score then some (score, candidate) else some held

theorem best?_eq (query : String) (candidates : List Candidate) :
    best? query candidates = (candidates.foldl (holdBetter query) none).map Prod.snd :=
  rfl

/-- What is held after some candidates is the first of their best matches. -/
def HoldsBest (query : String) (seen : List Candidate) : Option (Nat × Candidate) → Prop
  | none => ∀ c ∈ seen, score? query c.names = none
  | some held => ∃ front rest, seen = front ++ held.2 :: rest ∧
      score? query held.2.names = some held.1 ∧
      (∀ c ∈ front, ∀ score ∈ score? query c.names, score < held.1) ∧
      ∀ c ∈ rest, ∀ score ∈ score? query c.names, score ≤ held.1

namespace HoldsBest

variable {query : String} {seen : List Candidate} {best : Option (Nat × Candidate)}
  {held : Nat × Candidate} {c : Candidate} {score : Nat}

/-- A score above the best is above all. -/
theorem lt_of_forall_lt (h : HoldsBest query seen best) (hscore : ∀ held ∈ best, held.1 < score) :
    ∀ d ∈ seen, ∀ other ∈ score? query d.names, other < score := by
  intro d hd other hother
  cases best with
  | none => simp [h d hd] at hother
  | some held =>
      obtain ⟨front, rest, rfl, hheld, hfront, hrest⟩ := h
      have hless : held.1 < score := hscore held rfl
      rcases List.mem_append.mp hd with hmem | hmem
      · exact (hfront d hmem other hother).trans hless
      · rcases List.mem_cons.mp hmem with rfl | hmem
        · rw [hheld, Option.mem_some_iff] at hother
          exact hother ▸ hless
        · exact (hrest d hmem other hother).trans_lt hless

theorem take (h : HoldsBest query seen best) (hscore : score? query c.names = some score)
    (hless : ∀ held ∈ best, held.1 < score) : HoldsBest query (seen ++ [c]) (some (score, c)) :=
  ⟨seen, [], rfl, hscore, h.lt_of_forall_lt hless, by simp⟩

theorem keep (h : HoldsBest query seen (some held))
    (hc : ∀ score ∈ score? query c.names, score ≤ held.1) :
    HoldsBest query (seen ++ [c]) (some held) := by
  obtain ⟨front, rest, rfl, hheld, hfront, hrest⟩ := h
  refine ⟨front, rest ++ [c], by simp, hheld, hfront, ?_⟩
  intro d hd
  rcases List.mem_append.mp hd with hmem | hlast
  · exact hrest d hmem
  · rwa [List.mem_singleton.mp hlast]

theorem step (h : HoldsBest query seen best) (c : Candidate) :
    HoldsBest query (seen ++ [c]) (holdBetter query best c) := by
  unfold holdBetter
  -- only a higher score takes the place of what is held
  cases hscore : score? query c.names with
  | none =>
      cases best with
      | none =>
          intro d hd
          rcases List.mem_append.mp hd with hseen | hlast
          · exact h d hseen
          · rwa [List.mem_singleton.mp hlast]
      | some held => exact h.keep (by simp [hscore])
  | some score =>
      cases best with
      | none => exact h.take hscore (by simp)
      | some held =>
          show HoldsBest query _ (if held.1 < score then some (score, c) else some held)
          split_ifs with hless
          · exact h.take hscore (by simpa using hless)
          · exact h.keep (by simpa [hscore] using hless)

theorem run (h : HoldsBest query seen best) (candidates : List Candidate) :
    HoldsBest query (seen ++ candidates) (candidates.foldl (holdBetter query) best) := by
  induction candidates generalizing seen best with
  | nil => simpa using h
  | cons c rest ih => simpa using ih (h.step c)

end HoldsBest

theorem holdsBest_foldl (query : String) (candidates : List Candidate) :
    HoldsBest query candidates (candidates.foldl (holdBetter query) none) := by
  have hstart : HoldsBest query [] none := by simp [HoldsBest]
  simpa using hstart.run candidates

theorem best?_eq_none_iff {query : String} {candidates : List Candidate} :
    best? query candidates = none ↔ ∀ c ∈ candidates, score? query c.names = none := by
  have hbest := holdsBest_foldl query candidates
  rw [best?_eq, Option.map_eq_none_iff]
  constructor
  · intro hnone
    rwa [hnone] at hbest
  · intro hall
    cases hheld : candidates.foldl (holdBetter query) none with
    | none => rfl
    | some held =>
        rw [hheld] at hbest
        obtain ⟨front, rest, hsplit, hscore, -, -⟩ := hbest
        simp [hall held.2 (by simp [hsplit])] at hscore

/-- **The best match is the first of those with the highest score.** -/
theorem exists_of_best? {query : String} {candidates : List Candidate} {best : Candidate}
    (h : best? query candidates = some best) :
    ∃ front rest score, candidates = front ++ best :: rest ∧
      score? query best.names = some score ∧
      (∀ c ∈ front, ∀ other ∈ score? query c.names, other < score) ∧
      ∀ c ∈ rest, ∀ other ∈ score? query c.names, other ≤ score := by
  have hbest := holdsBest_foldl query candidates
  rw [best?_eq, Option.map_eq_some_iff] at h
  obtain ⟨held, hheld, rfl⟩ := h
  rw [hheld] at hbest
  obtain ⟨front, rest, hsplit, hscore, hfront, hrest⟩ := hbest
  exact ⟨front, rest, held.1, hsplit, hscore, hfront, hrest⟩

/-- What matches: a name in full, or up to the extension. -/
theorem isSome_score?_iff {query : String} {folders : List Bytes} {name : Bytes} :
    (score? query (folders ++ [name])).isSome ↔
      some (folded name) = (query : Path).fileName?.map folded ∨
        some (folded (splitName point name).1) = (query : Path).fileStem?.map folded := by
  unfold score?
  simp only [List.getLast?_concat, Option.getD_some]
  by_cases hname : some (folded name) = (query : Path).fileName?.map folded
  · simp [hname]
  · by_cases hstem : some (folded (splitName point name).1) = (query : Path).fileStem?.map folded
    · simp [hname, hstem]
    · simp [hname, hstem]

/-! ## Candidates -/

/-- A place below a root. -/
def Below (s : SearchPath) (t : FileTree) (place : List Bytes) : Prop :=
  ∃ root ∈ s.roots, ∃ start, t.locate? root = some start ∧ start <+: place

/-- A root that is continued without leaving it.  As links lead anywhere, such a
path need not lead to a place below the root. -/
def Continues (s : SearchPath) (p : Path) : Prop :=
  ∃ root ∈ s.roots, ∃ q : Path, q.isAbsolute = false ∧ [point, point] ∉ Path.segments q.bytes ∧
    p = root.join q

theorem segments_relativePath {names : List Bytes} (hne : names ≠ [])
    (hnames : ∀ name ∈ names, IsName name) :
    Path.segments (relativePath names).bytes = names :=
  splitOn_joinWith hne fun name hname => (hnames name hname).slash

theorem isAbsolute_relativePath {names : List Bytes} (hne : names ≠ [])
    (hnames : ∀ name ∈ names, IsName name) : (relativePath names).isAbsolute = false := by
  rw [Path.isAbsolute, decide_eq_false_iff_not]
  intro hhead
  obtain ⟨rest, hbytes⟩ := List.head?_eq_some_iff.mp hhead
  have hsegments := segments_relativePath hne hnames
  rw [hbytes, ← List.nil_append (slash :: rest), Path.segments_append_slash] at hsegments
  have hempty : [] ∈ names := by
    rw [← hsegments]
    simp [Path.segments]
  exact (hnames [] hempty).ne_nil rfl

section WellFormed

variable (ht : t.WellFormed) {place : List Bytes} {name : Bytes}

include ht

/-- **Where a candidate is, and how its path ends.** -/
theorem exists_of_mem_candidates {c : Candidate} (hc : c ∈ s.candidates t) :
    ∃ place folders name contents, s.Below t place ∧ c.names = folders ++ [name] ∧
      s.accepts name = true ∧ t.locate? c.path = some (place ++ [name]) ∧
      t.nodeAt? (place ++ [name]) = some (.file contents) ∧
      c.path.fileName? = some name ∧ s.Continues c.path := by
  obtain ⟨root, hroot, hbelow⟩ := List.mem_flatMap.mp hc
  cases hstart : t.locate? root with
  | none => simp [candidatesBelow, hstart] at hbelow
  | some start =>
      simp only [candidatesBelow, hstart, List.mem_map, List.mem_filter] at hbelow
      obtain ⟨names, ⟨hmem, haccepts⟩, rfl⟩ := hbelow
      obtain ⟨hne, contents, hnode⟩ := ht.mem_filesBelow_iff.mp hmem
      obtain ⟨folders, name, rfl⟩ := names.eq_nil_or_concat'.resolve_left hne
      have hnames : ∀ part ∈ folders ++ [name], IsName part := fun part hpart =>
        ht.isName_of_mem (Option.isSome_of_eq_some hnode) (List.mem_append_right start hpart)
      have hrelative := isAbsolute_relativePath hne hnames
      have hsegments := segments_relativePath hne hnames
      -- no link is on the way from the root's own place
      have hlocate : t.locate? (root.join (relativePath (folders ++ [name]))) =
          some ((start ++ folders) ++ [name]) := by
        obtain ⟨links, htrace⟩ := FileTree.locate?_eq_some_iff.mp hstart
        rw [FileTree.locate?,
          FileTree.trace?_join (FileTree.bytes_ne_nil_of_trace? htrace) hrelative, htrace,
          Option.bind_some, hsegments, ht.follow?_names hnode (by simp), Option.map_some,
          List.append_assoc]
      refine ⟨start ++ folders, folders, name, contents,
        ⟨root, hroot, start, hstart, List.prefix_append _ _⟩, rfl, by simpa using haccepts,
        hlocate, by rwa [List.append_assoc], ?_, root, hroot, _, hrelative, ?_, rfl⟩
      · exact Path.fileName?_join root hrelative (by simp [hsegments]) (hnames name (by simp))
      · rw [hsegments]
        exact fun hparent => (hnames _ hparent).ne_parent rfl

/-- Every file of a known kind below a root is a candidate. -/
theorem exists_candidate {contents : Bytes} (hbelow : s.Below t place)
    (hfile : t.nodeAt? (place ++ [name]) = some (.file contents))
    (haccepts : s.accepts name = true) :
    ∃ c ∈ s.candidates t, ∃ folders, c.names = folders ++ [name] := by
  obtain ⟨root, hroot, start, hstart, folders, rfl⟩ := hbelow
  have hmem : folders ++ [name] ∈ t.filesBelow start :=
    ht.mem_filesBelow_iff.mpr ⟨by simp, contents, by rwa [← List.append_assoc]⟩
  refine ⟨⟨folders ++ [name], root.join (relativePath (folders ++ [name]))⟩, ?_, folders, rfl⟩
  refine List.mem_flatMap.mpr ⟨root, hroot, ?_⟩
  simp only [candidatesBelow, hstart, List.mem_map, List.mem_filter]
  exact ⟨_, ⟨hmem, by simpa using haccepts⟩, rfl⟩

end WellFormed

/-! ## Direct paths -/

theorem not_mem_segments_of_staysInside {query : String} (h : staysInside query = true) :
    [point, point] ∉ Path.segments (query : Path).bytes := by
  intro hmem
  have hparent : Path.Component.parent ∈ (query : Path).components :=
    List.mem_append_right _ (List.mem_filterMap.mpr ⟨_, hmem, rfl⟩)
  simpa using List.all_eq_true.mp h _ hparent

theorem isAbsolute_of_staysInside {query : String} (h : staysInside query = true) :
    (query : Path).isAbsolute = false := by
  rw [Path.isAbsolute, decide_eq_false_iff_not]
  intro hhead
  have hroot : Path.Component.root ∈ (query : Path).components := by
    rw [Path.components, if_pos hhead]
    exact List.mem_append_left _ (List.mem_singleton_self _)
  simpa using List.all_eq_true.mp h _ hroot

theorem bytes_ne_nil_of_ne {query : String} (h : query ≠ "") : (query : Path).bytes ≠ [] := by
  intro hnil
  refine h (String.toList_injective (Utf8.encode_injective ?_))
  rw [show Utf8.encode query.toList = [] from hnil]
  rfl

/-- **Where a file is that a root and a query spell.**  Links apart, it is below
the root, or if the root is empty, below the working directory, where nothing is
searched. -/
theorem exists_of_direct {root : Path} {query : String} (hne : query ≠ "")
    (hinside : staysInside query = true) (hfile : t.isFile (root.join query) = true) :
    ∃ target contents name, t.locate? (root.join query) = some target ∧
      t.nodeAt? target = some (.file contents) ∧
      (root.join query).fileName? = some name ∧ (query : Path).fileName? = some name ∧
      (t.LinkFree → ∃ place, target = place ++ [name] ∧
        ∃ start ∈ t.continuedFrom? root, start <+: place) := by
  have hrelative := isAbsolute_of_staysInside hinside
  have hparent := not_mem_segments_of_staysInside hinside
  have hslash : ∀ segment ∈ Path.segments (query : Path).bytes, slash ∉ segment :=
    fun segment hsegment => (mem_splitOn hsegment).1
  obtain ⟨target, contents, htarget, hnode⟩ := FileTree.isFile_eq_true_iff.mp hfile
  obtain ⟨left, htrace⟩ := FileTree.locate?_eq_some_iff.mp htarget
  obtain ⟨start, hstart, links, hfollow⟩ :=
    FileTree.exists_start_of_join hrelative (bytes_ne_nil_of_ne hne) htrace
  obtain ⟨front, name, mid, hsegments, hname, hmid, hlast⟩ :=
    FileTree.exists_name_of_follow? hparent hslash (List.splitOn_ne_nil _ _) hfollow
      (by simp [hnode])
  have hgetLast : (Path.segments (query : Path).bytes).getLast? = some name := by simp [hsegments]
  refine ⟨target, contents, name, htarget, hnode, Path.fileName?_join root hrelative hgetLast hname,
    Path.fileName?_of_getLast? hgetLast hname, fun hlinks => ⟨mid.2, ?_, start, hstart, ?_⟩⟩
  · exact hlinks.eq_append_of_follow? hname hlast
  · rw [hsegments, List.mem_append, not_or] at hparent
    exact hlinks.prefix_of_follow? hparent.1 hmid

/-! ## Results -/

/-- **A name is found directly or as the best match.** -/
theorem resolve?_cases {query : String} {p : Path} (h : s.resolve? t query = some p) :
    query ≠ "" ∧ staysInside query = true ∧
      ((∃ root ∈ s.roots, p = root.join query ∧ t.isFile p = true) ∨
        ∃ c ∈ s.candidates t, (score? query c.names).isSome ∧ p = c.path) := by
  have hallowed : ¬(query = "" ∨ (!staysInside query) = true) := by
    intro hrefused
    rw [resolve?, if_pos hrefused] at h
    cases h
  rw [resolve?, if_neg hallowed] at h
  rw [not_or] at hallowed
  refine ⟨hallowed.1, by simpa using hallowed.2, ?_⟩
  split at h
  · rename_i direct hdirect
    obtain rfl := Option.some.inj h
    obtain ⟨root, hroot, rfl⟩ := List.mem_map.mp (List.mem_of_find?_eq_some hdirect)
    have hfile := List.find?_some hdirect
    exact Or.inl ⟨root, hroot, rfl, hfile⟩
  · split_ifs at h
    obtain ⟨c, hbest, rfl⟩ := Option.map_eq_some_iff.mp h
    obtain ⟨front, rest, score, hsplit, hscore, -, -⟩ := exists_of_best? hbest
    exact Or.inr ⟨c, by simp [hsplit], by simp [hscore], rfl⟩

/-- What a name finds is a root that is continued without leaving it. -/
theorem continues_of_resolve? (ht : t.WellFormed) {query : String} {p : Path}
    (h : s.resolve? t query = some p) : s.Continues p := by
  obtain ⟨-, hinside, ⟨root, hroot, rfl, -⟩ | ⟨c, hc, -, rfl⟩⟩ := resolve?_cases h
  · exact ⟨root, hroot, query, isAbsolute_of_staysInside hinside,
      not_mem_segments_of_staysInside hinside, rfl⟩
  · obtain ⟨-, -, -, -, -, -, -, -, -, -, hcontinues⟩ := exists_of_mem_candidates ht hc
    exact hcontinues

/-- **What a name finds is a file whose path has the name's stem, ignoring case.**
The two names may hold a capital sigma, whose lower-case form depends on what
follows; then their stems need not agree where the full names do.  Links apart,
the file itself has this name and is below a root. -/
theorem exists_of_resolve? (ht : t.WellFormed) {query : String} {p : Path}
    (h : s.resolve? t query = some p) :
    ∃ target contents name sought, t.locate? p = some target ∧
      t.nodeAt? target = some (.file contents) ∧ p.fileName? = some name ∧
      (query : Path).fileName? = some sought ∧
      ('Σ' ∉ Utf8.decode name → 'Σ' ∉ Utf8.decode sought →
        folded (splitName point name).1 = folded (splitName point sought).1) ∧
      (t.LinkFree → ∃ place, target = place ++ [name] ∧
        ((∀ root ∈ s.roots, root.bytes ≠ []) → s.Below t place)) := by
  obtain ⟨hne, hinside, ⟨root, hroot, rfl, hdirect⟩ | ⟨c, hc, hscore, rfl⟩⟩ := resolve?_cases h
  · obtain ⟨target, contents, name, hlocate, hnode, hname, hquery, hfree⟩ :=
      exists_of_direct hne hinside hdirect
    refine ⟨target, contents, name, name, hlocate, hnode, hname, hquery, fun _ _ => rfl, ?_⟩
    intro hlinks
    obtain ⟨place, htarget, start, hstart, hprefix⟩ := hfree hlinks
    refine ⟨place, htarget, fun hroots => ⟨root, hroot, start, ?_, hprefix⟩⟩
    rwa [FileTree.continuedFrom?_of_ne (hroots root hroot)] at hstart
  · obtain ⟨place, folders, name, contents, hbelow, hnames, -, hlocate, hnode, hname, -⟩ :=
      exists_of_mem_candidates ht hc
    rw [hnames, isSome_score?_iff] at hscore
    cases hsought : (query : Path).fileName? with
    | none => simp [Path.fileStem?, hsought] at hscore
    | some sought =>
        refine ⟨place ++ [name], contents, name, sought, hlocate, hnode, hname, rfl, ?_,
          fun _ => ⟨place, rfl, fun _ => hbelow⟩⟩
        intro hsigma hsoughtSigma
        rw [Path.fileStem?, hsought] at hscore
        rcases hscore with hfull | hstems
        · -- cut at its last point, the common lower-case name gives both stems
          have heq : folded name = folded sought := Option.some.inj hfull
          rw [folded_fst_splitName hsigma, heq, ← folded_fst_splitName hsoughtSigma]
        · exact Option.some.inj hstems

/-- A name with a match is found. -/
theorem isSome_resolve? {query : String} (hinside : staysInside query = true)
    (hname : (query : Path).fileName?.isSome) {c : Candidate} (hc : c ∈ s.candidates t)
    (hscore : (score? query c.names).isSome) : (s.resolve? t query).isSome := by
  have hne : query ≠ "" := by
    rintro rfl
    exact absurd hname (by decide)
  have hbest : (best? query (s.candidates t)).isSome := by
    rw [Option.isSome_iff_ne_none, ne_eq, best?_eq_none_iff]
    intro hnone
    simp [hnone c hc] at hscore
  unfold resolve?
  rw [if_neg (by simp [hne, hinside])]
  -- a direct path hides the match, but it is a result, too
  split
  · rfl
  · rw [if_neg (by simpa [Option.isNone_iff_eq_none, Option.isSome_iff_ne_none] using hname)]
    simpa using hbest

/-! ## Stems -/

/-- A stem that is its own stem: it has no point after its first character. -/
structure IsPlainStem (stem : List Char) : Prop where
  tail : '.' ∉ stem.tail
  ne_point : stem ≠ ['.']

/-- A stem finds a file of this stem, up to the case of its letters. -/
def FindsStem (s : SearchPath) (t : FileTree) (stem : List Char) : Prop :=
  ∃ p, s.resolve? t (String.ofList stem) = some p ∧ t.isFile p = true ∧
    p.fileStem?.map folded = some (lowercase stem)

/-- The stem of a name, as it is shown, is a name. -/
theorem isName_encode_stem {name : Bytes} (h : IsName name)
    (hplain : IsPlainStem (Utf8.decode (splitName point name).1)) :
    IsName (Utf8.encode (Utf8.decode (splitName point name).1)) := by
  have hstem : (splitName point name).1 ≠ [] := by
    by_cases hpoint : point ∈ name.tail
    · obtain ⟨before, after, hbefore, hafter, rfl⟩ := exists_of_mem_tail hpoint
      rwa [splitName_append hbefore hafter]
    · rw [splitName_eq_self hpoint]
      exact h.ne_nil
  refine ⟨?_, ?_, ?_, ?_⟩
  · exact fun hnil => Utf8.decode_ne_nil hstem (Utf8.encode_injective hnil)
  · rw [Path.slash_mem_encode]
    intro hmem
    exact h.slash (mem_of_mem_splitName ((Utf8.mem_decode_iff (by decide)).mp hmem))
  · exact fun heq => hplain.ne_point (Utf8.encode_injective heq)
  · intro heq
    have hdots : Utf8.decode (splitName point name).1 = ['.', '.'] := Utf8.encode_injective heq
    exact hplain.tail (by simp [hdots])

/-- A path that ends in a plain stem has this stem. -/
theorem IsPlainStem.fileStem? {stem : List Char} (h : IsPlainStem stem) {p : Path}
    (hp : p.fileName? = some (Utf8.encode stem)) : p.fileStem? = some (Utf8.encode stem) := by
  have hpoint : point ∉ (Utf8.encode stem).tail := by
    intro hmem
    rw [← Utf8.mem_tail_decode_iff (by decide), Utf8.decode_encode] at hmem
    exact h.tail hmem
  rw [Path.fileStem?, hp, Option.map_some, splitName_eq_self hpoint]

theorem staysInside_of_isName {name : List Char} (h : IsName (Utf8.encode name)) :
    staysInside (String.ofList name) = true := by
  have hcomponents := Path.components_of_isName h
  simp [staysInside, Path.ofString, hcomponents]

/-- **A plain stem is found if a candidate has it.** -/
theorem findsStem_of_file (ht : t.WellFormed) {place : List Bytes} {name : Bytes}
    {contents : Bytes} {stem : List Char} (hbelow : s.Below t place)
    (hfile : t.nodeAt? (place ++ [name]) = some (.file contents)) (haccepts : s.accepts name = true)
    (hstem : IsName (Utf8.encode stem)) (hplain : IsPlainStem stem)
    (hsame : folded (splitName point name).1 = lowercase stem) : s.FindsStem t stem := by
  have hqueryName : (String.ofList stem : Path).fileName? = some (Utf8.encode stem) := by
    rw [Path.ofString, String.toList_ofList]
    exact Path.fileName?_ofName hstem
  have hqueryStem := hplain.fileStem? hqueryName
  have hinside := staysInside_of_isName hstem
  have hresolved : (s.resolve? t (String.ofList stem)).isSome := by
    obtain ⟨c, hc, folders, hnames⟩ := exists_candidate ht hbelow hfile haccepts
    refine isSome_resolve? hinside (by simp [hqueryName]) hc ?_
    rw [hnames, isSome_score?_iff, hqueryStem, Option.map_some, folded_encode]
    exact Or.inr (congrArg some hsame)
  obtain ⟨p, hp⟩ := Option.isSome_iff_exists.mp hresolved
  refine ⟨p, hp, ?_⟩
  obtain ⟨hne, -, ⟨root, -, rfl, hdirect⟩ | ⟨c, hc, hscore, rfl⟩⟩ := resolve?_cases hp
  · obtain ⟨-, -, found, -, -, hfound, hquery, -⟩ := exists_of_direct hne hinside hdirect
    obtain rfl : found = Utf8.encode stem := Option.some.inj (hquery.symm.trans hqueryName)
    exact ⟨hdirect, by rw [hplain.fileStem? hfound, Option.map_some, folded_encode]⟩
  · obtain ⟨folder, folders, found, contents, -, hnames, hfound, hlocate, hnode, hname, -⟩ :=
      exists_of_mem_candidates ht hc
    refine ⟨FileTree.isFile_eq_true_iff.mpr ⟨_, _, hlocate, hnode⟩, ?_⟩
    rw [hnames, isSome_score?_iff, hqueryName, hqueryStem, Option.map_some, folded_encode] at hscore
    rcases hscore with hfull | hstems
    · -- the full name of a candidate has a point where a plain stem has none
      have heq : folded found = lowercase stem := Option.some.inj hfull
      have hdot := dot_mem_tail_folded (point_mem_tail_of_accepts hfound)
      rw [heq] at hdot
      exact absurd (dot_mem_tail_lowercase_iff.mp hdot) hplain.tail
    · rw [Path.fileStem?, hname, Option.map_some]
      exact hstems

end SearchPath

end LoraSchedule
