import LoraSchedule.Proofs.Schedule.Legible

/-!
# The pairs of a field

The points and the block weights of a field are pairs between semicolons, and
each pair is read by itself.  A pair of points that is not two finite numbers
gives no point (`readPoint?_eq_some_iff`).  A pair of weights assigns a number to
a key, or does nothing: of the pairs that assign to a key the last one counts,
and the others leave no trace (`get?_addVectors_iff`).
-/

namespace LoraSchedule

open LoraSchedule.Number
open LoraSchedule.Text

/-! ## Entries put into a map -/

namespace Dict

variable {α : Type}

/-- The map with further entries, put in one after the other. -/
def insertAll (d : Dict α) (entries : List (String × α)) : Dict α :=
  entries.foldl (fun d entry => d.insert entry.1 entry.2) d

@[simp] theorem insertAll_nil (d : Dict α) : d.insertAll [] = d := rfl

@[simp] theorem insertAll_cons (d : Dict α) (entry : String × α) (rest : List (String × α)) :
    d.insertAll (entry :: rest) = (d.insert entry.1 entry.2).insertAll rest :=
  rfl

theorem get?_insertAll (d : Dict α) (entries : List (String × α)) (key : String) :
    (d.insertAll entries).get? key = (entries.reverse.lookup key).or (d.get? key) :=
  get?_foldl_insert entries d key

end Dict

namespace Line

/-! ## Points -/

/-- **Points are read pair by pair.** -/
theorem readPoints_append (first second : List Char) :
    readPoints (first ++ ';' :: second) = readPoints first ++ readPoints second := by
  rw [readPoints, readPoints, readPoints, List.splitOn_append_cons_self, List.filterMap_append]

theorem readPoints_of_pair {pair : List Char} (hpair : ';' ∉ pair) :
    readPoints pair = (readPoint? pair).toList := by
  rw [readPoints, List.splitOn_eq_singleton hpair]
  cases hread : readPoint? pair <;> simp [hread]

/-- A pair is a point just if it is two finite numbers with one comma between
them. -/
theorem readPoint?_eq_some_iff {pair : List Char} {p : KeyPoint} :
    readPoint? pair = some p ↔ ∃ left right, pair = left ++ ',' :: right ∧ ',' ∉ left ∧
      ',' ∉ right ∧ readNumber? left = some p.x ∧ readNumber? right = some p.y := by
  constructor
  · intro h
    unfold readPoint? at h
    split at h
    · rename_i left right hsplit
      simp only [Option.bind_eq_bind, Option.bind_eq_some_iff] at h
      obtain ⟨x, hx, y, hy, hp⟩ := h
      obtain rfl := Option.some.inj hp
      have hparts : ∀ part ∈ [left, right], ',' ∉ part := fun part hpart =>
        (mem_splitOn (hsplit ▸ hpart)).1
      refine ⟨left, right, ?_, hparts left (by simp), hparts right (by simp), hx, hy⟩
      rw [← (List.intercalate_splitOn ',' : [','].intercalate (pair.splitOn ',') = pair), hsplit]
      simp [List.intercalate]
    · cases h
  · rintro ⟨left, right, rfl, hleft, hright, hx, hy⟩
    have hsplit : (left ++ ',' :: right).splitOn ',' = [left, right] := by
      rw [List.splitOn_append_cons_self_of_not_mem hleft, List.splitOn_eq_singleton hright]
    simp [readPoint?, hsplit, hx, hy]

/-! ## Block weights -/

/-- The key of a pair and the number that it assigns to it. -/
def assignment? (pair : List Char) : Option (String × Double) :=
  ((splitOnce? '=' pair).or (splitOnce? ':' pair)).bind fun parts =>
    (readNumber? parts.2).map fun number => (String.ofList (trim parts.1), number)

/-- The assignments of a text of pairs, in their order. -/
def assignments (text : List Char) : List (String × Double) :=
  ((text.splitOn ';').map trim).filterMap assignment?

theorem addVector_eq (vectors : Dict Double) (pair : List Char) :
    addVector vectors pair = vectors.insertAll (assignment? pair).toList := by
  unfold addVector assignment?
  cases (splitOnce? '=' pair).or (splitOnce? ':' pair) with
  | none => rfl
  | some parts => cases hread : readNumber? parts.2 <;> simp [hread]

/-- Weights are added assignment by assignment. -/
theorem addVectors_eq (vectors : Dict Double) (text : List Char) :
    addVectors vectors text = vectors.insertAll (assignments text) := by
  have hfold : ∀ (pairs : List (List Char)) (d : Dict Double),
      (pairs.filter (· ≠ [])).foldl addVector d = d.insertAll (pairs.filterMap assignment?) := by
    intro pairs
    induction pairs with
    | nil => exact fun d => rfl
    | cons pair rest ih =>
        intro d
        by_cases hnil : pair = []
        · subst hnil
          exact ih d
        · rw [List.filter_cons_of_pos (by simpa using hnil), List.foldl_cons, addVector_eq, ih]
          cases hread : assignment? pair <;> simp [hread]
  rw [addVectors, hfold, assignments]

/-- A pair assigns a finite number to a key: the key stands before the first
equals sign or, where there is none, before the first colon. -/
def Assigns (pair : List Char) (key : String) (number : Double) : Prop :=
  ∃ left right, (pair = left ++ '=' :: right ∧ '=' ∉ left ∨
      '=' ∉ pair ∧ pair = left ++ ':' :: right ∧ ':' ∉ left) ∧
    key = String.ofList (trim left) ∧ readNumber? right = some number

theorem assignment?_eq_some_iff {pair : List Char} {key : String} {number : Double} :
    assignment? pair = some (key, number) ↔ Assigns pair key number := by
  simp only [assignment?, Option.bind_eq_some_iff, Option.or_eq_some_iff, Option.map_eq_some_iff,
    Prod.exists, splitOnce?_eq_some_iff, splitOnce?_eq_none_iff, Prod.mk.injEq, Assigns]
  constructor
  · rintro ⟨left, right, hsplit, number', hread, rfl, rfl⟩
    exact ⟨left, right, hsplit, rfl, hread⟩
  · rintro ⟨left, right, hsplit, rfl, hread⟩
    exact ⟨left, right, hsplit, number, hread, rfl, rfl⟩

/-- Blanks around a pair do not count. -/
theorem assignment?_trim (pair : List Char) : assignment? (trim pair) = assignment? pair := by
  obtain ⟨before, after, hpair, hbefore, hafter⟩ := exists_append_trim pair
  have hsplit : ∀ separator, isBlank separator = false → splitOnce? separator pair =
      (splitOnce? separator (trim pair)).map fun parts =>
        (before ++ parts.1, parts.2 ++ after) := by
    intro separator hseparator
    have hnot : ∀ {blanks : List Char}, (∀ c ∈ blanks, isBlank c = true) → separator ∉ blanks :=
      fun hblanks hmem => by simp [hblanks _ hmem] at hseparator
    conv_lhs => rw [hpair]
    exact splitOnce?_append (hnot hbefore) (hnot hafter) (trim pair)
  rw [assignment?, assignment?, hsplit '=' (by decide), hsplit ':' (by decide), ← Option.map_or,
    Option.bind_map]
  refine congrArg _ (funext fun parts => ?_)
  simp only [Function.comp_apply, readNumber?, trim_blank_append hbefore,
    trim_append_of_blank _ hafter]

theorem assignments_joinWith {pairs : List (List Char)} (hpairs : ∀ pair ∈ pairs, ';' ∉ pair) :
    assignments (joinWith [';'] pairs) = pairs.filterMap assignment? := by
  rw [assignments, List.filterMap_map]
  cases pairs with
  | nil => rfl
  | cons pair rest =>
      rw [splitOn_joinWith (List.cons_ne_nil _ _) hpairs]
      exact List.filterMap_congr fun pair _ => assignment?_trim pair

/-- Of the pairs, one assigns a number to a key, and none after it assigns any. -/
def LastAssigns (pairs : List (List Char)) (key : String) (number : Double) : Prop :=
  ∃ before pair after, pairs = before ++ pair :: after ∧ Assigns pair key number ∧
    ∀ later ∈ after, ∀ other, ¬Assigns later key other

theorem lookup_reverse_eq_some_iff {pairs : List (List Char)} {key : String} {number : Double} :
    (pairs.filterMap assignment?).reverse.lookup key = some number ↔
      LastAssigns pairs key number := by
  rw [List.lookup_eq_some_iff]
  constructor
  · rintro ⟨later, earlier, hsplit, hlater⟩
    have hforward := congrArg List.reverse hsplit
    rw [List.reverse_reverse, List.reverse_append, List.reverse_cons, List.append_assoc,
      List.singleton_append, List.filterMap_eq_append_iff] at hforward
    obtain ⟨before, rest, rfl, -, hrest⟩ := hforward
    obtain ⟨idle, pair, after, rfl, -, hpair, hafter⟩ := List.filterMap_eq_cons_iff.mp hrest
    refine ⟨before ++ idle, pair, after, by simp, assignment?_eq_some_iff.mp hpair, ?_⟩
    intro other hother value hassigns
    have hmem : (key, value) ∈ later.reverse :=
      hafter ▸ List.mem_filterMap.mpr ⟨other, hother, assignment?_eq_some_iff.mpr hassigns⟩
    simpa using hlater _ (List.mem_reverse.mp hmem)
  · rintro ⟨before, pair, after, rfl, hpair, hafter⟩
    refine ⟨(after.filterMap assignment?).reverse, (before.filterMap assignment?).reverse, ?_, ?_⟩
    · simp [assignment?_eq_some_iff.mpr hpair]
    · rintro ⟨key', value⟩ hmem
      obtain ⟨later, hlater, hread⟩ := List.mem_filterMap.mp (List.mem_reverse.mp hmem)
      have hassigns := assignment?_eq_some_iff.mp hread
      rw [bne_iff_ne]
      rintro rfl
      exact hafter later hlater value hassigns

/-- **Of the pairs that assign to a key the last one counts.**  All other pairs
leave what was there. -/
theorem get?_addVectors_iff (vectors : Dict Double) {pairs : List (List Char)}
    (hpairs : ∀ pair ∈ pairs, ';' ∉ pair) {key : String} {number : Double} :
    (addVectors vectors (joinWith [';'] pairs)).get? key = some number ↔
      LastAssigns pairs key number ∨
        (∀ pair ∈ pairs, ∀ other, ¬Assigns pair key other) ∧ vectors.get? key = some number := by
  have hnone : (pairs.filterMap assignment?).reverse.lookup key = none ↔
      ∀ pair ∈ pairs, ∀ other, ¬Assigns pair key other := by
    rw [List.lookup_eq_none_iff]
    constructor
    · intro h pair hpair other hassigns
      have hmem : (key, other) ∈ (pairs.filterMap assignment?).reverse := by
        rw [List.mem_reverse]
        exact List.mem_filterMap.mpr ⟨pair, hpair, assignment?_eq_some_iff.mpr hassigns⟩
      simpa using h _ hmem
    · rintro h ⟨key', value⟩ hmem
      obtain ⟨pair, hpair, hread⟩ := List.mem_filterMap.mp (List.mem_reverse.mp hmem)
      rw [bne_iff_ne]
      rintro rfl
      exact h pair hpair value (assignment?_eq_some_iff.mp hread)
  rw [addVectors_eq, assignments_joinWith hpairs, Dict.get?_insertAll, Option.or_eq_some_iff,
    lookup_reverse_eq_some_iff, hnone]

end Line

end LoraSchedule
