import LoraSchedule.Proofs.Json.Outermost
import LoraSchedule.Proofs.Schedule.Pairs

/-!
# Malformed parts and their neighbours

A schedule text is read in parts at three levels: lines, the points of a field,
and its vector pairs.  At each of them a part that cannot be read is left out,
and the parts around it are read as if it were not there
(`Schedule.parts_read_apart`).

Lines are the one level where the whole matters, for a text that is a JSON list
is not read by lines.  Whether it is one does not depend on how its lines end.
-/

namespace LoraSchedule

open LoraSchedule.Json LoraSchedule.Line LoraSchedule.Text

namespace Schedule

/-- A text that is a JSON list, blanks around it apart. -/
def IsJsonList (text : String) : Prop :=
  ∃ items, Value.ofText? (trim text.toList) = some (.array items)

theorem jsonItems?_eq_none_iff {text : String} :
    jsonItems? text.toList = none ↔ ¬IsJsonList text := by
  simp only [Option.eq_none_iff_forall_ne_some, ne_eq, jsonItems?_eq_some_iff, IsJsonList,
    not_exists]

theorem parse_eq_ofLines {text : String} (h : ¬IsJsonList text) :
    parse text = ofLines text.toList := by
  rw [parse, jsonItems?_eq_none_iff.mpr h]

/-! ## Lines -/

/-- **Texts under each other are read one after the other.** -/
theorem parse_append {first second : String} (hfirst : ¬IsJsonList first)
    (hsecond : ¬IsJsonList second) (hboth : ¬IsJsonList (first ++ "\n" ++ second)) :
    parse (first ++ "\n" ++ second) = parse first ++ parse second := by
  have hrows : (first ++ "\n" ++ second).toList = first.toList ++ '\n' :: second.toList := by
    simp [String.toList_append]
  rw [parse_eq_ofLines hfirst, parse_eq_ofLines hsecond, parse_eq_ofLines hboth, hrows,
    ofLines_append]

/-- A row may end with a carriage return. -/
theorem ofLines_row_return {row : List Char} (hrow : '\n' ∉ row) :
    ofLines (row ++ ['\r']) = ofLines row := by
  have hreturn : '\n' ∉ row ++ ['\r'] := by simpa using hrow
  have hdrop : dropCarriageReturn (row ++ ['\r']) = row := by
    rw [dropCarriageReturn, beforeSuffix?_eq_some_iff.mpr rfl, Option.getD_some]
  have hread : read? (row ++ ['\r']) = read? row := by rw [← read?_dropCarriageReturn, hdrop]
  rw [ofLines_eq, ofLines_eq, List.splitOn_eq_singleton hrow, List.splitOn_eq_singleton hreturn]
  simp only [List.filterMap_cons, hread, List.filterMap_nil]

theorem ofLines_withReturns (text : List Char) : ofLines (withReturns text) = ofLines text := by
  -- row after row
  induction hlength : text.length using Nat.strong_induction_on generalizing text with
  | _ length ih =>
      by_cases hfeed : '\n' ∈ text
      · obtain ⟨row, rest, rfl, hrow⟩ := List.eq_append_cons_of_mem hfeed
        have hsplit : withReturns (row ++ '\n' :: rest) =
            (row ++ ['\r']) ++ '\n' :: withReturns rest := by
          simp [withReturns_append, withReturns_eq_self hrow]
        have hrest : rest.length < length := by
          rw [← hlength, List.length_append, List.length_cons]
          omega
        rw [hsplit, ofLines_append, ofLines_append, ofLines_row_return hrow, ih _ hrest rest rfl]
      · rw [withReturns_eq_self hfeed]

/-- **A text is read the same whichever way its lines end.** -/
theorem parse_withReturns (text : String) :
    parse (String.ofList (withReturns text.toList)) = parse text := by
  rw [parse, parse, String.toList_ofList, jsonItems?_withReturns, ofLines_withReturns]

/-! ## All levels -/

/-- **No malformed part disturbs its neighbours.**  Texts of lines under each other
are read one after the other, whichever way their lines end.  So are points in a
row, and a pair that is not two finite numbers is no point.  Of the vector pairs
the last one that assigns a finite number to a key counts for it; pairs that
assign none leave the weights as they are. -/
theorem parts_read_apart :
    (∀ first second : String, ¬IsJsonList first → ¬IsJsonList second →
      ¬IsJsonList (first ++ "\n" ++ second) →
      parse (first ++ "\n" ++ second) = parse first ++ parse second) ∧
    (∀ text : String, parse (String.ofList (withReturns text.toList)) = parse text) ∧
    (∀ first second : List Char,
      readPoints (first ++ ';' :: second) = readPoints first ++ readPoints second) ∧
    (∀ pair : List Char, ';' ∉ pair → readPoints pair = (readPoint? pair).toList ∧
      ∀ p, readPoint? pair = some p ↔ ∃ left right, pair = left ++ ',' :: right ∧ ',' ∉ left ∧
        ',' ∉ right ∧ readNumber? left = some p.x ∧ readNumber? right = some p.y) ∧
    ∀ (vectors : Dict Number.Double) (pairs : List (List Char)), (∀ pair ∈ pairs, ';' ∉ pair) →
      ∀ key number, (addVectors vectors (joinWith [';'] pairs)).get? key = some number ↔
        LastAssigns pairs key number ∨
          (∀ pair ∈ pairs, ∀ other, ¬Assigns pair key other) ∧ vectors.get? key = some number :=
  ⟨fun _ _ => parse_append, parse_withReturns, readPoints_append,
    fun _ hpair => ⟨readPoints_of_pair hpair, fun _ => readPoint?_eq_some_iff⟩,
    fun vectors _ hpairs _ _ => get?_addVectors_iff vectors hpairs⟩

/-- A line that is not closed does not disturb the one before it, and a pair
without a number does not take back an assignment. -/
theorem parts_read_apart_at_open_line :
    parse ("<lora:ink:1:1>" ++ "\n" ++ "<lora:wash:1") = parse "<lora:ink:1:1>" ++
        parse "<lora:wash:1" ∧
      (addVectors ∅ (joinWith [';'] ["IN01=1".toList, "IN01=x".toList])).get? "IN01" =
        some (Number.Binary.ofNat 1) := by
  have hlines : ∀ text : String, (trim text.toList).head? ≠ some '[' → ¬IsJsonList text := by
    intro text hhead
    rw [← jsonItems?_eq_none_iff, jsonItems?, if_neg hhead]
  obtain ⟨happend, -, -, -, hvectors⟩ := parts_read_apart
  refine ⟨happend _ _ (hlines _ (by decide)) (hlines _ (by decide)) (hlines _ (by decide)), ?_⟩
  refine (hvectors ∅ _ (by decide) _ _).mpr (.inl ⟨[], "IN01=1".toList, ["IN01=x".toList], rfl,
    assignment?_eq_some_iff.mp (by decide +kernel), ?_⟩)
  intro later hlater other hassigns
  obtain rfl := List.mem_singleton.mp hlater
  rw [← assignment?_eq_some_iff] at hassigns
  exact absurd (Option.isSome_of_mem hassigns) (by decide +kernel)

end Schedule

end LoraSchedule
