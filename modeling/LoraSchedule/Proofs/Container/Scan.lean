import LoraSchedule.Dict.Lemmas
import LoraSchedule.Container.Loader
import Mathlib.Data.Option.Basic

/-!
# Scans of containers

A scan hands all tensors of a file to a visitor, or none.  What it does to the
state of any visitor is told by the list of what it meets (`Loader.scan_eq`), and
loading is a scan that keeps what could be decoded.
-/

namespace LoraSchedule.Container

open LoraSchedule.Json (Value Written)

/-! ## Files -/

/-- A file of containers that is not too large for a loader. -/
structure Loader.Admits (l : Loader) (t : FileTree) (p : Path) (bytes : Bytes) : Prop where
  file : t.node? p = some (.file bytes)
  isContainer : isContainerPath p = true
  length_le : bytes.length ≤ l.maxFileSize

theorem Loader.readBytes_eq_ok_iff {l : Loader} {t : FileTree} {p : Path} {bytes : Bytes} :
    l.readBytes t p = .ok bytes ↔ l.Admits t p bytes := by
  constructor
  · intro h
    unfold readBytes at h
    split at h
    case h_1 => cases h
    case h_2 node hnode =>
      split at h
      case isTrue => cases h
      case isFalse hpath =>
        split at h
        case h_1 contents =>
          split at h
          case isTrue => cases h
          case isFalse hsize =>
            obtain rfl := Except.ok.inj h
            exact ⟨hnode, by simpa using hpath, Nat.not_lt.mp hsize⟩
        case h_2 => cases h
  · rintro ⟨hfile, hpath, hsize⟩
    simp [readBytes, hfile, hpath, Nat.not_lt.mpr hsize]

/-! ## Contents -/

/-- The tensors that the header of a container describes, whatever bytes follow it. -/
def described? (bytes : Bytes) : Option (List Description) := do
  guard (8 ≤ bytes.length)
  let length := littleEndian (bytes.take 8)
  guard (length ≤ maxHeaderLength ∧ 8 + length ≤ bytes.length)
  let text ← String.fromUTF8? ⟨((bytes.drop 8).take length).toArray⟩
  let header ← Written.ofText? text.toList
  let _ ← Value.ofNested? 0 header
  descriptions? header

/-- The bytes after the header of a container. -/
def dataBytes (bytes : Bytes) : Bytes := bytes.drop (8 + littleEndian (bytes.take 8))

/-- A container holds the tensors of its header in the bytes after it, if they fill
these bytes. -/
theorem contents?_eq_some_iff {bytes data : Bytes} {tensors : List Description} :
    contents? bytes = some (tensors, data) ↔
      described? bytes = some tensors ∧ data = dataBytes bytes ∧
        tile 0 data.length (tensors.mergeSort rangeAtMost) = true := by
  have hsplit : contents? bytes = (described? bytes).bind fun tensors =>
      (guard (tile 0 (dataBytes bytes).length (tensors.mergeSort rangeAtMost)) : Option Unit).bind
        fun _ => some (tensors, dataBytes bytes) := by
    simp only [contents?, described?, dataBytes, Option.bind_eq_bind, Option.bind_assoc,
      Option.pure_def]
    rfl
  rw [hsplit]
  simp only [Option.bind_eq_some_iff, Option.guard_eq_some', Option.some.injEq, Prod.mk.injEq]
  constructor
  · rintro ⟨found, hfound, _, htile, rfl, rfl⟩
    exact ⟨hfound, rfl, htile⟩
  · rintro ⟨hfound, rfl, htile⟩
    exact ⟨tensors, hfound, (), htile, rfl, rfl⟩

/-! ## Visitors -/

namespace Loader

variable (l : Loader) (t : FileTree) (p : Path)

theorem visit_eq :
    l.visit t p = (l.readBytes t p).bind fun bytes =>
      match contents? bytes with
      | none => .error .malformed
      | some (tensors, data) => .ok (tensors.map fun d => (d.name, decode data d)) := by
  have hlist (data : Bytes) (tensors : List Description)
      (visited : List (String × Except LoadError Tensor)) :
      tensors.foldl (fun visited d => (d.name, decode data d) :: visited) visited =
        (tensors.map fun d => (d.name, decode data d)).reverse ++ visited := by
    induction tensors generalizing visited with
    | nil => rfl
    | cons d rest ih => simp [ih]
  unfold visit scan
  cases l.readBytes t p with
  | error error => rfl
  | ok bytes =>
      dsimp only [Except.bind]
      cases contents? bytes with
      | none => rfl
      | some found => simp [hlist, Except.map]

/-- **Every visitor meets what a scan lists**, and none is called where it fails. -/
theorem scan_eq {σ : Type} (visitor : String → Except LoadError Tensor → σ → σ) (s : σ) :
    l.scan t p visitor s =
      match l.visit t p with
      | .error error => (.error error, s)
      | .ok visited => (.ok (), visited.foldl (fun s tensor => visitor tensor.1 tensor.2 s) s) := by
  rw [visit_eq, scan]
  cases l.readBytes t p with
  | error error => rfl
  | ok bytes =>
      dsimp only [Except.bind]
      cases contents? bytes with
      | none => rfl
      | some found => simp [List.foldl_map]

theorem load_eq :
    l.load t p = (l.visit t p).map fun visited =>
      Dict.ofList (visited.filterMap fun tensor => tensor.2.toOption.map fun value =>
        (tensor.1, value)) := by
  unfold load
  rw [scan_eq]
  cases l.visit t p with
  | error error => rfl
  | ok visited =>
      dsimp only [Except.map]
      rw [Dict.ofList, List.foldl_filterMap]
      refine congrArg Except.ok (congrFun (congrFun (congrArg List.foldl ?_) _) _)
      funext tensors tensor
      obtain ⟨name, result⟩ := tensor
      cases result with
      | error error => rfl
      | ok value => rfl

end Loader

end LoraSchedule.Container
