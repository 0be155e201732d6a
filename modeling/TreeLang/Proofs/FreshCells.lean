import TreeLang.Machine
import TreeLang.Proofs.HeapCells
import Mathlib.Data.List.Forall2

/-! The cells of a type. Whether there are any is seen from the lengths of the type and from what is
left without its array levels, and the outermost level at fault decides what the failure is. The
cells are made one after the other, the elements of an array before the array: they are all cells
from the end of the old heap to the end of the new one, and none of them is in two places. -/
namespace TreeLang

namespace Ty

variable {ty : Ty} {failure : Failure}

/-! ### Types without cells -/

/-- The type and the element types below it, from the outside. -/
def levels : Ty → List Ty
  | array element size => array element size :: element.levels
  | scalar => [scalar]

/-- The lengths of the array levels, from the outside. -/
def lengths : Ty → List Nat
  | array element size => size :: element.lengths
  | _ => []

/-- What is left when all array levels are taken off. -/
def innermost : Ty → Ty
  | array element _ => element.innermost
  | scalar => scalar

/-- What is wrong with one level, whatever is below it. -/
def flaw? : Ty → Option Failure
  | array _ 0 => some (.invalidArraySize 0)
  | void => some (.typeMismatch "int, bool or array" "void")
  | _ => none

theorem fault?_eq_findSome? (ty : Ty) : ty.fault? = ty.levels.findSome? flaw? := by
  induction ty with
  | int => rfl
  | bool => rfl
  | void => rfl
  | array element size ih =>
    cases size with
    | zero => rfl
    | succ n => simpa [fault?, levels, flaw?] using ih

theorem fault?_eq_none_iff : ty.fault? = none ↔ 0 ∉ ty.lengths ∧ ty.innermost ≠ .void := by
  induction ty with
  | int => simp [fault?, lengths, innermost]
  | bool => simp [fault?, lengths, innermost]
  | void => simp [fault?, innermost]
  | array element size ih =>
    by_cases empty : size = 0
    · simp [fault?, lengths, empty]
    · have other : 0 ≠ size := Ne.symm empty
      simp [fault?, lengths, innermost, empty, other, ih]

/-- An array level that is at fault has no length; what is at fault otherwise is `void`. -/
theorem kind_of_flaw (flawed : ty.flaw? = some failure) :
    failure.kind = if ty = .void then .typeMismatch else .arityOrSize := by
  unfold flaw? at flawed
  split at flawed
  · cases flawed
    rfl
  · cases flawed
    rfl
  · contradiction

end Ty

namespace Heap

variable {heap mid later : Heap} {ref : Ref} {cells : List Ref} {cell : Cell}

/-! ### The last cells of a heap -/

/-- The cells that the later heap has after the end of the earlier one, in the order in which they
were made. -/
def since (heap later : Heap) : List Ref :=
  (List.range' heap.size (later.size - heap.size)).map Ref.mk

theorem mem_since (smaller : heap.size ≤ later.size) :
    ref ∈ heap.since later ↔ heap.size ≤ ref.index ∧ ref.index < later.size := by
  have bounds : ref.index ∈ List.range' heap.size (later.size - heap.size) ↔
      heap.size ≤ ref.index ∧ ref.index < later.size := by
    rw [List.mem_range'_1]
    omega
  rw [← bounds, since, List.mem_map]
  constructor
  · rintro ⟨index, member, rfl⟩
    exact member
  · intro member
    exact ⟨ref.index, member, rfl⟩

theorem since_nodup (heap later : Heap) : (heap.since later).Nodup := by
  apply List.Pairwise.map Ref.mk _ List.nodup_range'
  intro a b different same
  exact different (congrArg Ref.index same)

@[simp] theorem since_self (heap : Heap) : heap.since heap = [] := by
  simp [since]

theorem since_append (first : heap.size ≤ mid.size) (second : mid.size ≤ later.size) :
    heap.since mid ++ mid.since later = heap.since later := by
  have start : mid.size = heap.size + (mid.size - heap.size) := by omega
  have count : later.size - heap.size = (mid.size - heap.size) + (later.size - mid.size) := by omega
  rw [since, since, since, ← List.map_append, count, ← List.range'_append_1, ← start]

theorem since_push (heap : Heap) (cell : Cell) : heap.since (heap.push cell).2 = [(heap.push cell).1] := by
  rw [since, size_push, Nat.add_sub_cancel_left]
  rfl

/-! ### New structures -/

/-- The reference is to a structure of the type, with the lengths of the type and with zero or false
in all scalars, and it consists of these cells: those of the elements in order, then its own. -/
def Blank (heap : Heap) : Ty → Ref → List Ref → Prop
  | .int, ref, cells => heap.get ref = .int 0 ∧ cells = [ref]
  | .bool, ref, cells => heap.get ref = .bool false ∧ cells = [ref]
  | .void, _, _ => False
  | .array element size, ref, cells => ∃ elements parts,
    heap.get ref = .array element elements ∧ elements.size = size ∧
    List.Forall₂ (heap.Blank element) elements.toList parts ∧ cells = parts.flatten ++ [ref]

theorem Blank.tag {ty : Ty} (blank : heap.Blank ty ref cells) : (heap.get ref).tag = ty.tag := by
  cases ty with
  | int => rw [blank.1]; rfl
  | bool => rw [blank.1]; rfl
  | void => exact blank.elim
  | array element size =>
    obtain ⟨elements, parts, content, -⟩ := blank
    rw [content]
    rfl

/-- A relation between two lists may be replaced by one that follows from it on their members. -/
theorem forall₂_of_mem {α β : Type} {R S : α → β → Prop} {as : List α} {bs : List β}
    (related : List.Forall₂ R as bs) (follows : ∀ a, ∀ b ∈ bs, R a b → S a b) : List.Forall₂ S as bs := by
  obtain ⟨length, each⟩ := List.forall₂_iff_zip.mp related
  apply List.forall₂_iff_zip.mpr
  exact ⟨length, fun both => follows _ _ (List.of_mem_zip both).2 (each both)⟩

/-- A structure is in its cells alone. -/
theorem Blank.congr {ty : Ty} (blank : heap.Blank ty ref cells)
    (same : ∀ cell ∈ cells, later.get cell = heap.get cell) : later.Blank ty ref cells := by
  induction ty generalizing ref cells with
  | int =>
    obtain ⟨content, rfl⟩ := blank
    exact ⟨(same ref (by simp)).trans content, rfl⟩
  | bool =>
    obtain ⟨content, rfl⟩ := blank
    exact ⟨(same ref (by simp)).trans content, rfl⟩
  | void => exact blank.elim
  | array element size ih =>
    obtain ⟨elements, parts, content, count, each, rfl⟩ := blank
    have root : later.get ref = heap.get ref := same ref (by simp)
    refine ⟨elements, parts, root.trans content, count, ?_, rfl⟩
    apply forall₂_of_mem each
    intro found part inside blank
    apply ih blank
    intro cell member
    exact same cell (List.mem_append_left _ (List.mem_flatten.mpr ⟨part, inside, member⟩))

/-- Elements that take up all new cells stay as they are if only further cells are made. -/
theorem elements_blank {element : Ty} {refs : List Ref} {parts : List (List Ref)}
    (made : List.Forall₂ (mid.Blank element) refs parts) (all : parts.flatten = heap.since mid)
    (smaller : heap.size ≤ mid.size) (old : ∀ ref, ref.index < mid.size → later.get ref = mid.get ref) :
    List.Forall₂ (later.Blank element) refs parts := by
  apply forall₂_of_mem made
  intro found part inside blank
  apply blank.congr
  intro cell member
  have new : cell ∈ heap.since mid := all ▸ List.mem_flatten.mpr ⟨part, inside, member⟩
  exact old cell ((mem_since smaller).mp new).2

/-- The elements made so far take up all cells that are new, and so do they with one more. -/
theorem allocTimes_blank {one : Heap → Ref × Heap} {element : Ty}
    (each : ∀ heap : Heap, heap.Grown (one heap).2 ∧
      (one heap).2.Blank element (one heap).1 (heap.since (one heap).2))
    (times : Nat) (refs : Array Ref) (parts : List (List Ref)) (grown : heap.Grown mid)
    (made : List.Forall₂ (mid.Blank element) refs.toList parts) (all : parts.flatten = heap.since mid) :
    ∃ parts, List.Forall₂ ((allocTimes one times refs mid).2.Blank element)
      (allocTimes one times refs mid).1.toList parts ∧
      parts.flatten = heap.since (allocTimes one times refs mid).2 := by
  induction times generalizing refs parts mid with
  | zero => exact ⟨parts, made, all⟩
  | succ times ih =>
    obtain ⟨step, blank⟩ := each mid
    have kept := elements_blank made all grown.size step.old
    apply ih (refs.push (one mid).1) (parts ++ [mid.since (one mid).2]) (grown.trans step)
    · rw [Array.toList_push]
      exact List.rel_append kept (.cons blank .nil)
    · rw [List.flatten_append, all, List.flatten_singleton]
      exact since_append grown.size step.size

theorem alloc_blank (ty : Ty) (heap : Heap) (sound : ty.fault? = none) :
    (heap.alloc ty).2.Blank ty (heap.alloc ty).1 (heap.since (heap.alloc ty).2) := by
  induction ty generalizing heap with
  | int => exact ⟨get_push_self heap (.int 0), since_push heap (.int 0)⟩
  | bool => exact ⟨get_push_self heap (.bool false), since_push heap (.bool false)⟩
  | void => simp [Ty.fault?] at sound
  | array element size ih =>
    have inner : element.fault? = none := by
      rw [Ty.fault?] at sound
      split at sound
      · contradiction
      · exact sound
    have one (heap : Heap) := alloc_grown element heap inner
    obtain ⟨grown, count, -⟩ := allocTimes_grown one size #[] (Grown.refl heap) (by simp)
    obtain ⟨parts, each, all⟩ := allocTimes_blank (fun heap => ⟨(one heap).1, ih heap inner⟩)
      size #[] [] (Grown.refl heap) .nil (by simp)
    generalize made : allocTimes (alloc element) size #[] heap = result at grown count each all
    obtain ⟨elements, mid⟩ := result
    have pushed : heap.alloc (.array element size) = mid.push (.array element elements) := by
      rw [alloc, made]
    rw [pushed]
    refine ⟨elements, parts, get_push_self mid _, by simpa using count, ?_, ?_⟩
    · exact elements_blank each all grown.size fun ref inside => get_push_of_lt inside
    · rw [all, ← since_push]
      exact (since_append grown.size (by rw [size_push]; exact Nat.le_succ _)).symm

/-! ### Making a cell -/

/-- A declaration makes its cell in the same way. -/
theorem newCell_eq_create (ty : Ty) (s : State) :
    Exec.newCell ty s = match s.heap.create ty with
      | .ok (ref, heap) => .ok ref { s with heap }
      | .error failure => .error failure s := by
  unfold Exec.newCell create
  cases ty.fault? <;> rfl

/-- A cell of a type can be made exactly if no array level has length zero and the scalars are not
`void`. Else the failure is that of the outermost level at fault. What is made has the tag of the
type, its lengths, and zero or false in all scalars; it consists of new cells, which are all
different, and the old ones are as they were. -/
theorem create_fresh (heap : Heap) (ty : Ty) :
    ((∃ made, heap.create ty = .ok made) ↔ 0 ∉ ty.lengths ∧ ty.innermost ≠ .void) ∧
    (∀ failure, heap.create ty = .error failure ↔
      ∃ outer level inner, ty.levels = outer ++ level :: inner ∧ (∀ other ∈ outer, other.flaw? = none) ∧
        level.flaw? = some failure ∧
        failure.kind = if level = .void then .typeMismatch else .arityOrSize) ∧
    (∀ ref later, heap.create ty = .ok (ref, later) →
      (∀ old, old.index < heap.size → later.get old = heap.get old) ∧
      later.tag (.cell ref) = ty.tag ∧
      ∃ cells, later.Blank ty ref cells ∧ cells.Nodup ∧
        ∀ cell, cell ∈ cells ↔ heap.size ≤ cell.index ∧ cell.index < later.size) ∧
    ∀ s : State, s.heap = heap → Exec.newCell ty s = match heap.create ty with
      | .ok (ref, later) => .ok ref { s with heap := later }
      | .error failure => .error failure s := by
  refine ⟨?_, fun failure => ?_, ?_, ?_⟩
  · rw [← Ty.fault?_eq_none_iff, create]
    cases ty.fault? <;> simp
  · have failed : heap.create ty = .error failure ↔ ty.fault? = some failure := by
      rw [create]
      cases ty.fault? <;> simp
    rw [failed, Ty.fault?_eq_findSome?, List.findSome?_eq_some_iff]
    constructor
    · rintro ⟨outer, level, inner, parts, flawed, sound⟩
      exact ⟨outer, level, inner, parts, sound, flawed, Ty.kind_of_flaw flawed⟩
    · rintro ⟨outer, level, inner, parts, sound, flawed, -⟩
      exact ⟨outer, level, inner, parts, flawed, sound⟩
  · intro ref later created
    obtain ⟨sound, made⟩ : ty.fault? = none ∧ heap.alloc ty = (ref, later) := by
      rw [create] at created
      cases fault : ty.fault? <;> simp_all
    have grown := (alloc_grown ty heap sound).1
    have blank := alloc_blank ty heap sound
    rw [made] at grown blank
    exact ⟨grown.old, blank.tag, _, blank, since_nodup heap later, fun cell => mem_since grown.size⟩
  · rintro s rfl
    exact newCell_eq_create ty s

/-- Two rows of three truth values are made where a number is already. -/
theorem create_fresh_rows :
    let heap : Heap := { cells := #[.int 7] }
    ∃ later, heap.create (.array (.array .bool 3) 2) = .ok (⟨9⟩, later) ∧ later.get ⟨0⟩ = .int 7 ∧
      later.text (.cell ⟨9⟩) = "[[false, false, false], [false, false, false]]" ∧
      ∃ cells, later.Blank (.array (.array .bool 3) 2) ⟨9⟩ cells ∧ cells.Nodup := by
  intro heap
  obtain ⟨-, -, made, -⟩ := create_fresh heap (.array (.array .bool 3) 2)
  obtain ⟨old, -, cells, blank, distinct, -⟩ := made ⟨9⟩ _ rfl
  exact ⟨_, rfl, old ⟨0⟩ (by decide), by decide +kernel, cells, blank, distinct⟩

end Heap

end TreeLang
