import TreeLang.Heap

/-! What the operations on cells read and change. Writing changes one cell only and keeps its
tag. A fresh structure is made of new cells, from the new heap's end on, and leaves all others
alone. -/
namespace TreeLang

namespace Cell

variable {cell : Cell} {inner : Tag}

theorem eq_int_of_tag (tagged : cell.tag = .int) : ∃ n, cell = .int n := by
  cases cell <;> simp_all [Cell.tag]

theorem eq_bool_of_tag (tagged : cell.tag = .bool) : ∃ b, cell = .bool b := by
  cases cell <;> simp_all [Cell.tag]

theorem tag_ne_void : cell.tag ≠ .void := by
  cases cell <;> simp [Cell.tag]

theorem eq_array_of_tag (tagged : cell.tag = .array inner) :
    ∃ element elements, cell = .array element elements ∧ element.tag = inner := by
  cases cell <;> simp_all [Cell.tag]

end Cell

namespace Heap

/-- What a value holds: a scalar of its own, or the contents of the cell. -/
def held (heap : Heap) : Value → Cell
  | .int n => .int n
  | .bool b => .bool b
  | .cell ref => heap.get ref

variable {heap mid later : Heap} {ref other array target : Ref} {cell : Cell} {value : Value}

theorem tag_held (heap : Heap) (value : Value) : (heap.held value).tag = heap.tag value := by
  cases value <;> rfl

theorem toArray_ok (viewed : heap.toArray value = .ok ref) :
    value = .cell ref ∧ ∃ element elements, heap.get ref = .array element elements := by
  unfold toArray at viewed
  cases value with
  | int n => contradiction
  | bool b => contradiction
  | cell found =>
    simp only at viewed
    split at viewed
    next element elements content =>
      cases viewed
      exact ⟨rfl, element, elements, content⟩
    · contradiction

/-- An index is that of a position, which holds the element. -/
theorem element_ok {index : Int64} (found : heap.element array index = .ok ref) :
    0 ≤ index.toInt ∧ (heap.elements array)[index.toInt.toNat]? = some ref := by
  simp only [element] at found
  by_cases negative : index < 0
  · simp [negative] at found
  · simp only [if_neg negative] at found
    split at found
    next other seen =>
      cases found
      refine ⟨?_, seen⟩
      simpa [Int64.lt_iff_toInt_lt] using negative
    next => contradiction

theorem mem_of_element {index : Int64} (found : heap.element array index = .ok ref) :
    ref ∈ heap.elements array :=
  Array.mem_of_getElem? (element_ok found).2

theorem elements_of_get {element : Ty} {elements : Array Ref}
    (content : heap.get ref = .array element elements) : heap.elements ref = elements := by
  simp [Heap.elements, content]

theorem elements_congr (same : later.get ref = heap.get ref) : later.elements ref = heap.elements ref := by
  simp [Heap.elements, same]

theorem array_of_mem (member : ref ∈ heap.elements array) :
    ∃ element elements, heap.get array = .array element elements ∧ ref ∈ elements := by
  unfold Heap.elements at member
  split at member
  next element elements content => exact ⟨element, elements, content, member⟩
  · simp at member

/-- Only a cell of the heap is an array. -/
theorem lt_size_of_array {element : Ty} {elements : Array Ref}
    (content : heap.get ref = .array element elements) : ref.index < heap.size := by
  unfold Heap.get at content
  by_cases inside : ref.index < heap.size
  · exact inside
  · rw [Array.getD_eq_getD_getElem?, Array.getElem?_eq_none (by simpa [Heap.size] using inside)] at content
    simp at content

/-! ### Writing -/

@[simp] theorem size_put : (heap.put target cell).size = heap.size := by
  simp [Heap.put, Heap.size]

theorem get_put_of_ne (apart : ref ≠ target) : (heap.put target cell).get ref = heap.get ref := by
  have index : target.index ≠ ref.index := by
    intro same
    apply apart
    cases ref
    cases target
    simp_all
  simp [Heap.put, Heap.get, Array.getD_eq_getD_getElem?, index]

theorem get_put_self (inside : target.index < heap.size) : (heap.put target cell).get target = cell := by
  have bound : target.index < heap.cells.size := inside
  simp [Heap.put, Heap.get, Array.getD_eq_getD_getElem?, bound]

/-- A reference that was never given out cannot be written to. -/
theorem put_of_not_lt (outside : ¬ target.index < heap.size) : heap.put target cell = heap := by
  have bound : heap.cells.size ≤ target.index := by simpa [Heap.size] using outside
  simp [Heap.put, Array.setIfInBounds_eq_of_size_le bound]

theorem get_put (heap : Heap) (target ref : Ref) (cell : Cell) :
    (heap.put target cell).get ref = heap.get ref ∨
      (ref = target ∧ (heap.put target cell).get ref = cell) := by
  by_cases same : ref = target
  · subst same
    by_cases inside : ref.index < heap.size
    · exact .inr ⟨rfl, get_put_self inside⟩
    · rw [put_of_not_lt inside]
      exact .inl rfl
  · exact .inl (get_put_of_ne same)

/-- A write puts a scalar into a scalar cell of its kind, or the sequence of another array of
the same tag into an array, which keeps its element type. -/
theorem written_cases (written : heap.written target value = .ok cell) :
    (∃ old n, heap.get target = .int old ∧ cell = .int n) ∨
    (∃ old b, heap.get target = .bool old ∧ cell = .bool b) ∨
    ∃ element old source other elements, heap.get target = .array element old ∧
      value = .cell source ∧ heap.get source = .array other elements ∧ other.tag = element.tag ∧
      cell = .array element elements := by
  unfold Heap.written at written
  split at written
  next old content =>
    cases view : heap.toInt value with
    | error failure => simp [view, Except.map] at written
    | ok n =>
      simp only [view, Except.map, Except.ok.injEq] at written
      exact .inl ⟨old, n, content, written.symm⟩
  next old content =>
    cases written
    exact .inr (.inl ⟨old, _, content, rfl⟩)
  next element old content =>
    cases view : heap.toArray value with
    | error failure => simp [view, bind, Except.bind] at written
    | ok source =>
      obtain ⟨rfl, other, elements, found⟩ := toArray_ok view
      simp only [view, bind, Except.bind, found, Cell.tag, elements_of_get found] at written
      split at written
      next same =>
        cases written
        exact .inr (.inr ⟨element, old, source, other, elements, content, rfl, found, by simpa using same, rfl⟩)
      · contradiction

theorem tag_written (written : heap.written target value = .ok cell) :
    cell.tag = (heap.get target).tag := by
  rcases written_cases written with
    ⟨old, n, content, rfl⟩ | ⟨old, b, content, rfl⟩ | ⟨element, old, source, other, elements, content, -, -, -, rfl⟩
  all_goals simp [content, Cell.tag]

theorem tag_put_written (written : heap.written target value = .ok cell) (ref : Ref) :
    ((heap.put target cell).get ref).tag = (heap.get ref).tag := by
  rcases get_put heap target ref cell with same | ⟨rfl, new⟩
  · rw [same]
  · rw [new, tag_written written]

theorem assign_ok (assigned : heap.assign target value = .ok later) :
    ∃ cell, heap.written target value = .ok cell ∧ later = heap.put target cell := by
  unfold Heap.assign at assigned
  cases written : heap.written target value with
  | error failure => simp [written, Except.map] at assigned
  | ok cell =>
    simp only [written, Except.map, Except.ok.injEq] at assigned
    exact ⟨cell, rfl, assigned.symm⟩

/-! ### Fresh cells -/

theorem create_ok {ty : Ty} (created : heap.create ty = .ok (ref, later)) :
    ty.fault? = none ∧ later = (heap.alloc ty).2 := by
  unfold Heap.create at created
  split at created
  · contradiction
  next sound => exact ⟨sound, by rw [Except.ok.inj created]⟩

/-- The later heap has the cells of the earlier one as they were, and its new arrays are made
of new cells that have the arrays' element tag. -/
structure Grown (heap later : Heap) : Prop where
  size : heap.size ≤ later.size
  old : ∀ ref, ref.index < heap.size → later.get ref = heap.get ref
  nonempty : ∀ ref element elements, heap.size ≤ ref.index →
    later.get ref = .array element elements → elements ≠ #[]
  new : ∀ ref element elements, heap.size ≤ ref.index → later.get ref = .array element elements →
    ∀ inner ∈ elements, heap.size ≤ inner.index ∧ inner.index < later.size ∧
      (later.get inner).tag = element.tag

theorem Grown.refl (heap : Heap) : heap.Grown heap := by
  refine ⟨Nat.le_refl _, fun _ _ => rfl, ?_, ?_⟩
  all_goals
    intro ref element elements beyond content
    have inside := lt_size_of_array content
    omega

theorem Grown.trans (first : heap.Grown mid) (second : mid.Grown later) : heap.Grown later := by
  refine ⟨Nat.le_trans first.size second.size, fun ref inside => ?_, ?_, ?_⟩
  · rw [second.old ref (Nat.lt_of_lt_of_le inside first.size), first.old ref inside]
  · intro ref element elements beyond content
    by_cases inside : ref.index < mid.size
    · rw [second.old ref inside] at content
      exact first.nonempty ref element elements beyond content
    · exact second.nonempty ref element elements (by omega) content
  · intro ref element elements beyond content inner member
    by_cases inside : ref.index < mid.size
    · rw [second.old ref inside] at content
      obtain ⟨lower, upper, tag⟩ := first.new ref element elements beyond content inner member
      rw [second.old inner upper]
      exact ⟨lower, Nat.lt_of_lt_of_le upper second.size, tag⟩
    · obtain ⟨lower, upper, tag⟩ := second.new ref element elements (by omega) content inner member
      exact ⟨Nat.le_trans first.size lower, upper, tag⟩

@[simp] theorem size_push (heap : Heap) (cell : Cell) : (heap.push cell).2.size = heap.size + 1 := by
  simp [Heap.push, Heap.size]

theorem get_push_of_lt (inside : ref.index < heap.size) : (heap.push cell).2.get ref = heap.get ref := by
  have bound : ref.index < heap.cells.size := inside
  simp [Heap.push, Heap.get, Array.getD_eq_getD_getElem?, Array.getElem?_push, Nat.ne_of_lt bound]

theorem get_push_self (heap : Heap) (cell : Cell) : (heap.push cell).2.get (heap.push cell).1 = cell := by
  simp [Heap.push, Heap.get, Array.getD_eq_getD_getElem?]

/-- A fresh reference of a tag: it was not in use before. -/
structure Fresh (heap later : Heap) (ref : Ref) (tag : Tag) : Prop where
  lower : heap.size ≤ ref.index
  upper : ref.index < later.size
  tag : (later.get ref).tag = tag

theorem Fresh.mono {tag : Tag} (fresh : heap.Fresh mid ref tag) (grown : mid.Grown later) :
    heap.Fresh later ref tag :=
  ⟨fresh.lower, Nat.lt_of_lt_of_le fresh.upper grown.size, by rw [grown.old ref fresh.upper, fresh.tag]⟩

theorem Fresh.before {tag : Tag} (fresh : mid.Fresh later ref tag) (grown : heap.Grown mid) :
    heap.Fresh later ref tag :=
  ⟨Nat.le_trans grown.size fresh.lower, fresh.upper, fresh.tag⟩

theorem push_fresh (heap : Heap) (cell : Cell) :
    heap.Fresh (heap.push cell).2 (heap.push cell).1 cell.tag :=
  ⟨Nat.le_refl _, by simp [Heap.push, Heap.size], by rw [get_push_self]⟩

theorem Grown.push (grown : heap.Grown mid)
    (made : ∀ element elements, cell = .array element elements →
      elements ≠ #[] ∧ ∀ inner ∈ elements, heap.Fresh mid inner element.tag) :
    heap.Grown (mid.push cell).2 := by
  have contents (ref : Ref) (inside : ref.index < mid.size + 1) :
      (ref.index < mid.size ∧ (mid.push cell).2.get ref = mid.get ref) ∨ (mid.push cell).2.get ref = cell := by
    by_cases old : ref.index < mid.size
    · exact .inl ⟨old, get_push_of_lt old⟩
    · have last : ref = (mid.push cell).1 := by
        cases ref
        simp only [Heap.push, Heap.size, Ref.mk.injEq] at *
        omega
      rw [last]
      exact .inr (get_push_self mid cell)
  refine ⟨by rw [size_push]; have := grown.size; omega, fun ref inside => ?_, ?_, ?_⟩
  · rw [get_push_of_lt (Nat.lt_of_lt_of_le inside grown.size), grown.old ref inside]
  · intro ref element elements beyond content
    have inside := lt_size_of_array content
    rw [size_push] at inside
    rcases contents ref inside with ⟨old, same⟩ | same
    · exact grown.nonempty ref element elements beyond (same ▸ content)
    · exact (made element elements (same.symm.trans content)).1
  · intro ref element elements beyond content inner member
    have inside := lt_size_of_array content
    rw [size_push] at inside ⊢
    have found : heap.size ≤ inner.index ∧ inner.index < mid.size ∧ (mid.get inner).tag = element.tag := by
      rcases contents ref inside with ⟨old, same⟩ | same
      · exact grown.new ref element elements beyond (same ▸ content) inner member
      · have fresh := (made element elements (same.symm.trans content)).2 inner member
        exact ⟨fresh.lower, fresh.upper, fresh.tag⟩
    rw [get_push_of_lt found.2.1]
    exact ⟨found.1, by omega, found.2.2⟩

/-- A whole sequence of fresh cells. The cells collected so far are fresh already. -/
theorem allocTimes_grown {one : Heap → Ref × Heap} {tag : Tag}
    (each : ∀ heap : Heap, heap.Grown (one heap).2 ∧ heap.Fresh (one heap).2 (one heap).1 tag) (times : Nat)
    (refs : Array Ref) (grown : heap.Grown mid) (so : ∀ ref ∈ refs, heap.Fresh mid ref tag) :
    heap.Grown (allocTimes one times refs mid).2 ∧
    (allocTimes one times refs mid).1.size = refs.size + times ∧
    ∀ ref ∈ (allocTimes one times refs mid).1, heap.Fresh (allocTimes one times refs mid).2 ref tag := by
  induction times generalizing refs mid with
  | zero => exact ⟨grown, rfl, so⟩
  | succ times ih =>
    obtain ⟨step, fresh⟩ := each mid
    have collected : ∀ ref ∈ refs.push (one mid).1, heap.Fresh (one mid).2 ref tag := by
      intro ref member
      rcases Array.mem_push.mp member with member | rfl
      · exact (so ref member).mono step
      · exact fresh.before grown
    have next := ih (refs.push (one mid).1) (grown.trans step) collected
    refine ⟨next.1, ?_, next.2.2⟩
    have size := next.2.1
    simp only [Array.size_push] at size
    simp only [allocTimes, size]
    omega

theorem alloc_grown (ty : Ty) (heap : Heap) (sound : ty.fault? = none) :
    heap.Grown (heap.alloc ty).2 ∧ heap.Fresh (heap.alloc ty).2 (heap.alloc ty).1 ty.tag := by
  induction ty generalizing heap with
  | int => exact ⟨(Grown.refl heap).push (by simp), push_fresh heap (.int 0)⟩
  | bool => exact ⟨(Grown.refl heap).push (by simp), push_fresh heap (.bool false)⟩
  | void => simp [Ty.fault?] at sound
  | array element size ih =>
    simp only [Ty.fault?] at sound
    split at sound
    · contradiction
    next positive =>
      obtain ⟨grown, count, fresh⟩ := allocTimes_grown (fun heap => ih heap sound) size #[]
        (Grown.refl heap) (by simp)
      refine ⟨grown.push ?_, (push_fresh _ _).before grown⟩
      rintro _ _ ⟨⟩
      refine ⟨fun empty => positive ?_, fresh⟩
      simpa [empty] using count.symm

end Heap

end TreeLang
