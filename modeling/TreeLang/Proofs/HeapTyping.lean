import TreeLang.Proofs.Operations
import Mathlib.Logic.Relation

/-! Typed heaps. An array has elements, and each has the tag of the array's element type. All
evaluation keeps a heap typed, and no cell ever changes its tag. Along elements tags get
smaller, so an array cannot be reached from its own elements. -/
namespace TreeLang

namespace Heap

variable {heap later : Heap} {ref array target : Ref} {cell : Cell} {value : Value}

structure Typed (heap : Heap) : Prop where
  nonempty : ∀ {ref element elements}, heap.get ref = .array element elements → elements ≠ #[]
  inside : ∀ {ref element elements}, heap.get ref = .array element elements →
    ∀ inner ∈ elements, inner.index < heap.size
  tagged : ∀ {ref element elements}, heap.get ref = .array element elements →
    ∀ inner ∈ elements, (heap.get inner).tag = element.tag

theorem Typed.array_of_tag {inner : Tag} (typed : heap.Typed) (tagged : (heap.get array).tag = .array inner) :
    ∃ element elements, heap.get array = .array element elements ∧
      ∀ found ∈ elements.toList, (heap.get found).tag = inner := by
  obtain ⟨element, elements, content, rfl⟩ := Cell.eq_array_of_tag tagged
  exact ⟨element, elements, content, fun found member => typed.tagged content found (by simpa using member)⟩

/-- Cells are never lost and never change their tag. -/
structure Keeps (heap later : Heap) : Prop where
  size : heap.size ≤ later.size
  tag : ∀ ref, ref.index < heap.size → (later.get ref).tag = (heap.get ref).tag

theorem Keeps.refl (heap : Heap) : heap.Keeps heap := ⟨Nat.le_refl _, fun _ _ => rfl⟩

theorem Keeps.trans {mid : Heap} (first : heap.Keeps mid) (second : mid.Keeps later) :
    heap.Keeps later :=
  ⟨Nat.le_trans first.size second.size, fun ref inside =>
    (second.tag ref (Nat.lt_of_lt_of_le inside first.size)).trans (first.tag ref inside)⟩

theorem Grown.keeps (grown : heap.Grown later) : heap.Keeps later :=
  ⟨grown.size, fun ref inside => by rw [grown.old ref inside]⟩

theorem typed_empty : Heap.empty.Typed := by
  have none (ref : Ref) : Heap.empty.get ref = .int 0 := rfl
  constructor <;> simp [none]

theorem Typed.grown (typed : heap.Typed) (grown : heap.Grown later) : later.Typed := by
  -- An array of the later heap is an old one, whose elements are old too, or a new one.
  have split {ref : Ref} {element : Ty} {elements : Array Ref} (content : later.get ref = .array element elements) :
      heap.get ref = .array element elements ∨ heap.size ≤ ref.index := by
    by_cases old : ref.index < heap.size
    · exact .inl (grown.old ref old ▸ content)
    · exact .inr (by omega)
  refine ⟨fun content => ?_, fun content inner member => ?_, fun content inner member => ?_⟩
  · rcases split content with old | new
    · exact typed.nonempty old
    · exact grown.nonempty _ _ _ new content
  · rcases split content with old | new
    · exact Nat.lt_of_lt_of_le (typed.inside old inner member) grown.size
    · exact (grown.new _ _ _ new content inner member).2.1
  · rcases split content with old | new
    · rw [grown.old inner (typed.inside old inner member)]
      exact typed.tagged old inner member
    · exact (grown.new _ _ _ new content inner member).2.2

/-- Taking over a sequence is safe because the tags agree: the cell keeps its own element
type, whatever lengths that type still mentions. -/
theorem Typed.put (typed : heap.Typed) (written : heap.written target value = .ok cell) :
    (heap.put target cell).Typed := by
  have origin {ref : Ref} {element : Ty} {elements : Array Ref}
      (content : (heap.put target cell).get ref = .array element elements) :
      ∃ source other, heap.get source = .array other elements ∧ other.tag = element.tag := by
    rcases get_put heap target ref cell with same | ⟨rfl, new⟩
    · exact ⟨ref, element, same ▸ content, rfl⟩
    · rcases written_cases written with
        ⟨_, _, _, rfl⟩ | ⟨_, _, _, rfl⟩ | ⟨own, _, source, other, taken, _, -, found, same, rfl⟩
      · simp [new] at content
      · simp [new] at content
      · rw [new] at content
        cases content
        exact ⟨source, other, found, same⟩
  refine ⟨fun content => ?_, fun content inner member => ?_, fun content inner member => ?_⟩
  · obtain ⟨source, other, found, -⟩ := origin content
    exact typed.nonempty found
  · obtain ⟨source, other, found, -⟩ := origin content
    rw [size_put]
    exact typed.inside found inner member
  · obtain ⟨source, other, found, same⟩ := origin content
    rw [tag_put_written written, typed.tagged found inner member, same]

theorem keeps_put (written : heap.written target value = .ok cell) : heap.Keeps (heap.put target cell) :=
  ⟨Nat.le_of_eq size_put.symm, fun ref _ => tag_put_written written ref⟩

end Heap

def Law.typing : Law where
  inv s := s.heap.Typed
  rel s t := s.heap.Keeps t.heap
  val _ _ := True
  arg _ _ := True
  declared _ := True
  refl s := .refl s.heap
  trans first second := first.trans second
  val_later _ _ _ := trivial
  arg_later _ _ _ := trivial
  arg_of_val _ _ := trivial
  val_int _ _ := trivial
  val_bool _ _ := trivial
  stack _ typed := ⟨typed, .refl _⟩
  console _ typed := ⟨typed, .refl _⟩
  settle typed _ _ _ := ⟨typed, .refl _⟩
  lookup _ _ := trivial
  element _ _ _ := trivial
  assign typed _ _ written := ⟨typed.put written, Heap.keeps_put written⟩
  alloc typed sound :=
    have grown := (Heap.alloc_grown _ _ sound).1
    ⟨typed.grown grown, grown.keeps⟩
  bind typed sound _ :=
    have grown := (Heap.alloc_grown _ _ sound).1
    ⟨typed.grown grown, grown.keeps⟩
  openBlock typed := typed
  closeBlock _ typed related := ⟨typed, related⟩
  enterCall typed := typed
  leaveCall _ typed related := ⟨typed, related⟩

namespace Heap

/-- One step from an array to an element. -/
def Holds (heap : Heap) (array ref : Ref) : Prop := ref ∈ heap.elements array

end Heap

/-- How many array levels a tag has. -/
def Tag.levels : Tag → Nat
  | int => 0
  | bool => 0
  | void => 0
  | array element => element.levels + 1

namespace Heap.Typed

variable {heap : Heap} {array ref : Ref}

theorem levels_lt (typed : heap.Typed) (holds : heap.Holds array ref) :
    (heap.get ref).tag.levels < (heap.get array).tag.levels := by
  obtain ⟨element, elements, content, member⟩ := Heap.array_of_mem holds
  rw [typed.tagged content ref member, content]
  exact Nat.lt_succ_self _

theorem levels_lt_of_path (typed : heap.Typed) (path : Relation.TransGen heap.Holds array ref) :
    (heap.get ref).tag.levels < (heap.get array).tag.levels := by
  induction path with
  | single holds => exact typed.levels_lt holds
  | tail _ holds ih => exact Nat.lt_trans (typed.levels_lt holds) ih

theorem acyclic (typed : heap.Typed) (ref : Ref) : ¬ Relation.TransGen heap.Holds ref ref :=
  fun path => Nat.lt_irrefl _ (typed.levels_lt_of_path path)

end Heap.Typed

namespace Heap

/-! ### Histories -/

/-- One operation on the cells, by their owner or by an interpreter in whatever state. An
operation that fails may still have changed the heap only inside an interpreter. -/
inductive Step : Heap → Heap → Prop where
  | create {heap later : Heap} {ty : Ty} {ref : Ref} : heap.create ty = .ok (ref, later) → Step heap later
  | assign {heap later : Heap} {target : Ref} {value : Value} :
      heap.assign target value = .ok later → Step heap later
  | element {heap : Heap} (array : Ref) (index : Int64) : Step heap heap
  | interpreter {before after : Interpreter} : before.Step after → Step before.state.heap after.state.heap

variable {heap later : Heap}

theorem Typed.create {ty : Ty} {ref : Ref} (typed : heap.Typed)
    (created : heap.create ty = .ok (ref, later)) : later.Typed ∧ heap.Keeps later := by
  obtain ⟨sound, rfl⟩ := create_ok created
  have grown := (alloc_grown ty heap sound).1
  exact ⟨typed.grown grown, grown.keeps⟩

theorem Typed.assign {target : Ref} {value : Value} (typed : heap.Typed)
    (assigned : heap.assign target value = .ok later) : later.Typed ∧ heap.Keeps later := by
  obtain ⟨cell, written, rfl⟩ := assign_ok assigned
  exact ⟨typed.put written, keeps_put written⟩

theorem Typed.step (typed : heap.Typed) (step : heap.Step later) : later.Typed ∧ heap.Keeps later := by
  cases step with
  | create created => exact typed.create created
  | assign assigned => exact typed.assign assigned
  | element array index => exact ⟨typed, .refl heap⟩
  | interpreter operation =>
    exact Law.typing.step_kept (fun _ => trivial) (fun _ _ => trivial) typed operation

theorem Typed.steps (typed : heap.Typed) (steps : Relation.ReflTransGen Step heap later) :
    later.Typed ∧ heap.Keeps later := by
  induction steps with
  | refl => exact ⟨typed, .refl heap⟩
  | tail _ step ih =>
    obtain ⟨kept, related⟩ := ih
    obtain ⟨last, next⟩ := kept.step step
    exact ⟨last, related.trans next⟩

end Heap

end TreeLang
