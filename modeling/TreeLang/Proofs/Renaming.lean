import TreeLang.Eval

/-! Other names for cells and slots. A renaming says which cell of a second heap answers to each
cell of a first one; nothing that can be asked of a heap tells the two apart. -/
namespace TreeLang

/-! ### Whatever refers to cells -/

section

variable (ref : Ref → Ref)

def Value.rename : Value → Value
  | int n => .int n
  | bool b => .bool b
  | cell place => .cell (ref place)

def Cell.rename : Cell → Cell
  | int n => .int n
  | bool b => .bool b
  | array element elements => .array element (elements.map ref)

def Scope.rename (scope : Scope) : Scope where
  bindings := scope.bindings.map fun binding => (binding.1, ref binding.2)

def Env.rename (env : Env) : Env where
  inner := env.inner.rename ref
  outer := env.outer.map (Scope.rename ref)

def OperandStack.rename (stack : OperandStack) : OperandStack where
  values := stack.values.map (Value.rename ref)
  frames := stack.frames

def Flow.rename : Flow → Flow
  | completed => .completed
  | returned value => .returned (value.map (Value.rename ref))

end

section

variable {ref : Ref → Ref}

@[simp] theorem Cell.tag_rename (cell : Cell) : (cell.rename ref).tag = cell.tag := by
  cases cell <;> rfl

theorem Scope.find?_rename (scope : Scope) (name : String) :
    (scope.rename ref).find? name = (scope.find? name).map ref := by
  obtain ⟨bindings⟩ := scope
  simp only [Scope.find?, Scope.rename]
  induction bindings with
  | nil => rfl
  | cons binding rest ih =>
    obtain ⟨bound, place⟩ := binding
    simp only [List.map_cons, List.lookup_cons]
    cases name == bound with
    | true => rfl
    | false => exact ih

theorem Scope.declare_rename (scope : Scope) (name : String) (place : Ref) :
    (scope.rename ref).declare name (ref place) =
      (scope.declare name place).map (Scope.rename ref) := by
  unfold Scope.declare
  rw [Scope.find?_rename]
  cases scope.find? name with
  | some bound => rfl
  | none => rfl

namespace Env

theorem find?_rename (env : Env) (name : String) :
    (env.rename ref).find? name = (env.find? name).map ref := by
  have scopes : (env.rename ref).scopes = env.scopes.map (Scope.rename ref) := rfl
  rw [find?, find?, scopes]
  induction env.scopes with
  | nil => rfl
  | cons scope rest ih =>
    simp only [List.map_cons, List.findSome?_cons, Scope.find?_rename]
    cases scope.find? name with
    | some bound => rfl
    | none => exact ih

theorem lookup_rename (env : Env) (name : String) :
    (env.rename ref).lookup name = (env.lookup name).map ref := by
  unfold lookup
  rw [find?_rename]
  cases env.find? name with
  | some bound => rfl
  | none => rfl

theorem declare_rename (env : Env) (name : String) (place : Ref) :
    (env.rename ref).declare name (ref place) = (env.declare name place).map (Env.rename ref) := by
  have inner : (env.rename ref).inner.declare name (ref place) =
      (env.inner.declare name place).map (Scope.rename ref) :=
        Scope.declare_rename env.inner name place
  rw [declare, declare, inner]
  cases env.inner.declare name place with
  | ok scope => rfl
  | error failure => rfl

theorem popScope_rename (env : Env) : (env.rename ref).popScope = env.popScope.rename ref := by
  obtain ⟨inner, outer⟩ := env
  cases outer with
  | nil => rfl
  | cons scope outer => rfl

end Env

namespace OperandStack

@[simp] theorem size_rename (stack : OperandStack) : (stack.rename ref).size = stack.size :=
  List.length_map _

theorem truncate_rename (stack : OperandStack) (height : Nat) :
    (stack.rename ref).truncate height = (stack.truncate height).rename ref := by
  simp [truncate, rename, size]

theorem pushFrame_rename (stack : OperandStack) :
    (stack.rename ref).pushFrame = stack.pushFrame.rename ref := by
  simp [pushFrame, rename, size]

theorem popFrame_rename (stack : OperandStack) :
    (stack.rename ref).popFrame = stack.popFrame.rename ref := by
  unfold popFrame
  cases frames : stack.frames with
  | nil =>
    have none : (stack.rename ref).frames = [] := frames
    rw [none]
  | cons height rest =>
    have some : (stack.rename ref).frames = height :: rest := frames
    simp only [some, truncate_rename]
    rfl

end OperandStack

end

/-! ### Heaps -/

/-- A second heap for each heap, and a second slot for each slot. -/
structure Renaming where
  ref : Ref → Ref
  slot : Slot → Slot
  heap : Heap → Heap
  get : ∀ h place, (heap h).get (ref place) = (h.get place).rename ref
  put : ∀ h place cell, (heap h).put (ref place) (cell.rename ref) = heap (h.put place cell)
  push : ∀ h cell, (heap h).push (cell.rename ref) = (ref (h.push cell).1, heap (h.push cell).2)

namespace Renaming

variable (names : Renaming)

theorem tag (heap : Heap) (value : Value) :
    (names.heap heap).tag (value.rename names.ref) = heap.tag value := by
  cases value with
  | int n => rfl
  | bool b => rfl
  | cell place => simp only [Value.rename, Heap.tag, names.get, Cell.tag_rename]

theorem toInt (heap : Heap) (value : Value) :
    (names.heap heap).toInt (value.rename names.ref) = heap.toInt value := by
  cases value with
  | int n => rfl
  | bool b => rfl
  | cell place =>
    simp only [Value.rename, Heap.toInt, names.get]
    cases heap.get place <;> rfl

theorem truth (heap : Heap) (value : Value) :
    (names.heap heap).truth (value.rename names.ref) = heap.truth value := by
  cases value with
  | int n => rfl
  | bool b => rfl
  | cell place =>
    simp only [Value.rename, Heap.truth, names.get]
    cases heap.get place <;> rfl

theorem toArray (heap : Heap) (value : Value) :
    (names.heap heap).toArray (value.rename names.ref) = (heap.toArray value).map names.ref := by
  cases value with
  | int n => rfl
  | bool b => rfl
  | cell place =>
    simp only [Value.rename, Heap.toArray, names.get]
    cases heap.get place <;> rfl

theorem elements (heap : Heap) (place : Ref) :
    (names.heap heap).elements (names.ref place) = (heap.elements place).map names.ref := by
  simp only [Heap.elements, names.get]
  cases heap.get place with
  | int n => exact Array.map_empty.symm
  | bool b => exact Array.map_empty.symm
  | array element elements => rfl

theorem element (heap : Heap) (array : Ref) (index : Int64) :
    (names.heap heap).element (names.ref array) index =
      (heap.element array index).map names.ref := by
  simp only [Heap.element, names.elements, Array.getElem?_map, Array.size_map]
  by_cases negative : index < 0
  · simp [negative, Except.map]
  · simp only [if_neg negative]
    cases (heap.elements array)[index.toInt.toNat]? <;> rfl

theorem written (heap : Heap) (target : Ref) (value : Value) :
    (names.heap heap).written (names.ref target) (value.rename names.ref) =
      (heap.written target value).map (Cell.rename names.ref) := by
  simp only [Heap.written, names.get]
  cases heap.get target with
  | int n =>
    simp only [Cell.rename, names.toInt]
    cases heap.toInt value <;> rfl
  | bool b =>
    simp only [Cell.rename, names.truth]
    rfl
  | array element elements =>
    simp only [Cell.rename, names.toArray]
    cases heap.toArray value with
    | error failure => rfl
    | ok source =>
      change (if ((names.heap heap).get (names.ref source)).tag = _ then _ else _) =
        Except.map _ (if (heap.get source).tag = _ then _ else _)
      rw [names.get, Cell.tag_rename]
      split
      · simp only [names.elements]
        rfl
      · rfl

theorem allocTimes {one : Heap → Ref × Heap}
    (each : ∀ heap, one (names.heap heap) = (names.ref (one heap).1, names.heap (one heap).2))
    (count : Nat) (refs : Array Ref) (heap : Heap) :
    Heap.allocTimes one count (refs.map names.ref) (names.heap heap) =
      ((Heap.allocTimes one count refs heap).1.map names.ref,
        names.heap (Heap.allocTimes one count refs heap).2) := by
  induction count generalizing refs heap with
  | zero => rfl
  | succ count ih =>
    simp only [Heap.allocTimes, each]
    rw [← Array.map_push]
    exact ih _ _

theorem alloc (ty : Ty) (heap : Heap) :
    (names.heap heap).alloc ty = (names.ref (heap.alloc ty).1, names.heap (heap.alloc ty).2) := by
  induction ty generalizing heap with
  | int => exact names.push heap (.int 0)
  | bool => exact names.push heap (.bool false)
  | void =>
    have next := congrArg Prod.fst (names.push heap (.int 0))
    exact Prod.ext next rfl
  | array element size ih =>
    have made := names.allocTimes ih size #[] heap
    rw [Array.map_empty] at made
    simp only [Heap.alloc, made]
    exact names.push _ (.array element _)

theorem datumAt (heap : Heap) (tag : Tag) (place : Ref) :
    (names.heap heap).datumAt tag (names.ref place) = heap.datumAt tag place := by
  induction tag generalizing place with
  | int =>
    simp only [Heap.datumAt, names.get]
    cases heap.get place <;> rfl
  | bool =>
    simp only [Heap.datumAt, names.get]
    cases heap.get place <;> rfl
  | void =>
    simp only [Heap.datumAt, names.get]
    cases heap.get place <;> rfl
  | array element ih =>
    simp only [Heap.datumAt, names.get]
    cases heap.get place with
    | int n => rfl
    | bool b => rfl
    | array inner elements => simp [Cell.rename, ih]

theorem text (heap : Heap) (value : Value) :
    (names.heap heap).text (value.rename names.ref) = heap.text value := by
  cases value with
  | int n => rfl
  | bool b => rfl
  | cell place =>
    simp only [Heap.text, Heap.datum, Value.rename, names.get, Cell.tag_rename, names.datumAt]

end Renaming
end TreeLang
