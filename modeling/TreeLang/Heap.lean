import TreeLang.Failure
import TreeLang.Ty

/-! The heap of cells. A cell holds a scalar or a sequence of references to other cells,
and a reference is never reused. Assigning one array to another makes the target hold the
source's sequence, so both have the same element cells from then on. -/
namespace TreeLang

structure Ref where
  index : Nat
  deriving DecidableEq

/-- The contents of a cell. An array keeps the element type it was declared with. -/
inductive Cell where
  | int (value : Int64)
  | bool (value : Bool)
  | array (element : Ty) (elements : Array Ref)
  deriving DecidableEq

def Cell.tag : Cell → Tag
  | int _ => .int
  | bool _ => .bool
  | array element _ => .array element.tag

/-- What an expression yields: a scalar of its own, or a cell. -/
inductive Value where
  | int (value : Int64)
  | bool (value : Bool)
  | cell (ref : Ref)
  deriving DecidableEq

/-- Why no cell of a type can be made; the outermost level at fault decides. -/
def Ty.fault? : Ty → Option Failure
  | int | bool => none
  | void => some (.typeMismatch "int, bool or array" "void")
  | array element size => if size = 0 then some (.invalidArraySize 0) else element.fault?

structure Heap where
  cells : Array Cell := #[]
  deriving DecidableEq

namespace Heap

def empty : Heap := {}

def size (heap : Heap) : Nat := heap.cells.size

/-- The contents of a cell; a reference that was never given out reads as zero. -/
def get (heap : Heap) (ref : Ref) : Cell := heap.cells.getD ref.index (.int 0)

def put (heap : Heap) (ref : Ref) (cell : Cell) : Heap :=
  { heap with cells := heap.cells.setIfInBounds ref.index cell }

def push (heap : Heap) (cell : Cell) : Ref × Heap :=
  (⟨heap.cells.size⟩, { heap with cells := heap.cells.push cell })

/-- Runs an allocation a number of times and collects the references in order. -/
def allocTimes (one : Heap → Ref × Heap) : Nat → Array Ref → Heap → Array Ref × Heap
  | 0, refs, heap => (refs, heap)
  | n + 1, refs, heap =>
    let (ref, heap) := one heap
    allocTimes one n (refs.push ref) heap

/-- Makes the cells of a type, elements before the array that holds them, all zero or
false. `Ty.fault?` tells beforehand whether the type has cells; `void` has none. -/
def alloc : Ty → Heap → Ref × Heap
  | .int, heap => heap.push (.int 0)
  | .bool, heap => heap.push (.bool false)
  | .void, heap => (⟨heap.cells.size⟩, heap)
  | .array element size, heap =>
    let (elements, heap) := allocTimes (alloc element) size #[] heap
    heap.push (.array element elements)

/-- A fresh cell of a type, or the reason why there is none. -/
def create (heap : Heap) (ty : Ty) : Except Failure (Ref × Heap) :=
  match ty.fault? with
  | some failure => .error failure
  | none => .ok (heap.alloc ty)

def tag (heap : Heap) : Value → Tag
  | .int _ => .int
  | .bool _ => .bool
  | .cell ref => (heap.get ref).tag

/-- The integer view: booleans count as zero and one, arrays have none. -/
def toInt (heap : Heap) : Value → Except Failure Int64
  | .int n => .ok n
  | .bool b => .ok b.toInt64
  | .cell ref =>
    match heap.get ref with
    | .int n => .ok n
    | .bool b => .ok b.toInt64
    | .array element _ => .error (.typeMismatch "int" (Tag.array element.tag).text)

/-- The truth view: integers are true when not zero, and arrays are always true. -/
def truth (heap : Heap) : Value → Bool
  | .int n => n != 0
  | .bool b => b
  | .cell ref =>
    match heap.get ref with
    | .int n => n != 0
    | .bool b => b
    | .array .. => true

/-- The array cell that a value refers to. -/
def toArray (heap : Heap) (value : Value) : Except Failure Ref :=
  match value with
  | .cell ref =>
    match heap.get ref with
    | .array .. => .ok ref
    | scalar => .error (.typeMismatch "array" scalar.tag.text)
  | scalar => .error (.typeMismatch "array" (heap.tag scalar).text)

/-- The element cells of an array, and none for a scalar. -/
def elements (heap : Heap) (ref : Ref) : Array Ref :=
  match heap.get ref with
  | .array _ elements => elements
  | _ => #[]

/-- The element cell at an index, which counts from zero. -/
def element (heap : Heap) (array : Ref) (index : Int64) : Except Failure Ref :=
  let elements := heap.elements array
  let found := if index < 0 then none else elements[index.toInt.toNat]?
  match found with
  | some ref => .ok ref
  | none => .error (.indexOutOfBounds index elements.size)

/-- What a cell holds after a value is written to it. A scalar is coerced to the kind of
the cell. An array must have the same tag; the cell keeps its element type and takes over
the sequence. -/
def written (heap : Heap) (target : Ref) (value : Value) : Except Failure Cell :=
  match heap.get target with
  | .int _ => (heap.toInt value).map .int
  | .bool _ => .ok (.bool (heap.truth value))
  | .array element _ => do
    let source ← heap.toArray value
    let found := (heap.get source).tag
    if found = .array element.tag then
      return .array element (heap.elements source)
    else
      throw (.typeMismatch (Tag.array element.tag).text found.text)

def assign (heap : Heap) (target : Ref) (value : Value) : Except Failure Heap :=
  (heap.written target value).map (heap.put target)

end Heap

end TreeLang
