import TreeLang.Heap

/-! The tree of scalars that a value denotes in a heap, and its printed text. A scalar
and a cell that holds it denote the same datum. -/
namespace TreeLang

inductive Datum where
  | int (value : Int64)
  | bool (value : Bool)
  | array (elements : List Datum)

namespace Datum

mutual
/-- Numbers in decimal, `true` or `false`, and arrays in brackets. -/
def text : Datum → String
  | int n => Decimal.wordText n
  | bool b => if b then "true" else "false"
  | array elements => "[" ++ ", ".intercalate (texts elements) ++ "]"
termination_by structural datum => datum

def texts : List Datum → List String
  | [] => []
  | datum :: rest => datum.text :: texts rest
termination_by structural data => data
end

end Datum

namespace Heap

/-- What a cell denotes, following array elements as deep as its tag says. In a heap whose
elements agree with their arrays' tags nothing is cut off. -/
def datumAt (heap : Heap) : Tag → Ref → Datum
  | .array element, ref =>
    match heap.get ref with
    | .int n => .int n
    | .bool b => .bool b
    | .array _ elements => .array (elements.toList.map (heap.datumAt element))
  | _, ref =>
    match heap.get ref with
    | .int n => .int n
    | .bool b => .bool b
    | .array .. => .array []

def datum (heap : Heap) : Value → Datum
  | .int n => .int n
  | .bool b => .bool b
  | .cell ref => heap.datumAt (heap.get ref).tag ref

def text (heap : Heap) (value : Value) : String := (heap.datum value).text

end Heap

end TreeLang
