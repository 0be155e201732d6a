import TreeLang.Json.Reader
import TreeLang.Text.Decimal
import TreeLang.Tree

/-! Trees from JSON documents. A structure may be an object, with its fields in any order
and members of other names ignored, or an array of exactly its fields in their order. A
value of a sum type is a string if it has no parts, or an object with one member.

The readers take the number of arrays and objects that may still be opened one inside the
other, and opening one uses up one. Only what becomes part of the tree counts: an ignored
member may hold anything.

The names of fields, kinds and operators are the repository's own. How a structure or a sum type
is read under these names, and how deep documents may nest, is documented behaviour of the
libraries that derive the readers and parse the text. It is not code of the repository, and that
the libraries behave as written out here is assumed. -/
namespace TreeLang

open Json (Document Text)

namespace Json.Document

/-- The text of a string. -/
def text? : Document → Option String
  | .string text => text
  | _ => none

def bool? : Document → Option Bool
  | .bool b => some b
  | _ => none

/-- A signed 64-bit number without fraction and exponent; there is no negative zero. -/
def word? : Document → Option Int64
  | .number literal => if literal = "-0" then none else Decimal.readWord? literal
  | _ => none

/-- An unsigned 64-bit number without fraction and exponent. -/
def size? : Document → Option Nat
  | .number literal => (Decimal.natural? literal.toList).bind Decimal.size?
  | _ => none

/-- The elements of an array, each read in the same way. -/
def list? {α : Type} (read? : Document → Option α) : Document → Option (List α)
  | .array elements => elements.mapM read?
  | _ => none

/-- A value that may be missing or null. -/
def optional? {α : Type} (read? : Document → Option α) : Option Document → Option (Option α)
  | none | some .null => some none
  | some document => (read? document).map some

/-- The values of the members with a given key. -/
def valuesAt (name : String) (members : List (Text × Document)) : List Document :=
  (members.filter (·.1 == some name)).map (·.2)

/-- The field of a name: present once, or missing. -/
def field? (members : List (Text × Document)) (name : String) : Option (Option Document) :=
  match valuesAt name members with
  | [] => some none
  | [value] => some (some value)
  | _ => none

/-- The fields of a structure, in the order of the names. In an object a field may be
missing; whether that is allowed is for the caller to say. -/
def fields? (names : List String) : Document → Option (List (Option Document))
  | .array elements => if elements.length = names.length then some (elements.map some) else none
  | .object members =>
    if members.all (·.1.isSome) then names.mapM (field? members) else none
  | _ => none

/-- A value of a sum type without parts, by the spelling of its kind. -/
def kind? : Nat → Document → Option String
  | _, .string text => text
  | _ + 1, .object [(kind, .null)] => kind
  | _, _ => none

end Json.Document

open Json.Document (fields? kind? list? optional?)

def Ty.ofDocument? : Nat → Document → Option Ty
  | depth + 2, .object [(some "Array", parts)] => do
    let [some element, some size] ← fields? ["element", "size"] parts | none
    return .array (← Ty.ofDocument? depth element) (← size.size?)
  | depth, document =>
    match kind? depth document with
    | some "Int" => some .int
    | some "Bool" => some .bool
    | some "Void" => some .void
    | _ => none

mutual
def TypeSpec.ofDocument? : Nat → Document → Option (TypeSpec Unit)
  | depth + 2, .object [(some "Array", parts)] => do
    let [some element, some size] ← fields? ["element", "size"] parts | none
    return .array (← TypeSpec.ofDocument? depth element) (← Node.ofDocument? depth size)
  | depth, document =>
    match kind? depth document with
    | some "Int" => some .int
    | some "Bool" => some .bool
    | some "Void" => some .void
    | _ => none
termination_by structural depth => depth

def Declaration.ofDocument? : Nat → Document → Option (Declaration Unit)
  | 0, _ => none
  | depth + 1, document => do
    let [some name, some ty] ← fields? ["name", "ty"] document | none
    return ⟨← name.text?, ← TypeSpec.ofDocument? depth ty, ()⟩
termination_by structural depth => depth

def Node.ofDocument? : Nat → Document → Option (Node Unit)
  | depth + 1, .object [(some name, parts)] =>
    match Kind.ofName? name, depth with
    | some .int, _ => parts.word?.map .int
    | some .bool, _ => parts.bool?.map .bool
    | some .var, _ => parts.text?.map .var
    | some .not, depth => (Node.ofDocument? depth parts).map .not
    | some .declare, depth => (Declaration.ofDocument? depth parts).map .declare
    | some .ret, depth =>
      (optional? (Node.ofDocument? depth) (some parts)).map .ret
    | some .block, depth + 1 => (list? (Node.ofDocument? depth) parts).map .block
    | some .group, depth + 1 => (list? (Node.ofDocument? depth) parts).map .group
    | some .index, depth + 1 => do
      let [some base, some position] ← fields? ["base", "index"] parts | none
      return .index (← Node.ofDocument? depth base) (← Node.ofDocument? depth position)
    | some .arith, depth + 1 => do
      let [some op, some left, some right] ← fields? ["op", "left", "right"] parts | none
      return .arith (← (kind? depth op).bind ArithOp.ofText?)
        (← Node.ofDocument? depth left) (← Node.ofDocument? depth right)
    | some .logic, depth + 1 => do
      let [some op, some left, some right] ← fields? ["op", "left", "right"] parts | none
      return .logic (← (kind? depth op).bind LogicOp.ofText?)
        (← Node.ofDocument? depth left) (← Node.ofDocument? depth right)
    | some .compare, depth + 1 => do
      let [some op, some left, some right] ← fields? ["op", "left", "right"] parts | none
      return .compare (← (kind? depth op).bind CmpOp.ofText?)
        (← Node.ofDocument? depth left) (← Node.ofDocument? depth right)
    | some .assign, depth + 1 => do
      let [some target, some value] ← fields? ["target", "value"] parts | none
      return .assign (← Node.ofDocument? depth target) (← Node.ofDocument? depth value)
    | some .branch, depth + 1 => do
      let [some condition, some yes, no] ←
        fields? ["cond", "then_branch", "else_branch"] parts | none
      return .branch (← Node.ofDocument? depth condition) (← Node.ofDocument? depth yes)
        (← optional? (Node.ofDocument? depth) no)
    | some .loop, depth + 1 => do
      let [some condition, some body] ← fields? ["cond", "body"] parts | none
      return .loop (← Node.ofDocument? depth condition) (← Node.ofDocument? depth body)
    | some .call, depth + 2 => do
      let [some name, some args] ← fields? ["name", "args"] parts | none
      return .call (← name.text?) (← list? (Node.ofDocument? depth) args)
    | _, _ => none
  | _, _ => none
termination_by structural depth => depth
end

def FunctionDef.ofDocument? : Nat → Document → Option (FunctionDef Unit)
  | depth + 2, document => do
    let [some name, some params, some body, some returns] ←
      fields? ["name", "params", "body", "return_type"] document | none
    return {
      name := ← name.text?
      params := ← list? (Declaration.ofDocument? depth) params
      body := ← list? (Node.ofDocument? depth) body
      returns := ← TypeSpec.ofDocument? (depth + 1) returns }
  | _, _ => none

def Program.ofDocument? : Nat → Document → Option (Program Unit)
  | depth + 2, document => do
    let [some functions] ← fields? ["functions"] document | none
    return { functions := ← list? (FunctionDef.ofDocument? depth) functions }
  | _, _ => none

/-- How deep the arrays and objects of a tree's written form may nest. -/
def nestingLimit : Nat := 127

/-- Reads a program from JSON text. -/
def Program.read? (source : String) : Option (Program Unit) :=
  (Document.read? source).bind (Program.ofDocument? nestingLimit)

end TreeLang
