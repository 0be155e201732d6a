import TreeLang.Json.Writer
import TreeLang.Text.Decimal
import TreeLang.Tree

/-! The written form of trees as JSON documents. Structures are objects with their fields
in a fixed order. A value of a sum type is a string if it has no parts, and otherwise an
object whose only key is its kind. What declarations carry is not written.

As for the readers in `TreeLang.Form.Reader`, only the names are the repository's own: the forms
of structures and sum types are documented behaviour of a library that derives them, which is
assumed here. -/
namespace TreeLang

open Json (Document)

namespace Json.Document

def ofText (text : String) : Document := .string (some text)

/-- An object with fields in order. -/
def record (fields : List (String × Document)) : Document :=
  .object (fields.map fun (name, value) => (some name, value))

/-- A value of a sum type with its parts. -/
def tagged (kind : String) (parts : Document) : Document := .object [(some kind, parts)]

def ofWord (n : Int64) : Document := .number (Decimal.wordText n)

end Json.Document

open Json.Document (ofText ofWord record tagged)

def Ty.toDocument : Ty → Document
  | int => ofText "Int"
  | bool => ofText "Bool"
  | void => ofText "Void"
  | array element size =>
    tagged "Array" (record [("element", element.toDocument), ("size", .number size.repr)])

variable {δ : Type}

mutual
def TypeSpec.toDocument : TypeSpec δ → Document
  | .int => ofText "Int"
  | .bool => ofText "Bool"
  | .void => ofText "Void"
  | .array element size =>
    tagged "Array" (record [("element", element.toDocument), ("size", size.toDocument)])
termination_by structural spec => spec

def Declaration.toDocument : Declaration δ → Document
  | ⟨name, ty, _⟩ => record [("name", ofText name), ("ty", ty.toDocument)]
termination_by structural declaration => declaration

/-- A node is tagged with its kind. -/
def Node.toDocument (node : Node δ) : Document :=
  tagged node.kind.name (match node with
    | .int n => ofWord n
    | .bool b => .bool b
    | .var name => ofText name
    | .index base position =>
      record [("base", base.toDocument), ("index", position.toDocument)]
    | .arith op left right =>
      record [("op", ofText op.text), ("left", left.toDocument), ("right", right.toDocument)]
    | .logic op left right =>
      record [("op", ofText op.text), ("left", left.toDocument), ("right", right.toDocument)]
    | .compare op left right =>
      record [("op", ofText op.text), ("left", left.toDocument), ("right", right.toDocument)]
    | .not operand => operand.toDocument
    | .assign target value =>
      record [("target", target.toDocument), ("value", value.toDocument)]
    | .call name args =>
      record [("name", ofText name), ("args", .array (Node.toDocuments args))]
    | .declare declaration => declaration.toDocument
    | .block body | .group body => .array (Node.toDocuments body)
    | .branch condition yes no =>
      record [("cond", condition.toDocument), ("then_branch", yes.toDocument),
        ("else_branch", Node.toOptional no)]
    | .loop condition body =>
      record [("cond", condition.toDocument), ("body", body.toDocument)]
    | .ret value => Node.toOptional value)
termination_by structural node

/-- A node that may be missing. -/
def Node.toOptional : Option (Node δ) → Document
  | none => .null
  | some node => node.toDocument
termination_by structural node => node

def Node.toDocuments : List (Node δ) → List Document
  | [] => []
  | node :: rest => node.toDocument :: Node.toDocuments rest
termination_by structural nodes => nodes
end

def FunctionDef.toDocument (function : FunctionDef δ) : Document :=
  record [
    ("name", ofText function.name),
    ("params", .array (function.params.map (·.toDocument))),
    ("body", .array (Node.toDocuments function.body)),
    ("return_type", function.returns.toDocument)]

def Program.toDocument (program : Program δ) : Document :=
  record [("functions", .array (program.functions.map (·.toDocument)))]

end TreeLang
