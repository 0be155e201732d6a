import TreeLang.Tree

/-! Equality of trees: same shape, same names and literals, equal notes. -/
namespace TreeLang

variable {δ : Type} [BEq δ]

mutual
def TypeSpec.beq : TypeSpec δ → TypeSpec δ → Bool
  | .int, .int => true
  | .bool, .bool => true
  | .void, .void => true
  | .array element size, .array element' size' => element.beq element' && size.beq size'
  | _, _ => false
termination_by structural spec => spec

def Declaration.beq : Declaration δ → Declaration δ → Bool
  | ⟨name, ty, note⟩, ⟨name', ty', note'⟩ => name == name' && ty.beq ty' && note == note'
termination_by structural declaration => declaration

def Node.beq : Node δ → Node δ → Bool
  | .int value, .int value' => value == value'
  | .bool value, .bool value' => value == value'
  | .var name, .var name' => name == name'
  | .index base position, .index base' position' => base.beq base' && position.beq position'
  | .arith op left right, .arith op' left' right' =>
    op == op' && left.beq left' && right.beq right'
  | .logic op left right, .logic op' left' right' =>
    op == op' && left.beq left' && right.beq right'
  | .compare op left right, .compare op' left' right' =>
    op == op' && left.beq left' && right.beq right'
  | .not operand, .not operand' => operand.beq operand'
  | .assign target value, .assign target' value' => target.beq target' && value.beq value'
  | .call name args, .call name' args' => name == name' && Node.beqAll args args'
  | .declare declaration, .declare declaration' => declaration.beq declaration'
  | .block body, .block body' => Node.beqAll body body'
  | .group body, .group body' => Node.beqAll body body'
  | .branch condition yes no, .branch condition' yes' no' =>
    condition.beq condition' && yes.beq yes' && Node.beqOptional no no'
  | .loop condition body, .loop condition' body' => condition.beq condition' && body.beq body'
  | .ret value, .ret value' => Node.beqOptional value value'
  | _, _ => false
termination_by structural node => node

def Node.beqOptional : Option (Node δ) → Option (Node δ) → Bool
  | none, none => true
  | some node, some node' => node.beq node'
  | _, _ => false
termination_by structural node => node

def Node.beqAll : List (Node δ) → List (Node δ) → Bool
  | [], [] => true
  | node :: rest, node' :: rest' => node.beq node' && Node.beqAll rest rest'
  | _, _ => false
termination_by structural nodes => nodes
end

instance : BEq (TypeSpec δ) := ⟨TypeSpec.beq⟩

instance : BEq (Declaration δ) := ⟨Declaration.beq⟩

instance : BEq (Node δ) := ⟨Node.beq⟩

def FunctionDef.beq (a b : FunctionDef δ) : Bool :=
  a.name == b.name && a.params == b.params && a.body == b.body && a.returns == b.returns

instance : BEq (FunctionDef δ) := ⟨FunctionDef.beq⟩

def Program.beq (a b : Program δ) : Bool := a.functions == b.functions

instance : BEq (Program δ) := ⟨Program.beq⟩

end TreeLang
