import TreeLang.Tree

/-! Visiting the declarations of a tree in order and replacing what they carry. -/
namespace TreeLang

variable {m : Type → Type} [Monad m] {δ ε : Type}

mutual
/-- Replaces the note of every declaration, the ones inside length expressions included.
A declaration's type is visited before its own note. -/
def TypeSpec.traverse (visit : δ → m ε) : TypeSpec δ → m (TypeSpec ε)
  | .int => return .int
  | .bool => return .bool
  | .void => return .void
  | .array element size => return .array (← element.traverse visit) (← size.traverse visit)
termination_by structural spec => spec

def Declaration.traverse (visit : δ → m ε) : Declaration δ → m (Declaration ε)
  | ⟨name, ty, note⟩ => return ⟨name, ← ty.traverse visit, ← visit note⟩
termination_by structural declaration => declaration

def Node.traverse (visit : δ → m ε) : Node δ → m (Node ε)
  | .int value => return .int value
  | .bool value => return .bool value
  | .var name => return .var name
  | .index base position => return .index (← base.traverse visit) (← position.traverse visit)
  | .arith op left right => return .arith op (← left.traverse visit) (← right.traverse visit)
  | .logic op left right => return .logic op (← left.traverse visit) (← right.traverse visit)
  | .compare op left right => return .compare op (← left.traverse visit) (← right.traverse visit)
  | .not operand => return .not (← operand.traverse visit)
  | .assign target value => return .assign (← target.traverse visit) (← value.traverse visit)
  | .call name args => return .call name (← Node.traverseAll visit args)
  | .declare declaration => return .declare (← declaration.traverse visit)
  | .block body => return .block (← Node.traverseAll visit body)
  | .group body => return .group (← Node.traverseAll visit body)
  | .branch condition yes no =>
    return .branch (← condition.traverse visit) (← yes.traverse visit)
      (← Node.traverseOptional visit no)
  | .loop condition body => return .loop (← condition.traverse visit) (← body.traverse visit)
  | .ret value => return .ret (← Node.traverseOptional visit value)
termination_by structural node => node

def Node.traverseOptional (visit : δ → m ε) : Option (Node δ) → m (Option (Node ε))
  | none => return none
  | some node => return some (← node.traverse visit)
termination_by structural node => node

def Node.traverseAll (visit : δ → m ε) : List (Node δ) → m (List (Node ε))
  | [] => return []
  | node :: rest => return (← node.traverse visit) :: (← Node.traverseAll visit rest)
termination_by structural nodes => nodes
end

def FunctionDef.traverse (visit : δ → m ε) (function : FunctionDef δ) : m (FunctionDef ε) := do
  let params ← function.params.mapM (·.traverse visit)
  let body ← Node.traverseAll visit function.body
  let returns ← function.returns.traverse visit
  return { name := function.name, params, body, returns }

def Program.traverse (visit : δ → m ε) (program : Program δ) : m (Program ε) := do
  return { functions := ← program.functions.mapM (·.traverse visit) }

/-- Replaces every note by a function of it. -/
def TypeSpec.map (f : δ → ε) (spec : TypeSpec δ) : TypeSpec ε :=
  Id.run (spec.traverse fun note => pure (f note))

def Declaration.map (f : δ → ε) (declaration : Declaration δ) : Declaration ε :=
  Id.run (declaration.traverse fun note => pure (f note))

def Node.map (f : δ → ε) (node : Node δ) : Node ε :=
  Id.run (node.traverse fun note => pure (f note))

def FunctionDef.map (f : δ → ε) (function : FunctionDef δ) : FunctionDef ε :=
  Id.run (function.traverse fun note => pure (f note))

def Program.map (f : δ → ε) (program : Program δ) : Program ε :=
  Id.run (program.traverse fun note => pure (f note))

end TreeLang
