import TreeLang.Eval

/-! The declarations of a tree. `node.Every P` says that `P` holds of every declaration in
the node, the ones inside length expressions included. The type that a function returns is
left out, since its lengths are never evaluated. -/
namespace TreeLang

variable {δ : Type}

mutual
def TypeSpec.Every (P : Declaration δ → Prop) : TypeSpec δ → Prop
  | .int => True
  | .bool => True
  | .void => True
  | .array element size => element.Every P ∧ size.Every P
termination_by structural spec => spec

def Declaration.Every (P : Declaration δ → Prop) : Declaration δ → Prop
  | ⟨name, ty, note⟩ => ty.Every P ∧ P ⟨name, ty, note⟩
termination_by structural declaration => declaration

def Node.Every (P : Declaration δ → Prop) : Node δ → Prop
  | .int _ => True
  | .bool _ => True
  | .var _ => True
  | .index base position => base.Every P ∧ position.Every P
  | .arith _ left right => left.Every P ∧ right.Every P
  | .logic _ left right => left.Every P ∧ right.Every P
  | .compare _ left right => left.Every P ∧ right.Every P
  | .not operand => operand.Every P
  | .assign target value => target.Every P ∧ value.Every P
  | .call _ args => Node.EveryOf P args
  | .declare declaration => declaration.Every P
  | .block body => Node.EveryOf P body
  | .group body => Node.EveryOf P body
  | .branch condition yes no => condition.Every P ∧ yes.Every P ∧ Node.EveryIn P no
  | .loop condition body => condition.Every P ∧ body.Every P
  | .ret value => Node.EveryIn P value
termination_by structural node => node

def Node.EveryIn (P : Declaration δ → Prop) : Option (Node δ) → Prop
  | none => True
  | some node => node.Every P
termination_by structural node => node

def Node.EveryOf (P : Declaration δ → Prop) : List (Node δ) → Prop
  | [] => True
  | node :: rest => node.Every P ∧ Node.EveryOf P rest
termination_by structural nodes => nodes
end

theorem Declaration.Every.parts {P : Declaration δ → Prop} {declaration : Declaration δ}
    (every : declaration.Every P) : declaration.ty.Every P ∧ P declaration := by
  cases declaration
  exact every

structure FunctionDef.Every (P : Declaration δ → Prop) (function : FunctionDef δ) : Prop where
  params : ∀ param ∈ function.params, param.Every P
  body : Node.EveryOf P function.body

def Program.Every (P : Declaration δ → Prop) (program : Program δ) : Prop :=
  ∀ function ∈ program.functions, function.Every P

def Registry.Every (P : Declaration δ → Prop) (registry : Registry δ) : Prop :=
  ∀ entry ∈ registry.entries, entry.2.Every P

section universal

variable {P : Declaration δ → Prop}

mutual
theorem TypeSpec.every_of_forall (all : ∀ declaration, P declaration) :
    ∀ spec : TypeSpec δ, spec.Every P
  | .int => trivial
  | .bool => trivial
  | .void => trivial
  | .array element size => ⟨element.every_of_forall all, size.every_of_forall all⟩
termination_by structural spec => spec

theorem Declaration.every_of_forall (all : ∀ declaration, P declaration) :
    ∀ declaration : Declaration δ, declaration.Every P
  | ⟨_, ty, _⟩ => ⟨ty.every_of_forall all, all _⟩
termination_by structural declaration => declaration

/-- A property of all declarations holds in every tree. -/
theorem Node.every_of_forall (all : ∀ declaration, P declaration) :
    ∀ node : Node δ, node.Every P
  | .int _ => trivial
  | .bool _ => trivial
  | .var _ => trivial
  | .index base position => ⟨base.every_of_forall all, position.every_of_forall all⟩
  | .arith _ left right => ⟨left.every_of_forall all, right.every_of_forall all⟩
  | .logic _ left right => ⟨left.every_of_forall all, right.every_of_forall all⟩
  | .compare _ left right => ⟨left.every_of_forall all, right.every_of_forall all⟩
  | .not operand => operand.every_of_forall all
  | .assign target value => ⟨target.every_of_forall all, value.every_of_forall all⟩
  | .call _ args => Node.everyOf_of_forall all args
  | .declare declaration => declaration.every_of_forall all
  | .block body => Node.everyOf_of_forall all body
  | .group body => Node.everyOf_of_forall all body
  | .branch condition yes no =>
    ⟨condition.every_of_forall all, yes.every_of_forall all, Node.everyIn_of_forall all no⟩
  | .loop condition body => ⟨condition.every_of_forall all, body.every_of_forall all⟩
  | .ret value => Node.everyIn_of_forall all value
termination_by structural node => node

theorem Node.everyIn_of_forall (all : ∀ declaration, P declaration) :
    ∀ node : Option (Node δ), Node.EveryIn P node
  | none => trivial
  | some node => node.every_of_forall all
termination_by structural node => node

theorem Node.everyOf_of_forall (all : ∀ declaration, P declaration) :
    ∀ nodes : List (Node δ), Node.EveryOf P nodes
  | [] => trivial
  | node :: rest => ⟨node.every_of_forall all, Node.everyOf_of_forall all rest⟩
termination_by structural nodes => nodes
end

theorem FunctionDef.every_of_forall (all : ∀ declaration, P declaration) (function : FunctionDef δ) :
    function.Every P :=
  ⟨fun param _ => param.every_of_forall all, Node.everyOf_of_forall all function.body⟩

theorem Registry.every_of_forall (all : ∀ declaration, P declaration) (registry : Registry δ) :
    registry.Every P :=
  fun entry _ => entry.2.every_of_forall all

end universal

/-- A resolved function is one of the registered ones. -/
theorem Registry.exists_entry {registry : Registry δ} {signature : String} {function : FunctionDef δ}
    (resolved : registry.resolve signature = .ok function) :
    ∃ entry ∈ registry.entries, entry.2 = function := by
  unfold Registry.resolve Registry.get? at resolved
  split at resolved
  next found lookup =>
    cases resolved
    obtain ⟨front, back, split, -⟩ := List.lookup_eq_some_iff.mp lookup
    exact ⟨(signature, function), by simp [split], rfl⟩
  next => contradiction

theorem Registry.Every.of_resolve {P : Declaration δ → Prop} {registry : Registry δ}
    {signature : String} {function : FunctionDef δ} (every : registry.Every P)
    (resolved : registry.resolve signature = .ok function) : function.Every P := by
  obtain ⟨entry, listed, rfl⟩ := Registry.exists_entry resolved
  exact every entry listed

/-- Loading adds functions that were given and no others. -/
theorem Registry.Every.registerAll {P : Declaration δ → Prop} {registry : Registry δ}
    {functions : List (FunctionDef δ)} (every : registry.Every P) (given : ∀ function ∈ functions, function.Every P) :
    (registry.registerAll functions).1.Every P := by
  induction functions generalizing registry with
  | nil => exact every
  | cons function rest ih =>
    cases registered : registry.register function with
    | error failure => simpa only [Registry.registerAll, registered] using every
    | ok later =>
      simp only [Registry.registerAll, registered]
      refine ih ?_ fun other member => given other (by simp [member])
      unfold Registry.register at registered
      split at registered
      next => contradiction
      next =>
        cases registered
        intro entry listed
        rcases List.mem_cons.mp listed with rfl | listed
        · exact given function (by simp)
        · exact every entry listed

end TreeLang
