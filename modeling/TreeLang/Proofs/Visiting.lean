import TreeLang.Proofs.Declarations
import TreeLang.Proofs.Parts
import TreeLang.Tree.Traverse
import Mathlib.Logic.Basic

/-! The declarations of a tree in the order of the visit, and what is left as it is when their notes
are replaced. -/
namespace TreeLang

variable {δ ε : Type}

/-! ### Declarations in the order of the visit -/

mutual
def TypeSpec.declarations : TypeSpec δ → List (Declaration δ)
  | .int => []
  | .bool => []
  | .void => []
  | .array element size => element.declarations ++ size.declarations
termination_by structural spec => spec

def Declaration.declarations : Declaration δ → List (Declaration δ)
  | ⟨name, ty, note⟩ => ty.declarations ++ [⟨name, ty, note⟩]
termination_by structural declaration => declaration

/-- The declarations of a node, those inside length expressions included; they stand before the
declaration whose type they are in. -/
def Node.declarations : Node δ → List (Declaration δ)
  | .int _ => []
  | .bool _ => []
  | .var _ => []
  | .index base position => base.declarations ++ position.declarations
  | .arith _ left right => left.declarations ++ right.declarations
  | .logic _ left right => left.declarations ++ right.declarations
  | .compare _ left right => left.declarations ++ right.declarations
  | .not operand => operand.declarations
  | .assign target value => target.declarations ++ value.declarations
  | .call _ args => Node.declarationsOf args
  | .declare declaration => declaration.declarations
  | .block body => Node.declarationsOf body
  | .group body => Node.declarationsOf body
  | .branch condition yes no =>
    condition.declarations ++ (yes.declarations ++ Node.declarationsIn no)
  | .loop condition body => condition.declarations ++ body.declarations
  | .ret value => Node.declarationsIn value
termination_by structural node => node

def Node.declarationsIn : Option (Node δ) → List (Declaration δ)
  | none => []
  | some node => node.declarations
termination_by structural node => node

def Node.declarationsOf : List (Node δ) → List (Declaration δ)
  | [] => []
  | node :: rest => node.declarations ++ Node.declarationsOf rest
termination_by structural nodes => nodes
end

/-- The declarations that a call of the function may meet. -/
def FunctionDef.evaluated (function : FunctionDef δ) : List (Declaration δ) :=
  function.params.flatMap (·.declarations) ++ Node.declarationsOf function.body

/-- All declarations of a function, also those in the lengths of the type it returns. -/
def FunctionDef.declarations (function : FunctionDef δ) : List (Declaration δ) :=
  function.evaluated ++ function.returns.declarations

def Program.declarations (program : Program δ) : List (Declaration δ) :=
  program.functions.flatMap (·.declarations)

section every

variable {P : Declaration δ → Prop}

theorem forall_mem_append_of_iff {first second : Prop} {front back : List (Declaration δ)}
    (one : first ↔ ∀ d ∈ front, P d) (two : second ↔ ∀ d ∈ back, P d) :
    first ∧ second ↔ ∀ d ∈ front ++ back, P d :=
  (and_congr one two).trans List.forall_mem_append.symm

mutual
theorem TypeSpec.every_iff : ∀ spec : TypeSpec δ, spec.Every P ↔ ∀ d ∈ spec.declarations, P d
  | .int => by simp [TypeSpec.Every, TypeSpec.declarations]
  | .bool => by simp [TypeSpec.Every, TypeSpec.declarations]
  | .void => by simp [TypeSpec.Every, TypeSpec.declarations]
  | .array element size => forall_mem_append_of_iff element.every_iff size.every_iff
termination_by structural spec => spec

theorem Declaration.every_iff : ∀ declaration : Declaration δ,
    declaration.Every P ↔ ∀ d ∈ declaration.declarations, P d
  | ⟨_, ty, _⟩ => forall_mem_append_of_iff ty.every_iff (by simp)
termination_by structural declaration => declaration

theorem Node.every_iff : ∀ node : Node δ, node.Every P ↔ ∀ d ∈ node.declarations, P d
  | .int _ => by simp [Node.Every, Node.declarations]
  | .bool _ => by simp [Node.Every, Node.declarations]
  | .var _ => by simp [Node.Every, Node.declarations]
  | .index base position => forall_mem_append_of_iff base.every_iff position.every_iff
  | .arith _ left right => forall_mem_append_of_iff left.every_iff right.every_iff
  | .logic _ left right => forall_mem_append_of_iff left.every_iff right.every_iff
  | .compare _ left right => forall_mem_append_of_iff left.every_iff right.every_iff
  | .not operand => operand.every_iff
  | .assign target value => forall_mem_append_of_iff target.every_iff value.every_iff
  | .call _ args => Node.everyOf_iff args
  | .declare declaration => declaration.every_iff
  | .block body => Node.everyOf_iff body
  | .group body => Node.everyOf_iff body
  | .branch condition yes no =>
    forall_mem_append_of_iff condition.every_iff
      (forall_mem_append_of_iff yes.every_iff (Node.everyIn_iff no))
  | .loop condition body => forall_mem_append_of_iff condition.every_iff body.every_iff
  | .ret value => Node.everyIn_iff value
termination_by structural node => node

theorem Node.everyIn_iff : ∀ node : Option (Node δ),
    Node.EveryIn P node ↔ ∀ d ∈ Node.declarationsIn node, P d
  | none => by simp [Node.EveryIn, Node.declarationsIn]
  | some node => node.every_iff
termination_by structural node => node

theorem Node.everyOf_iff : ∀ nodes : List (Node δ),
    Node.EveryOf P nodes ↔ ∀ d ∈ Node.declarationsOf nodes, P d
  | [] => by simp [Node.EveryOf, Node.declarationsOf]
  | node :: rest => forall_mem_append_of_iff node.every_iff (Node.everyOf_iff rest)
termination_by structural nodes => nodes
end

theorem FunctionDef.every_iff {function : FunctionDef δ} :
    function.Every P ↔ ∀ d ∈ function.evaluated, P d := by
  simp only [FunctionDef.evaluated, List.mem_append, List.mem_flatMap, or_imp, forall_and]
  constructor
  · intro every
    refine ⟨?_, (Node.everyOf_iff function.body).mp every.body⟩
    rintro d ⟨param, listed, member⟩
    exact (Declaration.every_iff param).mp (every.params param listed) d member
  · rintro ⟨params, body⟩
    refine ⟨fun param listed => ?_, (Node.everyOf_iff function.body).mpr body⟩
    exact (Declaration.every_iff param).mpr fun d member => params d ⟨param, listed, member⟩

theorem Program.every_of_declarations {program : Program δ}
    (all : ∀ d ∈ program.declarations, P d) :
    program.Every P := by
  intro function listed
  apply FunctionDef.every_iff.mpr
  intro d member
  exact all d (List.mem_flatMap.mpr ⟨function, listed, List.mem_append_left _ member⟩)

end every

section sublist

theorem sublist_append_of_mem {front back : List (Declaration δ)}
    (one : ∀ d ∈ front, d.declarations.Sublist front)
    (two : ∀ d ∈ back, d.declarations.Sublist back) :
    ∀ d ∈ front ++ back, d.declarations.Sublist (front ++ back) := by
  intro d member
  rcases List.mem_append.mp member with early | late
  · exact (one d early).trans (List.sublist_append_left front back)
  · exact (two d late).trans (List.sublist_append_right front back)

mutual
theorem TypeSpec.declarations_sublist : ∀ spec : TypeSpec δ,
    ∀ d ∈ spec.declarations, d.declarations.Sublist spec.declarations
  | .int => nofun
  | .bool => nofun
  | .void => nofun
  | .array element size =>
    sublist_append_of_mem element.declarations_sublist size.declarations_sublist
termination_by structural spec => spec

theorem Declaration.declarations_sublist : ∀ declaration : Declaration δ,
    ∀ d ∈ declaration.declarations, d.declarations.Sublist declaration.declarations
  | ⟨name, ty, note⟩ => by
    intro d member
    rcases List.mem_append.mp member with inner | itself
    · exact (ty.declarations_sublist d inner).trans (List.sublist_append_left _ _)
    · cases List.mem_singleton.mp itself
      exact List.Sublist.refl _
termination_by structural declaration => declaration

/-- The declarations inside one of the node's declarations stand together with it. -/
theorem Node.declarations_sublist : ∀ node : Node δ,
    ∀ d ∈ node.declarations, d.declarations.Sublist node.declarations
  | .int _ => nofun
  | .bool _ => nofun
  | .var _ => nofun
  | .index base position =>
    sublist_append_of_mem base.declarations_sublist position.declarations_sublist
  | .arith _ left right =>
    sublist_append_of_mem left.declarations_sublist right.declarations_sublist
  | .logic _ left right =>
    sublist_append_of_mem left.declarations_sublist right.declarations_sublist
  | .compare _ left right =>
    sublist_append_of_mem left.declarations_sublist right.declarations_sublist
  | .not operand => operand.declarations_sublist
  | .assign target value =>
    sublist_append_of_mem target.declarations_sublist value.declarations_sublist
  | .call _ args => Node.declarationsOf_sublist args
  | .declare declaration => declaration.declarations_sublist
  | .block body => Node.declarationsOf_sublist body
  | .group body => Node.declarationsOf_sublist body
  | .branch condition yes no =>
    sublist_append_of_mem condition.declarations_sublist
      (sublist_append_of_mem yes.declarations_sublist (Node.declarationsIn_sublist no))
  | .loop condition body =>
    sublist_append_of_mem condition.declarations_sublist body.declarations_sublist
  | .ret value => Node.declarationsIn_sublist value
termination_by structural node => node

theorem Node.declarationsIn_sublist : ∀ node : Option (Node δ),
    ∀ d ∈ Node.declarationsIn node, d.declarations.Sublist (Node.declarationsIn node)
  | none => nofun
  | some node => node.declarations_sublist
termination_by structural node => node

theorem Node.declarationsOf_sublist : ∀ nodes : List (Node δ),
    ∀ d ∈ Node.declarationsOf nodes, d.declarations.Sublist (Node.declarationsOf nodes)
  | [] => nofun
  | node :: rest =>
    sublist_append_of_mem node.declarations_sublist (Node.declarationsOf_sublist rest)
termination_by structural nodes => nodes
end

theorem flatMap_sublist {ρ : Type} {items : List ρ} {declarations : ρ → List (Declaration δ)}
    (each : ∀ item ∈ items, ∀ d ∈ declarations item, d.declarations.Sublist (declarations item)) :
    ∀ d ∈ items.flatMap declarations, d.declarations.Sublist (items.flatMap declarations) := by
  induction items with
  | nil => nofun
  | cons item rest ih =>
    exact sublist_append_of_mem (each item (by simp))
      (ih fun other member => each other (by simp [member]))

theorem FunctionDef.declarations_sublist (function : FunctionDef δ) :
    ∀ d ∈ function.declarations, d.declarations.Sublist function.declarations :=
  sublist_append_of_mem
    (sublist_append_of_mem (flatMap_sublist fun param _ => param.declarations_sublist)
      (Node.declarationsOf_sublist function.body))
    function.returns.declarations_sublist

theorem Program.declarations_sublist (program : Program δ) :
    ∀ d ∈ program.declarations, d.declarations.Sublist program.declarations :=
  flatMap_sublist fun function _ => function.declarations_sublist

/-- The declarations inside a type differ from the one that has the type, if all notes differ. -/
theorem Declaration.ty_every_ne {declaration : Declaration δ}
    (distinct : (declaration.declarations.map (·.note)).Nodup) :
    declaration.ty.Every (·.note ≠ declaration.note) := by
  obtain ⟨name, ty, note⟩ := declaration
  simp only [Declaration.declarations, List.map_append, List.nodup_append] at distinct
  apply ty.every_iff.mpr
  intro d member
  exact distinct.2.2 d.note (List.mem_map_of_mem member) note (by simp)

end sublist

/-! ### Replacing the notes -/

section map

variable (f : δ → ε)

theorem TypeSpec.tag_map : ∀ spec : TypeSpec δ, (spec.map f).tag = spec.tag
  | .int => rfl
  | .bool => rfl
  | .void => rfl
  | .array element _ => congrArg Tag.array element.tag_map
termination_by structural spec => spec

theorem map_append_of_eq {f : Declaration δ → Declaration ε} {front back : List (Declaration δ)}
    {front' back' : List (Declaration ε)} (one : front' = front.map f) (two : back' = back.map f) :
    front' ++ back' = (front ++ back).map f := by
  rw [one, two, List.map_append]

@[simp] theorem Declaration.note_map (declaration : Declaration δ) :
    (declaration.map f).note = f declaration.note := by
  cases declaration
  rfl

@[simp] theorem Declaration.name_map (declaration : Declaration δ) :
    (declaration.map f).name = declaration.name := by
  cases declaration
  rfl

@[simp] theorem Declaration.ty_map (declaration : Declaration δ) :
    (declaration.map f).ty = declaration.ty.map f := by
  cases declaration
  rfl

mutual
theorem TypeSpec.declarations_map : ∀ spec : TypeSpec δ,
    (spec.map f).declarations = spec.declarations.map (Declaration.map f)
  | .int => rfl
  | .bool => rfl
  | .void => rfl
  | .array element size => map_append_of_eq element.declarations_map size.declarations_map
termination_by structural spec => spec

theorem Declaration.declarations_map : ∀ declaration : Declaration δ,
    (declaration.map f).declarations = declaration.declarations.map (Declaration.map f)
  | ⟨_, ty, _⟩ => map_append_of_eq ty.declarations_map rfl
termination_by structural declaration => declaration

theorem Node.declarations_map : ∀ node : Node δ,
    (node.map f).declarations = node.declarations.map (Declaration.map f)
  | .int _ => rfl
  | .bool _ => rfl
  | .var _ => rfl
  | .index base position => map_append_of_eq base.declarations_map position.declarations_map
  | .arith _ left right => map_append_of_eq left.declarations_map right.declarations_map
  | .logic _ left right => map_append_of_eq left.declarations_map right.declarations_map
  | .compare _ left right => map_append_of_eq left.declarations_map right.declarations_map
  | .not operand => operand.declarations_map
  | .assign target value => map_append_of_eq target.declarations_map value.declarations_map
  | .call _ args => Node.declarationsOf_map args
  | .declare declaration => declaration.declarations_map
  | .block body => Node.declarationsOf_map body
  | .group body => Node.declarationsOf_map body
  | .branch condition yes no =>
    map_append_of_eq condition.declarations_map
      (map_append_of_eq yes.declarations_map (Node.declarationsIn_map no))
  | .loop condition body => map_append_of_eq condition.declarations_map body.declarations_map
  | .ret value => Node.declarationsIn_map value
termination_by structural node => node

theorem Node.declarationsIn_map : ∀ node : Option (Node δ),
    Node.declarationsIn (Id.run (Node.traverseOptional (fun note => pure (f note)) node)) =
      (Node.declarationsIn node).map (Declaration.map f)
  | none => rfl
  | some node => node.declarations_map
termination_by structural node => node

theorem Node.declarationsOf_map : ∀ nodes : List (Node δ),
    Node.declarationsOf (Id.run (Node.traverseAll (fun note => pure (f note)) nodes)) =
      (Node.declarationsOf nodes).map (Declaration.map f)
  | [] => rfl
  | node :: rest => map_append_of_eq node.declarations_map (Node.declarationsOf_map rest)
termination_by structural nodes => nodes
end

mutual
theorem TypeSpec.lacks_map {kinds : List Kind} :
    ∀ spec : TypeSpec δ, (spec.map f).Lacks kinds ↔ spec.Lacks kinds
  | .int => Iff.rfl
  | .bool => Iff.rfl
  | .void => Iff.rfl
  | .array element size => and_congr element.lacks_map size.lacks_map
termination_by structural spec => spec

theorem Declaration.lacks_map {kinds : List Kind} : ∀ declaration : Declaration δ,
    (declaration.map f).Lacks kinds ↔ declaration.Lacks kinds
  | ⟨_, ty, _⟩ => ty.lacks_map
termination_by structural declaration => declaration

theorem Node.lacks_map {kinds : List Kind} :
    ∀ node : Node δ, (node.map f).Lacks kinds ↔ node.Lacks kinds
  | .int _ => Iff.rfl
  | .bool _ => Iff.rfl
  | .var _ => Iff.rfl
  | .index base position => and_congr_right' (and_congr base.lacks_map position.lacks_map)
  | .arith _ left right => and_congr_right' (and_congr left.lacks_map right.lacks_map)
  | .logic _ left right => and_congr_right' (and_congr left.lacks_map right.lacks_map)
  | .compare _ left right => and_congr_right' (and_congr left.lacks_map right.lacks_map)
  | .not operand => and_congr_right' operand.lacks_map
  | .assign target value => and_congr_right' (and_congr target.lacks_map value.lacks_map)
  | .call _ args => and_congr_right' (Node.lacksOf_map args)
  | .declare declaration => and_congr_right' declaration.lacks_map
  | .block body => and_congr_right' (Node.lacksOf_map body)
  | .group body => and_congr_right' (Node.lacksOf_map body)
  | .branch condition yes no =>
    and_congr_right' (and_congr condition.lacks_map (and_congr yes.lacks_map (Node.lacksIn_map no)))
  | .loop condition body => and_congr_right' (and_congr condition.lacks_map body.lacks_map)
  | .ret value => and_congr_right' (Node.lacksIn_map value)
termination_by structural node => node

theorem Node.lacksIn_map {kinds : List Kind} : ∀ node : Option (Node δ),
    Node.LacksIn kinds (Id.run (Node.traverseOptional (fun note => pure (f note)) node)) ↔
      Node.LacksIn kinds node
  | none => Iff.rfl
  | some node => node.lacks_map
termination_by structural node => node

theorem Node.lacksOf_map {kinds : List Kind} : ∀ nodes : List (Node δ),
    Node.LacksOf kinds (Id.run (Node.traverseAll (fun note => pure (f note)) nodes)) ↔
      Node.LacksOf kinds nodes
  | [] => Iff.rfl
  | node :: rest => and_congr node.lacks_map (Node.lacksOf_map rest)
termination_by structural nodes => nodes
end

theorem Node.traverseAll_pure (nodes : List (Node δ)) :
    Id.run (Node.traverseAll (fun note => pure (f note)) nodes) = nodes.map (Node.map f) := by
  induction nodes with
  | nil => rfl
  | cons node rest ih => exact congrArg (node.map f :: ·) ih

theorem Node.map_call (name : String) (args : List (Node δ)) :
    (Node.call name args).map f = .call name (args.map (Node.map f)) :=
  congrArg (Node.call name) (Node.traverseAll_pure f args)

theorem Node.map_block (body : List (Node δ)) :
    (Node.block body).map f = .block (body.map (Node.map f)) :=
  congrArg Node.block (Node.traverseAll_pure f body)

theorem Node.map_group (body : List (Node δ)) :
    (Node.group body).map f = .group (body.map (Node.map f)) :=
  congrArg Node.group (Node.traverseAll_pure f body)

theorem FunctionDef.map_eq (function : FunctionDef δ) :
    function.map f = ⟨function.name, function.params.map (Declaration.map f),
      function.body.map (Node.map f), function.returns.map f⟩ := by
  have params :
      Id.run (function.params.mapM fun param => param.traverse fun note => pure (f note)) =
      function.params.map (Declaration.map f) := List.idRun_mapM
  exact congrArg₂ (FunctionDef.mk function.name · · _) params
    (Node.traverseAll_pure f function.body)

theorem Program.map_eq (program : Program δ) :
    program.map f = ⟨program.functions.map (FunctionDef.map f)⟩ :=
  congrArg Program.mk List.idRun_mapM

theorem FunctionDef.evaluated_map (function : FunctionDef δ) :
    (function.map f).evaluated = function.evaluated.map (Declaration.map f) := by
  have params : (function.params.map (Declaration.map f)).flatMap (·.declarations) =
      (function.params.flatMap (·.declarations)).map (Declaration.map f) := by
    simp [List.flatMap_map, List.map_flatMap, Declaration.declarations_map]
  have body := Node.declarationsOf_map f function.body
  rw [Node.traverseAll_pure] at body
  rw [FunctionDef.map_eq]
  exact map_append_of_eq params body

theorem FunctionDef.declarations_map (function : FunctionDef δ) :
    (function.map f).declarations = function.declarations.map (Declaration.map f) := by
  have returns : (function.map f).returns.declarations =
    function.returns.declarations.map (Declaration.map f) := by
    rw [FunctionDef.map_eq]
    exact function.returns.declarations_map f
  exact map_append_of_eq (function.evaluated_map f) returns

theorem FunctionDef.every_map {P : Declaration ε → Prop} {function : FunctionDef δ} :
    (function.map f).Every P ↔ function.Every fun d => P (d.map f) := by
  rw [FunctionDef.every_iff, FunctionDef.every_iff, FunctionDef.evaluated_map, List.forall_mem_map]

theorem Program.every_map {P : Declaration ε → Prop} {program : Program δ} :
    (program.map f).Every P ↔ program.Every fun d => P (d.map f) := by
  rw [Program.map_eq]
  simp only [Program.Every, List.forall_mem_map, FunctionDef.every_map]

theorem Program.declarations_map (program : Program δ) :
    (program.map f).declarations = program.declarations.map (Declaration.map f) := by
  rw [Program.map_eq]
  simp [Program.declarations, List.flatMap_map, List.map_flatMap, FunctionDef.declarations_map]

end map

mutual
theorem TypeSpec.map_id : ∀ spec : TypeSpec δ, spec.map id = spec
  | .int => rfl
  | .bool => rfl
  | .void => rfl
  | .array element size => congrArg₂ TypeSpec.array element.map_id size.map_id
termination_by structural spec => spec

theorem Declaration.map_id : ∀ declaration : Declaration δ, declaration.map id = declaration
  | ⟨name, ty, note⟩ => congrArg (Declaration.mk name · note) ty.map_id
termination_by structural declaration => declaration

theorem Node.map_id : ∀ node : Node δ, node.map id = node
  | .int _ => rfl
  | .bool _ => rfl
  | .var _ => rfl
  | .index base position => congrArg₂ Node.index base.map_id position.map_id
  | .arith op left right => congrArg₂ (Node.arith op) left.map_id right.map_id
  | .logic op left right => congrArg₂ (Node.logic op) left.map_id right.map_id
  | .compare op left right => congrArg₂ (Node.compare op) left.map_id right.map_id
  | .not operand => congrArg Node.not operand.map_id
  | .assign target value => congrArg₂ Node.assign target.map_id value.map_id
  | .call name args => congrArg (Node.call name) (Node.traverseAll_id args)
  | .declare declaration => congrArg Node.declare declaration.map_id
  | .block body => congrArg Node.block (Node.traverseAll_id body)
  | .group body => congrArg Node.group (Node.traverseAll_id body)
  | .branch condition yes no =>
    congr (congrArg₂ Node.branch condition.map_id yes.map_id) (Node.traverseOptional_id no)
  | .loop condition body => congrArg₂ Node.loop condition.map_id body.map_id
  | .ret value => congrArg Node.ret (Node.traverseOptional_id value)
termination_by structural node => node

theorem Node.traverseOptional_id : ∀ node : Option (Node δ),
    Id.run (Node.traverseOptional (fun note => pure (id note)) node) = node
  | none => rfl
  | some node => congrArg some node.map_id
termination_by structural node => node

theorem Node.traverseAll_id : ∀ nodes : List (Node δ),
    Id.run (Node.traverseAll (fun note => pure (id note)) nodes) = nodes
  | [] => rfl
  | node :: rest => congrArg₂ List.cons node.map_id (Node.traverseAll_id rest)
termination_by structural nodes => nodes
end

theorem FunctionDef.map_id (function : FunctionDef δ) : function.map id = function := by
  have params : function.params.map (Declaration.map id) = function.params :=
    List.map_id'' Declaration.map_id function.params
  have body : function.body.map (Node.map id) = function.body :=
    List.map_id'' Node.map_id function.body
  rw [FunctionDef.map_eq, params, body, function.returns.map_id]

theorem Program.map_id (program : Program δ) : program.map id = program := by
  have functions : program.functions.map (FunctionDef.map id) = program.functions :=
    List.map_id'' FunctionDef.map_id program.functions
  rw [Program.map_eq, functions]

/-! ### Notes from a list -/

variable {ρ : Type}

/-- Takes the next of a list of notes in place of the old one. -/
def takeNote (spare : ρ) (_ : ε) : StateM (List ρ) ρ :=
  modifyGet fun
    | [] => (spare, [])
    | note :: rest => (note, rest)

/-- A visit uses up just the new notes of these declarations, and then has the result. -/
def Fills {α : Type} (new : δ → ρ) (visit : StateM (List ρ) α) (declarations : List (Declaration δ))
    (result : α) : Prop :=
  ∀ rest, visit.run (declarations.map (fun d => new d.note) ++ rest) = (result, rest)

section fills

variable {α β : Type} {new : δ → ρ} {visit : StateM (List ρ) α} {declarations others : List (Declaration δ)}
  {result : α}

theorem fills_pure (result : α) : Fills new (pure result) [] result := fun _ => rfl

theorem Fills.bind {next : α → StateM (List ρ) β} {last : β} (fills : Fills new visit declarations result)
    (after : Fills new (next result) others last) :
    Fills new (visit >>= next) (declarations ++ others) last := by
  intro rest
  rw [List.map_append, List.append_assoc, StateT.run_bind, fills]
  exact after rest

theorem Fills.map {f : α → β} (fills : Fills new visit declarations result) :
    Fills new (visit >>= fun found => pure (f found)) declarations (f result) := by
  intro rest
  rw [StateT.run_bind, fills]
  rfl

theorem fills_mapM {ι : Type} {visit : ι → StateM (List ρ) α} {declarations : ι → List (Declaration δ)}
    {result : ι → α} (each : ∀ item, Fills new (visit item) (declarations item) (result item))
    (items : List ι) : Fills new (items.mapM visit) (items.flatMap declarations) (items.map result) := by
  induction items with
  | nil => exact fills_pure []
  | cons item rest ih =>
    rw [List.mapM_cons, List.flatMap_cons, List.map_cons]
    exact (each item).bind ih.map

theorem fills_takeNote {spare : ρ} {old : ε} (declaration : Declaration δ) :
    Fills new (takeNote spare old) [declaration] (new declaration.note) := fun _ => rfl

end fills

section

variable (old : δ → ε) (new : δ → ρ) (spare : ρ)

mutual
theorem TypeSpec.fills : ∀ spec : TypeSpec δ,
    Fills new ((spec.map old).traverse (takeNote spare)) spec.declarations (spec.map new)
  | .int => fills_pure _
  | .bool => fills_pure _
  | .void => fills_pure _
  | .array element size => element.fills.bind size.fills.map
termination_by structural spec => spec

theorem Declaration.fills : ∀ declaration : Declaration δ,
    Fills new ((declaration.map old).traverse (takeNote spare)) declaration.declarations (declaration.map new)
  | ⟨name, ty, note⟩ => ty.fills.bind (fills_takeNote ⟨name, ty, note⟩).map
termination_by structural declaration => declaration

theorem Node.fills : ∀ node : Node δ,
    Fills new ((node.map old).traverse (takeNote spare)) node.declarations (node.map new)
  | .int _ => fills_pure _
  | .bool _ => fills_pure _
  | .var _ => fills_pure _
  | .index base position => base.fills.bind position.fills.map
  | .arith _ left right => left.fills.bind right.fills.map
  | .logic _ left right => left.fills.bind right.fills.map
  | .compare _ left right => left.fills.bind right.fills.map
  | .not operand => operand.fills.map
  | .assign target value => target.fills.bind value.fills.map
  | .call _ args => (Node.fillsOf args).map
  | .declare declaration => declaration.fills.map
  | .block body => (Node.fillsOf body).map
  | .group body => (Node.fillsOf body).map
  | .branch condition yes no => condition.fills.bind (yes.fills.bind (Node.fillsIn no).map)
  | .loop condition body => condition.fills.bind body.fills.map
  | .ret value => (Node.fillsIn value).map
termination_by structural node => node

theorem Node.fillsIn : ∀ node : Option (Node δ),
    Fills new (Node.traverseOptional (takeNote spare)
        (Id.run (Node.traverseOptional (fun note => pure (old note)) node)))
      (Node.declarationsIn node) (Id.run (Node.traverseOptional (fun note => pure (new note)) node))
  | none => fills_pure _
  | some node => node.fills.map
termination_by structural node => node

theorem Node.fillsOf : ∀ nodes : List (Node δ),
    Fills new (Node.traverseAll (takeNote spare)
        (Id.run (Node.traverseAll (fun note => pure (old note)) nodes)))
      (Node.declarationsOf nodes) (Id.run (Node.traverseAll (fun note => pure (new note)) nodes))
  | [] => fills_pure _
  | node :: rest => node.fills.bind (Node.fillsOf rest).map
termination_by structural nodes => nodes
end

theorem FunctionDef.fills (function : FunctionDef δ) :
    Fills new ((function.map old).traverse (takeNote spare)) function.declarations (function.map new) := by
  have params := fills_mapM (Declaration.fills old new spare) function.params
  have body := Node.fillsOf old new spare function.body
  rw [Node.traverseAll_pure, Node.traverseAll_pure] at body
  rw [FunctionDef.map_eq, FunctionDef.map_eq, FunctionDef.declarations, FunctionDef.evaluated,
    List.append_assoc, FunctionDef.traverse, List.mapM_map]
  exact params.bind (body.bind (function.returns.fills old new spare).map)

theorem FunctionDef.fillsAll (functions : List (FunctionDef δ)) :
    Fills new ((functions.map (FunctionDef.map old)).mapM (FunctionDef.traverse (takeNote spare)))
      (functions.flatMap (·.declarations)) (functions.map (FunctionDef.map new)) := by
  rw [List.mapM_map]
  exact fills_mapM (FunctionDef.fills old new spare) functions

end

/-- Functions that only differ in their notes are the same once they have the same notes. -/
theorem FunctionDef.map_eq_of_notes {functions : List (FunctionDef δ)} {others : List (FunctionDef ρ)}
    {first : δ → ε} {second : ρ → ε} (new : δ → ρ) (spare : ρ)
    (shape : functions.map (FunctionDef.map first) = others.map (FunctionDef.map second))
    (notes : (functions.flatMap (·.declarations)).map (fun d => new d.note) =
      (others.flatMap (·.declarations)).map (·.note)) :
    functions.map (FunctionDef.map new) = others := by
  have filled := FunctionDef.fillsAll first new spare functions []
  have again := FunctionDef.fillsAll second id spare others []
  rw [List.map_id'' FunctionDef.map_id] at again
  rw [notes, shape] at filled
  exact congrArg Prod.fst (filled.symm.trans again)

end TreeLang
