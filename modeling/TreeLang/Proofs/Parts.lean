import TreeLang.Eval

/-! The parts of a node are the nodes that its rule may evaluate, the lengths of a declared type
included. What a rule does depends on the answers for the parts only, unless a function is
called. The height of a node bounds how deep its parts are nested. -/
namespace TreeLang

variable {δ : Type}

/-- The lengths of a declared type, the outermost first. -/
def TypeSpec.lengths : TypeSpec δ → List (Node δ)
  | .int => []
  | .bool => []
  | .void => []
  | .array element size => size :: element.lengths
termination_by structural spec => spec

def Node.parts : Node δ → List (Node δ)
  | .int _ | .bool _ | .var _ => []
  | .index base position => [base, position]
  | .arith _ left right | .logic _ left right | .compare _ left right => [left, right]
  | .not operand => [operand]
  | .assign target value => [target, value]
  | .call _ args => args
  | .declare declaration => declaration.ty.lengths
  | .block body | .group body => body
  | .branch condition yes no => condition :: yes :: no.toList
  | .loop condition body => [condition, body]
  | .ret value => value.toList

/-! ### Kinds that do not occur -/

mutual
def TypeSpec.Lacks (kinds : List Kind) : TypeSpec δ → Prop
  | .int => True
  | .bool => True
  | .void => True
  | .array element size => element.Lacks kinds ∧ size.Lacks kinds
termination_by structural spec => spec

def Declaration.Lacks (kinds : List Kind) : Declaration δ → Prop
  | ⟨_, ty, _⟩ => ty.Lacks kinds
termination_by structural declaration => declaration

/-- No node of these kinds is in the node, nor is it such a node itself. -/
def Node.Lacks (kinds : List Kind) (node : Node δ) : Prop :=
  node.kind ∉ kinds ∧ match node with
    | .int _ => True
    | .bool _ => True
    | .var _ => True
    | .index base position => base.Lacks kinds ∧ position.Lacks kinds
    | .arith _ left right => left.Lacks kinds ∧ right.Lacks kinds
    | .logic _ left right => left.Lacks kinds ∧ right.Lacks kinds
    | .compare _ left right => left.Lacks kinds ∧ right.Lacks kinds
    | .not operand => operand.Lacks kinds
    | .assign target value => target.Lacks kinds ∧ value.Lacks kinds
    | .call _ args => Node.LacksOf kinds args
    | .declare declaration => declaration.Lacks kinds
    | .block body => Node.LacksOf kinds body
    | .group body => Node.LacksOf kinds body
    | .branch condition yes no => condition.Lacks kinds ∧ yes.Lacks kinds ∧ Node.LacksIn kinds no
    | .loop condition body => condition.Lacks kinds ∧ body.Lacks kinds
    | .ret value => Node.LacksIn kinds value
termination_by structural node

def Node.LacksIn (kinds : List Kind) : Option (Node δ) → Prop
  | none => True
  | some node => node.Lacks kinds
termination_by structural node => node

def Node.LacksOf (kinds : List Kind) : List (Node δ) → Prop
  | [] => True
  | node :: rest => node.Lacks kinds ∧ Node.LacksOf kinds rest
termination_by structural nodes => nodes
end

section lacks

variable {kinds : List Kind} {node part : Node δ}

theorem Node.LacksOf.of_mem {nodes : List (Node δ)} (lacks : Node.LacksOf kinds nodes)
    (member : node ∈ nodes) : node.Lacks kinds := by
  induction nodes with
  | nil => contradiction
  | cons first rest ih =>
    rcases List.mem_cons.mp member with rfl | member
    · exact lacks.1
    · exact ih lacks.2 member

theorem Node.LacksIn.of_mem {optional : Option (Node δ)} (lacks : Node.LacksIn kinds optional)
    (member : node ∈ optional.toList) : node.Lacks kinds := by
  cases optional with
  | none => contradiction
  | some inner =>
    cases List.mem_singleton.mp member
    exact lacks

theorem TypeSpec.Lacks.of_length : ∀ {spec : TypeSpec δ}, spec.Lacks kinds → node ∈ spec.lengths →
    node.Lacks kinds
  | .array _ _, lacks, member => by
    rcases List.mem_cons.mp member with rfl | member
    · exact lacks.2
    · exact TypeSpec.Lacks.of_length lacks.1 member
termination_by structural spec => spec

theorem Declaration.lacks_iff {declaration : Declaration δ} :
    declaration.Lacks kinds ↔ declaration.ty.Lacks kinds := by
  cases declaration
  exact Iff.rfl

theorem Node.Lacks.kind (lacks : node.Lacks kinds) : node.kind ∉ kinds := by
  cases node <;> exact lacks.1

theorem Node.Lacks.of_part (lacks : node.Lacks kinds) (member : part ∈ node.parts) :
    part.Lacks kinds := by
  have two {first second : Node δ} (both : first.Lacks kinds ∧ second.Lacks kinds)
      (member : part ∈ [first, second]) : part.Lacks kinds := by
    have listed : Node.LacksOf kinds [first, second] := ⟨both.1, both.2, trivial⟩
    exact listed.of_mem member
  cases node with
  | int value => contradiction
  | bool value => contradiction
  | var name => contradiction
  | index base position => exact two lacks.2 member
  | arith op left right => exact two lacks.2 member
  | logic op left right => exact two lacks.2 member
  | compare op left right => exact two lacks.2 member
  | not operand =>
    cases List.mem_singleton.mp member
    exact lacks.2
  | assign target value => exact two lacks.2 member
  | call name args => exact Node.LacksOf.of_mem lacks.2 member
  | declare declaration => exact (Declaration.lacks_iff.mp lacks.2).of_length member
  | block body => exact Node.LacksOf.of_mem lacks.2 member
  | group body => exact Node.LacksOf.of_mem lacks.2 member
  | branch condition yes no =>
    rcases List.mem_cons.mp member with rfl | member
    · exact lacks.2.1
    rcases List.mem_cons.mp member with rfl | member
    · exact lacks.2.2.1
    · exact Node.LacksIn.of_mem lacks.2.2.2 member
  | loop condition body => exact two lacks.2 member
  | ret value => exact Node.LacksIn.of_mem lacks.2 member

end lacks

/-! ### Height -/

mutual
def TypeSpec.height : TypeSpec δ → Nat
  | .int => 0
  | .bool => 0
  | .void => 0
  | .array element size => max element.height size.height
termination_by structural spec => spec

def Declaration.height : Declaration δ → Nat
  | ⟨_, ty, _⟩ => ty.height
termination_by structural declaration => declaration

/-- How many nodes stand one inside the other at most, the node itself counted. -/
def Node.height (node : Node δ) : Nat :=
  1 + match node with
    | .int _ => 0
    | .bool _ => 0
    | .var _ => 0
    | .index base position => max base.height position.height
    | .arith _ left right => max left.height right.height
    | .logic _ left right => max left.height right.height
    | .compare _ left right => max left.height right.height
    | .not operand => operand.height
    | .assign target value => max target.height value.height
    | .call _ args => Node.heightOf args
    | .declare declaration => declaration.height
    | .block body => Node.heightOf body
    | .group body => Node.heightOf body
    | .branch condition yes no => max condition.height (max yes.height (Node.heightIn no))
    | .loop condition body => max condition.height body.height
    | .ret value => Node.heightIn value
termination_by structural node

def Node.heightIn : Option (Node δ) → Nat
  | none => 0
  | some node => node.height
termination_by structural node => node

def Node.heightOf : List (Node δ) → Nat
  | [] => 0
  | node :: rest => max node.height (Node.heightOf rest)
termination_by structural nodes => nodes
end

section height

variable {node part : Node δ}

theorem Node.height_pos (node : Node δ) : 0 < node.height := by
  cases node <;> exact Nat.lt_one_add_iff.mpr (Nat.zero_le _)

theorem Node.height_le_heightOf {nodes : List (Node δ)} (member : node ∈ nodes) :
    node.height ≤ Node.heightOf nodes := by
  induction nodes with
  | nil => contradiction
  | cons first rest ih =>
    rcases List.mem_cons.mp member with rfl | member
    · exact Nat.le_max_left _ _
    · exact Nat.le_trans (ih member) (Nat.le_max_right _ _)

theorem Node.height_le_heightIn {optional : Option (Node δ)} (member : node ∈ optional.toList) :
    node.height ≤ Node.heightIn optional := by
  cases optional with
  | none => contradiction
  | some inner =>
    cases List.mem_singleton.mp member
    exact Nat.le_refl _

theorem TypeSpec.height_length_le :
    ∀ {spec : TypeSpec δ}, node ∈ spec.lengths → node.height ≤ spec.height
  | .array _ _, member => by
    rcases List.mem_cons.mp member with rfl | member
    · exact Nat.le_max_right _ _
    · exact Nat.le_trans (TypeSpec.height_length_le member) (Nat.le_max_left _ _)
termination_by structural spec => spec

theorem Declaration.height_eq (declaration : Declaration δ) :
    declaration.height = declaration.ty.height := by
  cases declaration
  rfl

theorem Node.height_part_lt (member : part ∈ node.parts) : part.height < node.height := by
  have two {first second : Node δ} (member : part ∈ [first, second]) :
      part.height < 1 + max first.height second.height := by
    have bound : part.height ≤ max first.height (max second.height 0) :=
      Node.height_le_heightOf member
    omega
  cases node with
  | int value => contradiction
  | bool value => contradiction
  | var name => contradiction
  | index base position => exact two member
  | arith op left right => exact two member
  | logic op left right => exact two member
  | compare op left right => exact two member
  | not operand =>
    cases List.mem_singleton.mp member
    exact Nat.lt_one_add_iff.mpr (Nat.le_refl _)
  | assign target value => exact two member
  | call name args => exact Nat.lt_one_add_iff.mpr (Node.height_le_heightOf member)
  | declare declaration =>
    have bound := TypeSpec.height_length_le member
    rw [← Declaration.height_eq] at bound
    exact Nat.lt_one_add_iff.mpr bound
  | block body => exact Nat.lt_one_add_iff.mpr (Node.height_le_heightOf member)
  | group body => exact Nat.lt_one_add_iff.mpr (Node.height_le_heightOf member)
  | branch condition yes no =>
    simp only [Node.height]
    rcases List.mem_cons.mp member with rfl | member
    · omega
    rcases List.mem_cons.mp member with rfl | member
    · omega
    · have bound := Node.height_le_heightIn member
      omega
  | loop condition body => exact two member
  | ret value => exact Nat.lt_one_add_iff.mpr (Node.height_le_heightIn member)

end height

/-! ### What a rule consults -/

namespace Eval

variable {below below' : Evaluator} {node : Node Slot}

theorem value_congr (same : below node = below' node) : value below node = value below' node := by
  simp only [value, same]

theorem int_congr (same : below node = below' node) : int below node = int below' node := by
  simp only [int, value_congr same]

theorem truth_congr (same : below node = below' node) : truth below node = truth below' node := by
  simp only [truth, value_congr same]

theorem statement_congr (same : below node = below' node) :
    statement below node = statement below' node := by
  simp only [statement, same]

theorem statements_congr {body : List (Node Slot)}
    (same : ∀ node ∈ body, below node = below' node) :
    statements below body = statements below' body := by
  induction body with
  | nil => rfl
  | cons node rest ih =>
    rw [statements, statements, statement_congr (same node (by simp)),
      ih fun other member => same other (by simp [member])]

theorem loop_congr {condition body : Node Slot} (test : below condition = below' condition)
    (same : below body = below' body) (turns : Nat) :
    loop below condition body turns = loop below' condition body turns := by
  induction turns with
  | zero => rfl
  | succ turns ih => rw [loop, loop, truth_congr test, statement_congr same, ih]

theorem resolve_congr :
    ∀ {spec : TypeSpec Slot}, (∀ size ∈ spec.lengths, below size = below' size) →
    resolve below spec = resolve below' spec
  | .int, _ => rfl
  | .bool, _ => rfl
  | .void, _ => rfl
  | .array element size, same => by
    have inner : resolve below element = resolve below' element :=
      resolve_congr fun other member => same other (List.mem_cons_of_mem _ member)
    rw [resolve, resolve, int_congr (same size List.mem_cons_self), inner]
termination_by structural spec => spec

theorem declare_congr {declaration : Declaration Slot}
    (same : ∀ size ∈ declaration.ty.lengths, below size = below' size) :
    declare below declaration = declare below' declaration := by
  simp only [declare, typeOf, resolve_congr same]

/-- A rule asks for nothing but the parts, unless it is that of a call. Only calls depend on the
functions there are and on how deep they may nest. -/
theorem step_congr {context context' : Context} {turns : Nat} (own : node.kind ≠ .call)
    (same : ∀ part ∈ node.parts, below part = below' part) :
    step below context turns node = step below' context' turns node := by
  cases node with
  | int value => rfl
  | bool value => rfl
  | var name => rfl
  | index base position =>
    have first := same base (by simp [Node.parts])
    have second := same position (by simp [Node.parts])
    simp only [step, value_congr first, int_congr second]
  | arith op left right =>
    have first := same left (by simp [Node.parts])
    have second := same right (by simp [Node.parts])
    simp only [step, int_congr first, int_congr second]
  | logic op left right =>
    have first := same left (by simp [Node.parts])
    have second := same right (by simp [Node.parts])
    simp only [step, truth_congr first, truth_congr second]
  | compare op left right =>
    have first := same left (by simp [Node.parts])
    have second := same right (by simp [Node.parts])
    simp only [step, int_congr first, int_congr second]
  | not operand => simp only [step, truth_congr (same operand (by simp [Node.parts]))]
  | assign target source =>
    have first := same target (by simp [Node.parts])
    have second := same source (by simp [Node.parts])
    simp only [step, value_congr first, value_congr second]
  | call name args => exact absurd rfl own
  | declare declaration => simp only [step, declare_congr same]
  | block body =>
    have inside : statements below body = statements below' body := statements_congr same
    simp only [step, inside]
  | group body => exact statements_congr same
  | branch condition yes no =>
    have test := same condition (by simp [Node.parts])
    have first := same yes (by simp [Node.parts])
    cases no with
    | none => simp only [step, truth_congr test, statement_congr first]
    | some no =>
      have second := same no (by simp [Node.parts])
      simp only [step, truth_congr test, statement_congr first, statement_congr second]
  | loop condition body =>
    exact loop_congr (same condition (by simp [Node.parts]))
      (same body (by simp [Node.parts])) turns
  | ret value =>
    cases value with
    | none => rfl
    | some result => simp only [step, value_congr (same result (by simp [Node.parts]))]

end Eval

/-- Where nothing is called, it does not matter which functions there are. -/
theorem eval_of_lacks_call {context context' : Context} {kinds : List Kind} {node : Node Slot}
    {fuel : Nat} (call : .call ∈ kinds) (lacks : node.Lacks kinds) :
    eval context fuel node = eval context' fuel node := by
  induction fuel generalizing node with
  | zero => rfl
  | succ fuel ih =>
    have own : node.kind ≠ .call := fun same => lacks.kind (same ▸ call)
    exact Eval.step_congr own fun part member => ih (lacks.of_part member)

end TreeLang
