import TreeLang.Proofs.Visiting
import TreeLang.Tree.Slot
import Mathlib.Data.List.Nodup

/-! Trees with slots. Placing a tree gives its declarations the next free slots, one each and in
the order of the visit, and looking the slots up again gives the tree that was placed. -/
namespace TreeLang

namespace Resolutions

variable {table mid later final : Resolutions}

/-- The later table has all slots of the earlier one, as they were, and perhaps more. -/
def Extends (later table : Resolutions) : Prop := ∃ more, later.types = table.types ++ more

theorem Extends.refl (table : Resolutions) : table.Extends table := ⟨#[], by simp⟩

theorem Extends.trans (second : later.Extends mid) (first : mid.Extends table) :
    later.Extends table := by
  obtain ⟨more, same⟩ := first
  obtain ⟨others, alike⟩ := second
  exact ⟨more ++ others, by rw [alike, same, Array.append_assoc]⟩

/-- The declarations have got the next slots of the table, in order, and the slots hold what
the declarations carried. -/
structure Lays (table : Resolutions) (given : List (Declaration (Option Ty)))
    (placed : List (Declaration Slot)) (later : Resolutions) : Prop where
  slots : placed.map (·.note) = (List.range' table.types.size given.length).map Slot.mk
  types : later.types = table.types ++ (given.map (·.note)).toArray

theorem Lays.extends {given : List (Declaration (Option Ty))} {placed : List (Declaration Slot)}
    (lays : table.Lays given placed later) : later.Extends table := ⟨_, lays.types⟩

section slots

variable {given : List (Declaration (Option Ty))} {placed : List (Declaration Slot)}
  {d : Declaration Slot}

theorem Lays.distinct (lays : table.Lays given placed later) : (placed.map (·.note)).Nodup := by
  rw [lays.slots]
  apply List.Nodup.map
  · exact fun _ _ same => congrArg Slot.index same
  · exact List.nodup_range'

theorem Lays.bounds (lays : table.Lays given placed later) (member : d ∈ placed) :
    table.types.size ≤ d.note.index ∧ d.note.index < later.types.size := by
  have listed : d.note ∈ placed.map (·.note) := List.mem_map_of_mem member
  rw [lays.slots] at listed
  obtain ⟨index, inRange, same⟩ := List.mem_map.mp listed
  rw [lays.types, ← same]
  simpa using inRange

end slots

theorem lays_nil (table : Resolutions) : table.Lays [] [] table := ⟨rfl, by simp⟩

theorem Lays.append {given given' : List (Declaration (Option Ty))}
    {placed placed' : List (Declaration Slot)}
    (first : table.Lays given placed mid) (second : mid.Lays given' placed' later) :
    table.Lays (given ++ given') (placed ++ placed') later := by
  have size : mid.types.size = table.types.size + given.length := by simp [first.types]
  refine ⟨?_, ?_⟩
  · rw [List.map_append, first.slots, second.slots, size, List.length_append, ← List.map_append,
      List.range'_append_1]
  · rw [second.types, first.types]
    simp

theorem lays_one (table : Resolutions) (given : Declaration (Option Ty)) (placed : Declaration Slot)
    (slot : placed.note = ⟨table.types.size⟩) :
    table.Lays [given] [placed] { types := table.types.push given.note } :=
  ⟨by simp [slot], by simp⟩

end Resolutions

open Resolutions (add)

mutual
theorem TypeSpec.lays : ∀ (spec : TypeSpec (Option Ty)) (table : Resolutions),
    table.Lays spec.declarations ((spec.traverse add).run table).1.declarations
      ((spec.traverse add).run table).2
  | .int, table => table.lays_nil
  | .bool, table => table.lays_nil
  | .void, table => table.lays_nil
  | .array element size, table => (element.lays table).append (size.lays _)
termination_by structural spec => spec

theorem Declaration.lays : ∀ (declaration : Declaration (Option Ty)) (table : Resolutions),
    table.Lays declaration.declarations ((declaration.traverse add).run table).1.declarations
      ((declaration.traverse add).run table).2
  | ⟨_, ty, _⟩, table => (ty.lays table).append (Resolutions.lays_one _ _ _ rfl)
termination_by structural declaration => declaration

theorem Node.lays : ∀ (node : Node (Option Ty)) (table : Resolutions),
    table.Lays node.declarations ((node.traverse add).run table).1.declarations
      ((node.traverse add).run table).2
  | .int _, table => table.lays_nil
  | .bool _, table => table.lays_nil
  | .var _, table => table.lays_nil
  | .index base position, table => (base.lays table).append (position.lays _)
  | .arith _ left right, table => (left.lays table).append (right.lays _)
  | .logic _ left right, table => (left.lays table).append (right.lays _)
  | .compare _ left right, table => (left.lays table).append (right.lays _)
  | .not operand, table => operand.lays table
  | .assign target value, table => (target.lays table).append (value.lays _)
  | .call _ args, table => Node.laysOf args table
  | .declare declaration, table => declaration.lays table
  | .block body, table => Node.laysOf body table
  | .group body, table => Node.laysOf body table
  | .branch condition yes no, table =>
    (condition.lays table).append ((yes.lays _).append (Node.laysIn no _))
  | .loop condition body, table => (condition.lays table).append (body.lays _)
  | .ret value, table => Node.laysIn value table
termination_by structural node => node

theorem Node.laysIn : ∀ (node : Option (Node (Option Ty))) (table : Resolutions),
    table.Lays (Node.declarationsIn node)
      (Node.declarationsIn ((Node.traverseOptional add node).run table).1)
      ((Node.traverseOptional add node).run table).2
  | none, table => table.lays_nil
  | some node, table => node.lays table
termination_by structural node => node

theorem Node.laysOf : ∀ (nodes : List (Node (Option Ty))) (table : Resolutions),
    table.Lays (Node.declarationsOf nodes)
      (Node.declarationsOf ((Node.traverseAll add nodes).run table).1)
      ((Node.traverseAll add nodes).run table).2
  | [], table => table.lays_nil
  | node :: rest, table => (node.lays table).append (Node.laysOf rest _)
termination_by structural nodes => nodes
end

theorem Resolutions.get?_of_extends {table final : Resolutions} {note : Option Ty}
    (later : final.Extends { types := table.types.push note }) :
    final.get? ⟨table.types.size⟩ = note := by
  obtain ⟨more, same⟩ := later
  simp [Resolutions.get?, same, Array.getD_eq_getD_getElem?, Array.getElem?_append]

mutual
theorem TypeSpec.map_get?_place : ∀ (spec : TypeSpec (Option Ty)) {table final : Resolutions},
    final.Extends ((spec.traverse add).run table).2 →
      ((spec.traverse add).run table).1.map final.get? = spec
  | .int, _, _, _ => rfl
  | .bool, _, _, _ => rfl
  | .void, _, _, _ => rfl
  | .array element size, _, _, later =>
    congrArg₂ TypeSpec.array (element.map_get?_place (later.trans (size.lays _).extends))
      (size.map_get?_place later)
termination_by structural spec => spec

theorem Declaration.map_get?_place :
    ∀ (declaration : Declaration (Option Ty)) {table final : Resolutions},
    final.Extends ((declaration.traverse add).run table).2 →
      ((declaration.traverse add).run table).1.map final.get? = declaration
  | ⟨name, ty, note⟩, _, _, later =>
    congrArg₂ (Declaration.mk name)
      (ty.map_get?_place
        (later.trans (Resolutions.lays_one _ ⟨name, ty, note⟩ ⟨name, .int, _⟩ rfl).extends))
      (Resolutions.get?_of_extends later)
termination_by structural declaration => declaration

/-- Looking up the slots of a placed node gives the node back, also when more has been placed. -/
theorem Node.map_get?_place : ∀ (node : Node (Option Ty)) {table final : Resolutions},
    final.Extends ((node.traverse add).run table).2 →
      ((node.traverse add).run table).1.map final.get? = node
  | .int _, _, _, _ => rfl
  | .bool _, _, _, _ => rfl
  | .var _, _, _, _ => rfl
  | .index base position, _, _, later =>
    congrArg₂ Node.index (base.map_get?_place (later.trans (position.lays _).extends))
      (position.map_get?_place later)
  | .arith op left right, _, _, later =>
    congrArg₂ (Node.arith op) (left.map_get?_place (later.trans (right.lays _).extends))
      (right.map_get?_place later)
  | .logic op left right, _, _, later =>
    congrArg₂ (Node.logic op) (left.map_get?_place (later.trans (right.lays _).extends))
      (right.map_get?_place later)
  | .compare op left right, _, _, later =>
    congrArg₂ (Node.compare op) (left.map_get?_place (later.trans (right.lays _).extends))
      (right.map_get?_place later)
  | .not operand, _, _, later => congrArg Node.not (operand.map_get?_place later)
  | .assign target value, _, _, later =>
    congrArg₂ Node.assign (target.map_get?_place (later.trans (value.lays _).extends))
      (value.map_get?_place later)
  | .call name args, _, _, later => congrArg (Node.call name) (Node.map_get?_placeOf args later)
  | .declare declaration, _, _, later => congrArg Node.declare (declaration.map_get?_place later)
  | .block body, _, _, later => congrArg Node.block (Node.map_get?_placeOf body later)
  | .group body, _, _, later => congrArg Node.group (Node.map_get?_placeOf body later)
  | .branch condition yes no, _, _, later => by
    have chosen := later.trans (Node.laysIn no _).extends
    exact congr
      (congrArg₂ Node.branch (condition.map_get?_place (chosen.trans (yes.lays _).extends))
      (yes.map_get?_place chosen)) (Node.map_get?_placeIn no later)
  | .loop condition body, _, _, later =>
    congrArg₂ Node.loop (condition.map_get?_place (later.trans (body.lays _).extends))
      (body.map_get?_place later)
  | .ret value, _, _, later => congrArg Node.ret (Node.map_get?_placeIn value later)
termination_by structural node => node

theorem Node.map_get?_placeIn : ∀ (node : Option (Node (Option Ty))) {table final : Resolutions},
    final.Extends ((Node.traverseOptional add node).run table).2 →
      Id.run (Node.traverseOptional (fun slot => pure (final.get? slot))
        ((Node.traverseOptional add node).run table).1) = node
  | none, _, _, _ => rfl
  | some node, _, _, later => congrArg some (node.map_get?_place later)
termination_by structural node => node

theorem Node.map_get?_placeOf : ∀ (nodes : List (Node (Option Ty))) {table final : Resolutions},
    final.Extends ((Node.traverseAll add nodes).run table).2 →
      Id.run
        (Node.traverseAll (fun slot => pure (final.get? slot))
          ((Node.traverseAll add nodes).run table).1) = nodes
  | [], _, _, _ => rfl
  | node :: rest, _, _, later =>
    congrArg₂ List.cons (node.map_get?_place (later.trans (Node.laysOf rest _).extends))
      (Node.map_get?_placeOf rest later)
termination_by structural nodes => nodes
end

/-! ### Functions and programs -/

/-- Things placed one after the other, if each is placed in the same manner. -/
theorem Resolutions.lays_mapM {ρ σ : Type} {given : ρ → List (Declaration (Option Ty))}
    {placed : σ → List (Declaration Slot)} {place : ρ → StateM Resolutions σ}
    (each : ∀ item (table : Resolutions),
      table.Lays (given item) (placed ((place item).run table).1) ((place item).run table).2)
    (items : List ρ) (table : Resolutions) :
    table.Lays (items.flatMap given) (((items.mapM place).run table).1.flatMap placed)
      ((items.mapM place).run table).2 := by
  induction items generalizing table with
  | nil => exact table.lays_nil
  | cons item rest ih =>
    simp only [List.mapM_cons, List.flatMap_cons]
    exact (each item table).append (ih _)

theorem FunctionDef.lays (function : FunctionDef (Option Ty)) (table : Resolutions) :
    table.Lays function.declarations ((function.traverse add).run table).1.declarations
      ((function.traverse add).run table).2 :=
  ((Resolutions.lays_mapM Declaration.lays function.params table).append
    (Node.laysOf function.body _)).append
    (function.returns.lays _)

theorem Program.lays (program : Program (Option Ty)) (table : Resolutions) :
    table.Lays program.declarations (table.placeProgram program).1.declarations
      (table.placeProgram program).2 :=
  Resolutions.lays_mapM FunctionDef.lays program.functions table

theorem Resolutions.map_get?_mapM {ρ σ : Type} {place : ρ → StateM Resolutions σ} {back : σ → ρ}
    {final : Resolutions} (grows : ∀ (items : List ρ) (table : Resolutions),
      ((items.mapM place).run table).2.Extends table)
    (each : ∀ item {table : Resolutions}, final.Extends ((place item).run table).2 →
      back ((place item).run table).1 = item)
    (items : List ρ) {table : Resolutions}
    (later : final.Extends ((items.mapM place).run table).2) :
    ((items.mapM place).run table).1.map back = items := by
  induction items generalizing table with
  | nil => rfl
  | cons item rest ih =>
    simp only [List.mapM_cons] at later ⊢
    exact congrArg₂ List.cons (each item (later.trans (grows rest _))) (ih later)

theorem FunctionDef.map_get?_place (function : FunctionDef (Option Ty)) {table final : Resolutions}
    (later : final.Extends ((function.traverse add).run table).2) :
    ((function.traverse add).run table).1.map final.get? = function := by
  rw [FunctionDef.map_eq]
  have inner := later.trans (function.returns.lays _).extends
  have params := Resolutions.map_get?_mapM
    (fun items table => (Resolutions.lays_mapM Declaration.lays items table).extends)
    (fun param _ later => param.map_get?_place later) function.params
      (inner.trans (Node.laysOf function.body _).extends)
  have body := Node.map_get?_placeOf function.body inner
  rw [Node.traverseAll_pure] at body
  have returns := function.returns.map_get?_place later
  exact congr (congrArg₂ (FunctionDef.mk function.name) params body) returns

theorem Program.map_get?_place (program : Program (Option Ty)) {table final : Resolutions}
    (later : final.Extends (table.placeProgram program).2) :
    (table.placeProgram program).1.map final.get? = program := by
  rw [Program.map_eq]
  exact congrArg Program.mk (Resolutions.map_get?_mapM
    (fun items table => (Resolutions.lays_mapM FunctionDef.lays items table).extends)
    (fun function _ later => function.map_get?_place later) program.functions later)

/-- What the new slots hold is what the declarations carried. -/
theorem Node.declarations_place (node : Node (Option Ty)) (table : Resolutions) :
    (table.placeNode node).1.declarations.map (Declaration.map (table.placeNode node).2.get?) =
      node.declarations := by
  have back : (table.placeNode node).1.map (table.placeNode node).2.get? = node :=
    node.map_get?_place (.refl _)
  rw [← Node.declarations_map, back]

theorem Program.declarations_place (program : Program (Option Ty)) (table : Resolutions) :
    (table.placeProgram program).1.declarations.map
      (Declaration.map (table.placeProgram program).2.get?) =
      program.declarations := by
  have back := program.map_get?_place (.refl (table.placeProgram program).2)
  rw [← Program.declarations_map, back]

end TreeLang
