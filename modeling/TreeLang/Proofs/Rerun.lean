import TreeLang.Proofs.SideBySide
import TreeLang.Proofs.StaticTags

/-! A tree can be run again. A first run leaves the types it has settled in the tree, and a second
one finds them there where the first had to evaluate lengths. If no length calls a function or
assigns to a cell, a length that has a value leaves no trace, so that nothing else tells the two
runs apart; and where a length fails no type is settled, so that it fails again. -/
namespace TreeLang

/-! ### Cells above others -/

/-- The cells of a heap are put above those of a base, which nothing refers to. -/
def Renaming.above (base : Heap) : Renaming where
  ref place := ⟨base.size + place.index⟩
  slot := id
  heap h :=
    { cells := base.cells ++ h.cells.map (Cell.rename fun place => ⟨base.size + place.index⟩) }
  get h place := by
    by_cases inside : place.index < h.cells.size
    · simp [Heap.get, Heap.size, Array.getD_eq_getD_getElem?, inside]
    · simp [Heap.get, Heap.size, Array.getD_eq_getD_getElem?, inside, Cell.rename]
  put h place cell := by
    simp [Heap.put, Heap.size, Array.setIfInBounds_append_right, Array.map_setIfInBounds]
  push h cell := by simp [Heap.push, Heap.size]

/-! ### Lengths that leave no trace -/

namespace Exec

variable {α β : Type}

/-- Where the action succeeds the state is as before. -/
def Idle (action : Exec α) : Prop := ∀ s value t, action s = .ok value t → t = s

theorem idle_pure (value : α) : (pure value : Exec α).Idle := by
  intro s result t outcome
  cases outcome
  rfl

theorem idle_fail (failure : Failure) : (fail failure : Exec α).Idle := nofun

theorem idle_reading (query : State → Except Failure α) : (reading query).Idle := by
  intro s value t outcome
  exact (Twin.ok_of_reading outcome).2

theorem Idle.bind {first : Exec α} {next : α → Exec β} (idle : first.Idle)
    (after : ∀ value, (next value).Idle) :
    (first >>= next).Idle := by
  intro s result u outcome
  obtain ⟨value, t, ended, outcome⟩ := ok_of_bind outcome
  rw [after value t result u outcome, idle s value t ended]

theorem Idle.bindEnds {first : Exec α} {next : α → Exec β} {s : State} {post : β → State → Prop}
    (idle : first.Idle) (after : ∀ value, (next value).Ends s post fun _ => True) :
    (first >>= next).Ends s post fun _ => True := by
  have unchanged : first.Ends s (fun _ t => t = s) fun _ => True := by
    unfold Ends
    cases outcome : first s with
    | ok value t => exact idle s value t outcome
    | error failure t => trivial
    | outOfFuel => trivial
  refine unchanged.bind fun value t same => ?_
  rw [same]
  exact after value

end Exec

namespace Eval

open Exec

variable {context : Context} {fuel : Nat} {node : Node Slot} {s : State}

/-- The node has done nothing but leave something on the stack. -/
def OnlyPushes (s : State) (_ : Flow) (t : State) : Prop := { t with stack := s.stack } = s

theorem produce_onlyPushes (value : Value) : (produce value).Ends s (OnlyPushes s) fun _ => True :=
  rfl

theorem int_idle {below : Evaluator} (idle : (value below node).Idle) : (int below node).Idle :=
  idle.bind fun _ => idle_reading _

theorem truth_idle {below : Evaluator} (idle : (value below node).Idle) : (truth below node).Idle :=
  idle.bind fun _ => idle_reading _

theorem step_onlyPushes {below : Evaluator} (turns : Nat)
    (expression : node.leavesValue? = some true)
    (unassigned : node.kind ≠ .assign) (parts : ∀ part ∈ node.parts, (value below part).Idle) :
    (step below context turns node).Ends s (OnlyPushes s) fun _ => True := by
  cases node with
  | int n => exact produce_onlyPushes _
  | bool b => exact produce_onlyPushes _
  | var name => exact (idle_reading _).bindEnds fun place => produce_onlyPushes _
  | index base position =>
    refine (parts base (by simp [Node.parts])).bindEnds fun value => ?_
    refine (idle_reading _).bindEnds fun array => ?_
    refine (int_idle (parts position (by simp [Node.parts]))).bindEnds fun n => ?_
    exact (idle_reading _).bindEnds fun place => produce_onlyPushes _
  | arith op left right =>
    refine (int_idle (parts left (by simp [Node.parts]))).bindEnds fun l => ?_
    refine (int_idle (parts right (by simp [Node.parts]))).bindEnds fun r => ?_
    cases op.result? l r with
    | some n => exact produce_onlyPushes _
    | none => exact ends_fail trivial
  | logic op left right =>
    refine (truth_idle (parts left (by simp [Node.parts]))).bindEnds fun l => ?_
    cases op.decided? l with
    | some b => exact produce_onlyPushes _
    | none =>
      exact (truth_idle (parts right (by simp [Node.parts]))).bindEnds fun r => produce_onlyPushes _
  | compare op left right =>
    refine (int_idle (parts left (by simp [Node.parts]))).bindEnds fun l => ?_
    exact (int_idle (parts right (by simp [Node.parts]))).bindEnds fun r => produce_onlyPushes _
  | not operand =>
    exact (truth_idle (parts operand (by simp [Node.parts]))).bindEnds fun b => produce_onlyPushes _
  | assign target source => exact absurd rfl unassigned
  | call name args =>
    simp only [Node.leavesValue?] at expression
    split at expression <;> contradiction
  | declare declaration => cases expression
  | block body => cases expression
  | group body => cases expression
  | branch condition yes no => cases expression
  | loop condition body => cases expression
  | ret value => cases expression

/-- A `return` does not complete. -/
theorem step_ret_ends {below : Evaluator} (turns : Nat) (result : Option (Node Slot)) :
    (step below context turns (.ret result)).Ends s (fun flow _ => flow ≠ .completed)
      fun _ => True := by
  cases result with
  | none => exact ends_pure nofun
  | some node => exact Ends.bind (ends_anyhow _ s) fun _ _ _ => ends_pure nofun

/-- An expression that neither calls nor assigns leaves its value and no other trace. -/
theorem value_idle (context : Context) (fuel : Nat) {node : Node Slot}
    (lacks : node.Lacks [.call, .assign]) :
    (value (eval context fuel) node).Idle := by
  induction fuel generalizing node with
  | zero => nofun
  | succ fuel ih =>
    intro s result t outcome
    have every : node.Every Law.bare.declared := node.every_of_forall fun _ => trivial
    have sound := Law.bare_sound context (fuel + 1)
    obtain ⟨u, completed, top, rfl⟩ := Law.value_ok sound every trivial outcome
    obtain ⟨left, leaves, count⟩ := (sound node s every trivial).ok_of_eq completed
    have kind := lacks.kind
    simp only [List.mem_cons, List.not_mem_nil, or_false, not_or] at kind
    cases expression : node.leavesValue? with
    | some leavesValue =>
      cases leavesValue with
      | true =>
        have ends :
            (step (eval context fuel) context fuel node).Ends s (OnlyPushes s) fun _ => True :=
          step_onlyPushes fuel expression kind.2 fun part member => ih (lacks.of_part member)
        exact ends.ok_of_eq completed
      | false =>
        -- A statement leaves no value at all.
        have none := count false expression
        rw [leaves.stack] at top
        rw [withResult_eq_push top.symm] at none
        contradiction
    | none =>
      cases node with
      | call name args => exact absurd rfl kind.1
      | ret result => exact absurd rfl ((step_ret_ends fuel result).ok_of_eq completed)
      | _ => contradiction

theorem resolve_idle (context : Context) (fuel : Nat) :
    ∀ {spec : TypeSpec Slot}, spec.Lacks [.call, .assign] →
    (resolve (eval context fuel) spec).Idle
  | .int, _ => idle_pure _
  | .bool, _ => idle_pure _
  | .void, _ => idle_pure _
  | .array element size, lacks => by
    refine (int_idle (value_idle context fuel lacks.2)).bind fun n => ?_
    split
    · exact (resolve_idle context fuel lacks.1).bind fun ty => idle_pure _
    · exact idle_fail _
termination_by structural spec => spec

/-- While such a type is worked out, the declarations that are met are those inside its lengths. -/
theorem resolve_unsettled {slot : Slot} {spec : TypeSpec Slot} (lacks : spec.Lacks [.call, .assign])
    (apart : spec.Every (·.note ≠ slot)) (unsettled : s.resolved.get? slot = none) :
    (resolve (eval context fuel) spec).EndsIn s fun t => t.resolved.get? slot = none := by
  let law : Law := Law.table (·.get? slot = none) (·.note ≠ slot) fun unsettled away _ _ =>
    (Resolutions.get?_settle_of_ne away.symm).trans unsettled
  -- Where nothing is called the functions do not matter, and there may be none.
  have alone : resolve (eval context fuel) spec = resolve (eval {} fuel) spec :=
    resolve_congr fun size member => eval_of_lacks_call (by simp) (lacks.of_length member)
  have sound : law.Sound (eval {} fuel) :=
    Law.eval_sound (fun _ listed => absurd listed List.not_mem_nil) fuel
  rw [alone]
  have yields := Law.resolve_yields sound spec apart unsettled
  exact Ends.mono yields (fun _ _ ended => ended.1.inv) fun _ level => level.inv

end Eval

/-! ### The second run -/

/-- The second run starts with the types that the first has left, and has its cells above others. -/
def Twin.rerun (base : Heap) (left : Resolutions) : Twin where
  names := .above base
  alike v w := w.resolved = left ∧ w.console = v.console
  later v w := v.resolved.Kept w.resolved
  fine v := v.resolved.Kept left
  final _ v := v.resolved = left
  refl _ := .refl _
  trans first second := first.trans second
  fine_of_later later fine := later.trans fine
  fine_of_final final := final ▸ .refl _
  later_print _ _ := .refl _
  later_read _ := .refl _
  prints line alike := ⟨alike.1, congrArg (Console.writeLine · line) alike.2⟩
  reads read _ alike := ⟨_, (congrArg Console.readToken alike.2).trans read, alike.1, rfl⟩
  readFails read _ alike := ⟨_, (congrArg Console.readToken alike.2).trans read, alike.1, rfl⟩

/-- A declaration with a slot of the table, whose lengths neither call nor assign nor declare what
it declares. -/
structure Declaration.Plain (left : Resolutions) (declaration : Declaration Slot) : Prop where
  inside : declaration.note.index < left.types.size
  lacks : declaration.ty.Lacks [.call, .assign]
  apart : declaration.ty.Every (·.note ≠ declaration.note)

namespace Twin

open Exec

variable {base : Heap} {left : Resolutions} {context context' : Context} {fuel : Nat}

theorem rerun_typesOn
    (agree : (rerun base left).AgreesOn (Declaration.Plain left) (eval context fuel)
      (eval context' fuel)) :
    (rerun base left).TypesOn (Declaration.Plain left) (eval context fuel)
      (eval context' fuel) := by
  intro declaration s every
  obtain ⟨inner, plain⟩ := every.parts
  have same : declaration.map (rerun base left).names.slot = declaration := declaration.map_id
  rw [same]
  -- What the second run does at a slot that has a type for it.
  have cached {ty : Ty} (known : left.get? declaration.note = some ty) (world : World)
    (alike : world.resolved = left) :
      Eval.typeOf (eval context' fuel) declaration ((rerun base left).state s world) =
        .ok ty ((rerun base left).state s world) := Eval.typeOf_of_some (alike ▸ known)
  cases settled : s.resolved.get? declaration.note with
  | some ty =>
    unfold Agrees
    rw [Eval.typeOf_of_some settled]
    refine ⟨.refl _, fun fine world alike => ⟨world, ?_, alike⟩⟩
    exact cached (fine.settled settled) world alike.1
  | none =>
    unfold Agrees
    rw [Eval.typeOf_of_none settled]
    cases outcome : Eval.resolve (eval context fuel) declaration.ty s with
    | outOfFuel =>
      rw [bind_of_outOfFuel outcome]
      trivial
    | ok ty t =>
      rw [bind_of_ok outcome]
      cases Eval.resolve_idle context fuel plain.lacks s ty t outcome
      refine ⟨Resolutions.kept_settle _ _ _, fun fine world alike => ⟨world, ?_, alike⟩⟩
      have size : left.types.size = s.resolved.types.size :=
        fine.size.trans (Resolutions.kept_settle s.resolved declaration.note ty).size
      have inside : declaration.note.index < s.resolved.types.size := size ▸ plain.inside
      have known := fine.settled (Resolutions.get?_settle_self inside)
      exact cached known world alike.1
    | error failure t =>
      rw [bind_of_error outcome]
      have unsettled := (Eval.resolve_unsettled plain.lacks plain.apart settled).bad_of_eq outcome
      obtain ⟨later, fails⟩ := (resolve_agrees agree declaration.ty s inner).of_error outcome
      refine ⟨later, fun final world alike => ?_⟩
      obtain ⟨after, failed, still⟩ := fails final world alike
      have none : ((rerun base left).state s world).resolved.get? declaration.note = none := by
        have same : world.resolved = t.resolved := alike.1.trans final.symm
        exact (congrArg (·.get? declaration.note) same).trans unsettled
      have spec : declaration.ty.map (rerun base left).names.slot = declaration.ty :=
        declaration.ty.map_id
      rw [spec] at failed
      refine ⟨after, ?_, still⟩
      rw [Eval.typeOf_of_none none, bind_of_error failed]

end Twin

/-! ### Programs -/

theorem Program.placed_lacks {program : Program Unit} {kinds : List Kind} (table : Resolutions)
    (lengths : program.Every fun d => d.ty.Lacks kinds) :
    (table.placeProgram program.unsettled).1.Every fun d => d.ty.Lacks kinds := by
  have unsettled : program.unsettled.Every fun d => d.ty.Lacks kinds := by
    apply (Program.every_map _).mpr
    simpa only [Declaration.ty_map, TypeSpec.lacks_map] using lengths
  rw [← program.unsettled.map_get?_place
    (.refl (table.placeProgram program.unsettled).2)] at unsettled
  simpa only [Program.every_map, Declaration.ty_map, TypeSpec.lacks_map] using unsettled

/-- The declarations of a program that has been placed have slots of their own, and lengths as they
had before. -/
theorem Program.placed_plain {program : Program Unit} {table left : Resolutions}
    (lengths : program.Every fun d => d.ty.Lacks [.call, .assign])
    (size : left.types.size = (table.placeProgram program.unsettled).2.types.size) :
    (table.placeProgram program.unsettled).1.Every (Declaration.Plain left) := by
  have lays := program.unsettled.lays table
  intro function listed
  have lacks := FunctionDef.every_iff.mp (Program.placed_lacks table lengths function listed)
  apply FunctionDef.every_iff.mpr
  intro d member
  have among : d ∈ (table.placeProgram program.unsettled).1.declarations :=
    List.mem_flatMap.mpr ⟨function, listed, List.mem_append_left _ member⟩
  have own := (Program.declarations_sublist _ d among).map (·.note)
  constructor
  · exact size ▸ (lays.bounds among).2
  · exact lacks d member
  · exact Declaration.ty_every_ne (lays.distinct.sublist own)

namespace Interpreter

variable {interpreter other : Interpreter} {program : Program Slot} {fuel : Nat}

/-- The second interpreter has other cells below its own, and the types that the first has left. -/
theorem run_again {base : Heap} {left : Resolutions} (same : other.context = interpreter.context)
    (functions : interpreter.context.registry.Every (Declaration.Plain left))
    (given : program.Every (Declaration.Plain left))
    (start : other.state =
      (Twin.rerun base left).state interpreter.state ⟨left, interpreter.state.console⟩)
    (kept : (interpreter.run fuel program).2.state.resolved = left)
    (ended : (interpreter.run fuel program).1 ≠ .unfinished) :
    (other.run fuel program).1 = (interpreter.run fuel program).1 ∧
      (other.run fuel program).2.output = (interpreter.run fuel program).2.output := by
  have shares : (Twin.rerun base left).Shares (interpreter.run fuel program).1
      (interpreter.run fuel program).2.state.world := by
    cases answer : (interpreter.run fuel program).1 with
    | value done =>
      rw [← kept]
      exact Resolutions.Kept.refl _
    | failure problem => exact kept
    | unfinished => exact absurd answer ended
  have limit : interpreter.context.maxCallDepth = other.context.maxCallDepth := by rw [same]
  obtain ⟨-, follows⟩ := run_follows (Twin.rerun base left) interpreter other program fuel rfl
    (congrArg Context.registry same) (Nat.le_of_eq limit) (.inl limit) functions given
    Twin.rerun_typesOn
  obtain ⟨answer, world, alike, state⟩ :=
    follows ⟨left, interpreter.state.console⟩ ⟨rfl, rfl⟩ start shares
  refine ⟨answer, ?_⟩
  simp only [Interpreter.output, state, Twin.state, alike.2]
  rfl

/-- If the first run of a program comes to an end, in whatever way, every further run of the same
tree ends in the same way, with the same output: also in an interpreter that has the cells of
another one below its own. Lengths must neither call nor assign. -/
theorem run_repeats (program : Program Unit)
    (lengths : program.Every fun d => d.ty.Lacks [.call, .assign])
    (console : Console) (maxCallDepth fuel : Nat) :
    let (placed, fresh) := (Interpreter.start console maxCallDepth).placeProgram program
    let first := fresh.run fuel placed
    first.1 ≠ .unfinished → ∀ other : Interpreter, other.state.resolved = first.2.state.resolved →
      let second := (other.restart console maxCallDepth).run fuel placed
      second.1 = first.1 ∧ second.2.output = first.2.output := by
  let placed := ((Interpreter.start console maxCallDepth).placeProgram program).1
  let fresh := ((Interpreter.start console maxCallDepth).placeProgram program).2
  let first := (fresh.run fuel placed).2
  intro ended other same
  have kept : fresh.state.resolved.Kept first.state.resolved :=
    (((Watch.settled fresh.state.resolved).law []).step_kept (fun _ => trivial) (fun _ _ => trivial)
      (.refl _) (.run fuel placed)).1
  have given : placed.Every (Declaration.Plain first.state.resolved) :=
    Program.placed_plain lengths kept.size
  have functions : fresh.context.registry.Every (Declaration.Plain first.state.resolved) :=
    fun _ listed => absurd listed List.not_mem_nil
  have start : (other.restart console maxCallDepth).state =
      (Twin.rerun other.state.heap first.state.resolved).state fresh.state
        ⟨first.state.resolved, fresh.state.console⟩ := by
    have cells : (Renaming.above other.state.heap).heap {} = other.state.heap := by
      simp [Renaming.above]
    rw [Interpreter.restart, same]
    exact congrArg
      (fun heap => ({ console, heap, resolved := first.state.resolved } : State)) cells.symm
  exact run_again rfl functions given start rfl ended

/-- The second array has a length that is read from the first, and the last length is zero: the run
fails after it has printed, with some of its types settled. -/
def midway : Program Unit where
  functions := [⟨"main", [], [
    .declare ⟨"a", .array .int (.int 3), ()⟩,
    .call "read" [.index (.var "a") (.int 2)],
    .declare ⟨"b", .array .bool (.index (.var "a") (.int 2)), ()⟩,
    .call "print" [.var "b"],
    .declare ⟨"c", .array .int (.arith .sub (.index (.var "a") (.int 2)) (.int 2)), ()⟩], .void⟩]

theorem run_repeats_midway :
    let (placed, fresh) := (Interpreter.start { pending := ["2"] } 5).placeProgram midway
    let first := fresh.run 9 placed
    first.1.failure? = some (.invalidArraySize 0) ∧ first.2.output = "[false, false]\n" ∧
    let second := (first.2.restart { pending := ["2"] } 5).run 9 placed
    second.1 = first.1 ∧ second.2.output = first.2.output := by
  have lengths : midway.Every fun d => d.ty.Lacks [.call, .assign] := by
    intro function listed
    cases List.mem_singleton.mp listed
    refine ⟨by simp, ?_⟩
    simp [Node.EveryOf, Node.Every, Declaration.Every, TypeSpec.Every, TypeSpec.Lacks, Node.Lacks,
      Node.kind]
  have repeats := run_repeats midway lengths { pending := ["2"] } 5 9
  have failed : (((Interpreter.start { pending := ["2"] } 5).placeProgram midway).2.run 9
      ((Interpreter.start { pending := ["2"] } 5).placeProgram midway).1).1.failure? =
        some (.invalidArraySize 0) := by
    decide +kernel
  have printed : (((Interpreter.start { pending := ["2"] } 5).placeProgram midway).2.run 9
      ((Interpreter.start { pending := ["2"] } 5).placeProgram midway).1).2.output =
        "[false, false]\n" := by
    decide +kernel
  generalize (Interpreter.start { pending := ["2"] } 5).placeProgram midway = tree
    at repeats failed printed ⊢
  refine ⟨failed, printed, repeats ?_ _ rfl⟩
  intro unfinished
  rw [unfinished] at failed
  contradiction

end Interpreter

end TreeLang
