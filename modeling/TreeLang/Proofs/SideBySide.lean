import TreeLang.Proofs.Operations
import TreeLang.Proofs.SettledTypes
import TreeLang.Proofs.TwinRuns

/-! Two interpreters that run one program. What is known of two evaluations side by side carries
over to the whole run, from the loading of the program to the way it ends. -/
namespace TreeLang

/-! ### The same names -/

@[simp] theorem Value.rename_id (value : Value) : value.rename id = value := by
  cases value <;> rfl

@[simp] theorem Cell.rename_id (cell : Cell) : cell.rename id = cell := by
  cases cell <;> simp [Cell.rename]

@[simp] theorem Scope.rename_id (scope : Scope) : scope.rename id = scope := by
  simp [Scope.rename]

@[simp] theorem Env.rename_id (env : Env) : env.rename id = env := by
  have scopes : env.outer.map (Scope.rename id) = env.outer := List.map_id'' Scope.rename_id _
  simp [Env.rename, scopes]

@[simp] theorem OperandStack.rename_id (stack : OperandStack) : stack.rename id = stack := by
  have values : stack.values.map (Value.rename id) = stack.values := List.map_id'' Value.rename_id _
  simp [OperandStack.rename, values]

/-- Every cell and every slot answers to itself. -/
def Renaming.same : Renaming where
  ref := id
  slot := id
  heap := id
  get _ _ := (Cell.rename_id _).symm
  put _ _ _ := by simp
  push _ _ := by simp

namespace Twin

open Exec

variable {twin : Twin} {declared : Declaration Slot → Prop} {below below' : Evaluator}
  {context context' : Context} {s : State}

theorem state_same (names : twin.names = .same) (s : State) (world : World) :
    twin.state s world = { s with resolved := world.resolved, console := world.console } := by
  simp [state, names, Renaming.same]

/-! ### The same types -/

/-- Both runs have the same types for such declarations, and settle them alike. -/
structure Settles (twin : Twin) (declared : Declaration Slot → Prop) : Prop where
  known : ∀ {declaration v w}, declared declaration → twin.alike v w →
    w.resolved.get? (twin.names.slot declaration.note) = v.resolved.get? declaration.note
  settled : ∀ {declaration v w} ty, declared declaration → twin.alike v w →
    twin.alike { v with resolved := v.resolved.settle declaration.note ty }
      { w with resolved := w.resolved.settle (twin.names.slot declaration.note) ty }
  later : ∀ v slot ty, twin.later v { v with resolved := v.resolved.settle slot ty }

theorem agrees_settle (settles : twin.Settles declared) {declaration : Declaration Slot}
    (plain : declared declaration) (ty : Ty) (s : State) :
    twin.Agrees id (settle declaration.note ty)
      (settle (twin.names.slot declaration.note) ty) s := by
  refine ⟨settles.later s.world declaration.note ty, fun _ world alike => ?_⟩
  refine ⟨_, ?_, settles.settled ty plain alike⟩
  have known : world.resolved.get? (twin.names.slot declaration.note) =
      s.resolved.get? declaration.note := settles.known plain alike
  simp only [settle, state, known, id]

/-- Types that are settled alike are found alike. -/
theorem Settles.typesOn (settles : twin.Settles declared)
    (agree : twin.AgreesOn declared below below') : twin.TypesOn declared below below' := by
  intro declaration s every
  obtain ⟨inner, plain⟩ := every.parts
  have known {world : World} (alike : twin.alike s.world world) :
      (twin.state s world).resolved.get? (declaration.map twin.names.slot).note =
        s.resolved.get? declaration.note := by
    rw [Declaration.note_map]
    exact settles.known plain alike
  cases settled : s.resolved.get? declaration.note with
  | some ty =>
    unfold Agrees
    rw [Eval.typeOf_of_some settled]
    refine ⟨twin.refl _, fun _ world alike => ⟨world, ?_, alike⟩⟩
    exact Eval.typeOf_of_some ((known alike).trans settled)
  | none =>
    have found : twin.Agrees id (Eval.resolve below declaration.ty >>= settle declaration.note)
        (Eval.resolve below' (declaration.ty.map twin.names.slot) >>=
          settle (twin.names.slot declaration.note)) s :=
      (resolve_agrees agree declaration.ty s inner).bind fun ty t _ =>
        agrees_settle settles plain ty t
    have second {world : World} (alike : twin.alike s.world world) :
        Eval.typeOf below' (declaration.map twin.names.slot) (twin.state s world) =
          (Eval.resolve below' (declaration.ty.map twin.names.slot) >>=
            settle (twin.names.slot declaration.note)) (twin.state s world) := by
      rw [Eval.typeOf_of_none ((known alike).trans settled), Declaration.ty_map,
        Declaration.note_map]
    unfold Agrees at found ⊢
    rw [Eval.typeOf_of_none settled]
    cases outcome : (Eval.resolve below declaration.ty >>= settle declaration.note) s with
    | outOfFuel => trivial
    | ok ty t =>
      rw [outcome] at found
      refine ⟨found.1, fun fine world alike => ?_⟩
      rw [second alike]
      exact found.2 fine world alike
    | error failure t =>
      rw [outcome] at found
      refine ⟨found.1, fun final world alike => ?_⟩
      rw [second alike]
      exact found.2 final world alike

/-! ### The same functions -/

theorem contexts_of_registry (slot : twin.names.slot = id)
    (same : context'.registry = context.registry)
    (room : context.maxCallDepth ≤ context'.maxCallDepth)
    (limit : context.maxCallDepth = context'.maxCallDepth ∨
      ∀ world, ¬ twin.final (.callDepthExceeded context.maxCallDepth) world) :
    twin.Contexts context context' := by
  refine ⟨fun signature => ?_, room, limit⟩
  rw [same, slot]
  cases context.registry.resolve signature with
  | ok function => exact congrArg Except.ok function.map_id.symm
  | error failure => rfl

/-- The endings of the first run that the second shares. -/
def Shares {α : Type} (twin : Twin) : Answer α → World → Prop
  | .value _, world => twin.fine world
  | .failure failure, world => twin.final failure world
  | .unfinished, _ => False

end Twin

def Answer.failure? {α : Type} : Answer α → Option Failure
  | .failure problem => some problem
  | _ => none

namespace Interpreter

variable {twin : Twin} {declared : Declaration Slot → Prop} {interpreter other : Interpreter}
  {program : Program Slot} {fuel : Nat}

theorem runEntry_of_none
    (absent : interpreter.context.registry.get? (signature entryPoint []) = none) :
    interpreter.runEntry fuel = (.value (), interpreter) := by
  simp only [Interpreter.runEntry, absent]

theorem runEntry_of_some {main : FunctionDef Slot}
    (found : interpreter.context.registry.get? (signature entryPoint []) = some main) :
    interpreter.runEntry fuel =
      let entered :=
        interpreter.perform (Eval.enter (eval interpreter.context fuel) interpreter.context main [])
      (entered.1.map fun _ => (), entered.2) := by
  simp only [Interpreter.runEntry, found]

/-- The second interpreter has followed the first: it has the same answer, and the state that
answers to that of the first. -/
structure Follows (twin : Twin) (first second : Answer Unit × Interpreter) : Prop where
  answer : second.1 = first.1
  state : ∃ world, twin.alike first.2.state.world world ∧
    second.2.state = twin.state first.2.state world

theorem perform_follows {α β : Type} {image : α → β} {first : Exec α} {second : Exec β}
    (agrees : twin.Agrees image first second interpreter.state) (other : Interpreter) :
    twin.later interpreter.state.world (interpreter.perform first).2.state.world ∧
    ∀ world, twin.alike interpreter.state.world world →
      other.state = twin.state interpreter.state world →
      twin.Shares (interpreter.perform first).1 (interpreter.perform first).2.state.world →
      Follows twin ((interpreter.perform first).1.map fun _ => (), (interpreter.perform first).2)
        ((other.perform second).1.map fun _ => (), (other.perform second).2) := by
  rcases interpreter.perform_cases first with
    ⟨value, t, outcome, performed⟩ | ⟨failure, t, outcome, performed⟩ | ⟨-, performed⟩
  · rw [performed]
    obtain ⟨later, follows⟩ := agrees.of_ok outcome
    refine ⟨later, fun world alike start shares => ?_⟩
    obtain ⟨after, again, still⟩ := follows shares world alike
    rw [← start] at again
    rw [perform_of_ok again]
    exact ⟨rfl, after, still, rfl⟩
  · rw [performed]
    obtain ⟨later, follows⟩ := agrees.of_error outcome
    refine ⟨later, fun world alike start shares => ?_⟩
    obtain ⟨after, again, still⟩ := follows shares world alike
    rw [← start] at again
    rw [perform_of_error again]
    exact ⟨rfl, after, still, rfl⟩
  · rw [performed]
    exact ⟨twin.refl _, fun _ _ _ shares => shares.elim⟩

theorem shares_map {α β : Type} {f : α → β} {answer : Answer α} {world : World} :
    twin.Shares (answer.map f) world ↔ twin.Shares answer world := by
  cases answer <;> rfl

/-- An interpreter that calls its entry point, and another that answers to it. -/
theorem runEntry_follows (interpreter other : Interpreter)
    (contexts : twin.Contexts interpreter.context other.context)
    (functions : interpreter.context.registry.Every declared)
    (types : ∀ fuel, twin.AgreesOn declared (eval interpreter.context fuel)
        (eval other.context fuel) →
      twin.TypesOn declared (eval interpreter.context fuel) (eval other.context fuel)) :
    twin.later interpreter.state.world (interpreter.runEntry fuel).2.state.world ∧
    ∀ world, twin.alike interpreter.state.world world →
      other.state = twin.state interpreter.state world →
      twin.Shares (interpreter.runEntry fuel).1 (interpreter.runEntry fuel).2.state.world →
      Follows twin (interpreter.runEntry fuel) (other.runEntry fuel) := by
  have resolves := contexts.resolve (signature entryPoint [])
  cases found : interpreter.context.registry.get? (signature entryPoint []) with
  | none =>
    have absent : other.context.registry.get? (signature entryPoint []) = none := by
      simp only [Registry.resolve, found, Except.map] at resolves
      split at resolves
      · contradiction
      · assumption
    rw [runEntry_of_none found, runEntry_of_none absent]
    exact ⟨twin.refl _, fun world alike start _ => ⟨rfl, world, alike, start⟩⟩
  | some main =>
    have resolved : interpreter.context.registry.resolve (signature entryPoint []) = .ok main := by
      rw [Registry.resolve, found]
    have present : other.context.registry.get? (signature entryPoint []) =
        some (main.map twin.names.slot) := by
      rw [resolved, Registry.resolve] at resolves
      split at resolves
      next function there =>
        cases resolves
        exact there
      · contradiction
    have agree := Twin.eval_agrees contexts functions types fuel
    have entered := Twin.enter_agrees agree (types fuel agree) contexts
      (functions.of_resolve resolved) [] interpreter.state
    obtain ⟨later, follows⟩ := perform_follows entered other
    rw [runEntry_of_some found, runEntry_of_some present]
    exact ⟨later, fun world alike start shares => follows world alike start (shares_map.mp shares)⟩

/-- Which functions there are after loading depends on those there were before. -/
theorem load_of_registry (same : other.context.registry = interpreter.context.registry)
    (program : Program Slot) :
    other.load program = ((interpreter.load program).1,
      { other with context :=
        { other.context with registry := (interpreter.load program).2.context.registry } }) := by
  unfold Interpreter.load
  rw [same]
  split
  split <;> rfl

theorem load_maxCallDepth (interpreter : Interpreter) (program : Program Slot) :
    (interpreter.load program).2.context.maxCallDepth = interpreter.context.maxCallDepth := by
  unfold Interpreter.load
  split
  split <;> rfl

/-- The same for a run from the loading on, if both start with the same functions. In the second
calls may nest deeper, but then one that nests too deep is no failure that both share. -/
theorem run_follows (twin : Twin) (interpreter other : Interpreter) (program : Program Slot)
    (fuel : Nat) (slot : twin.names.slot = id)
    (same : other.context.registry = interpreter.context.registry)
    (room : interpreter.context.maxCallDepth ≤ other.context.maxCallDepth)
    (limit : interpreter.context.maxCallDepth = other.context.maxCallDepth ∨
      ∀ world, ¬ twin.final (.callDepthExceeded interpreter.context.maxCallDepth) world)
    (functions : interpreter.context.registry.Every declared) (given : program.Every declared)
    (types : ∀ {context context' fuel}, twin.AgreesOn declared (eval context fuel)
        (eval context' fuel) →
      twin.TypesOn declared (eval context fuel) (eval context' fuel)) :
    twin.later interpreter.state.world (interpreter.run fuel program).2.state.world ∧
    ∀ world, twin.alike interpreter.state.world world →
      other.state = twin.state interpreter.state world →
      twin.Shares (interpreter.run fuel program).1 (interpreter.run fuel program).2.state.world →
      Follows twin (interpreter.run fuel program) (other.run fuel program) := by
  have loads := load_of_registry same program
  have unchanged := interpreter.load_state program
  have depth := interpreter.load_maxCallDepth program
  have every := load_every functions given
  unfold Interpreter.run
  rw [loads]
  rcases loaded : interpreter.load program with ⟨answer, after⟩
  rw [loaded] at unchanged depth every
  rw [← depth] at room limit
  rw [← unchanged]
  cases answer with
  | value done =>
    exact after.runEntry_follows
      { other with context := { other.context with registry := after.context.registry } }
      (Twin.contexts_of_registry slot rfl room limit) every fun _ => types
  | failure problem =>
    exact ⟨twin.refl _, fun world alike start _ => ⟨rfl, world, alike, start⟩⟩
  | unfinished => exact ⟨twin.refl _, fun _ _ _ shares => shares.elim⟩

end Interpreter

end TreeLang
