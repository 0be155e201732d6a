import TreeLang.Proofs.Echo
import TreeLang.Proofs.Placement
import TreeLang.Proofs.Renaming

/-! Two runs of a program side by side. The second has other names for cells and slots and may meet
other settled types, another input or another limit on calls. As long as the first run goes well
the second answers to it step by step. How far the correspondence reaches is left open: a run may
answer only to what stays within some bound, or only to some of the failures. -/
namespace TreeLang

/-- What a run shares with the outside: the types settled in its trees, and the console. -/
structure World where
  resolved : Resolutions
  console : Console

def State.world (s : State) : World := ⟨s.resolved, s.console⟩

structure Twin where
  names : Renaming
  /-- The worlds that the second run may be in when the first is in this one. -/
  alike : World → World → Prop
  /-- How an earlier world of the first run and a later one are related. -/
  later : World → World → Prop
  /-- The worlds of the first run up to which the second answers. -/
  fine : World → Prop
  /-- The failures that the second run shares. -/
  final : Failure → World → Prop
  refl : ∀ world, later world world
  trans : ∀ {u v w}, later u v → later v w → later u w
  fine_of_later : ∀ {v w}, later v w → fine w → fine v
  fine_of_final : ∀ {failure w}, final failure w → fine w
  later_print : ∀ v line, later v { v with console := v.console.writeLine line }
  later_read : ∀ v, later v { v with console := v.console.readToken.2 }
  prints : ∀ {v w} line, alike v w →
    alike { v with console := v.console.writeLine line }
      { w with console := w.console.writeLine line }
  reads : ∀ {v w token console}, v.console.readToken = (.ok token, console) →
    fine { v with console } → alike v w →
    ∃ console', w.console.readToken = (.ok token, console') ∧
      alike { v with console } { w with console := console' }
  readFails : ∀ {v w failure console}, v.console.readToken = (.error failure, console) →
    final failure { v with console } → alike v w → ∃ console',
      w.console.readToken = (.error failure, console') ∧
        alike { v with console } { w with console := console' }

namespace Twin

variable (twin : Twin)

/-- The state of the second run, given that of the first and the second world. -/
def state (s : State) (world : World) : State where
  heap := twin.names.heap s.heap
  resolved := world.resolved
  console := world.console
  env := s.env.rename twin.names.ref
  stack := s.stack.rename twin.names.ref
  depth := s.depth

variable {α β γ δ : Type}

/-- Where the first action ends well, so does the second, and with the same result but for the
names; and where the first fails in a way that the second shares, it fails likewise. -/
def Agrees (image : α → β) (first : Exec α) (second : Exec β) (s : State) : Prop :=
  match first s with
  | .ok value t => twin.later s.world t.world ∧
    (twin.fine t.world → ∀ world, twin.alike s.world world →
      ∃ after, second (twin.state s world) = .ok (image value) (twin.state t after) ∧
        twin.alike t.world after)
  | .error failure t => twin.later s.world t.world ∧ (twin.final failure t.world → ∀ world,
      twin.alike s.world world →
      ∃ after, second (twin.state s world) = .error failure (twin.state t after) ∧
        twin.alike t.world after)
  | .outOfFuel => True

variable {twin} {image : α → β} {image' : γ → δ} {first : Exec α} {second : Exec β} {s t : State}

theorem Agrees.of_ok {value : α} (agrees : twin.Agrees image first second s)
    (outcome : first s = .ok value t) :
    twin.later s.world t.world ∧ (twin.fine t.world → ∀ world, twin.alike s.world world →
      ∃ after, second (twin.state s world) = .ok (image value) (twin.state t after) ∧
        twin.alike t.world after) := by
  simpa only [Agrees, outcome] using agrees

theorem Agrees.of_error {failure : Failure} (agrees : twin.Agrees image first second s)
    (outcome : first s = .error failure t) :
    twin.later s.world t.world ∧ (twin.final failure t.world → ∀ world, twin.alike s.world world →
      ∃ after, second (twin.state s world) = .error failure (twin.state t after) ∧
        twin.alike t.world after) := by
  simpa only [Agrees, outcome] using agrees

/-! ### Actions in sequence -/

open Exec

theorem Agrees.bind {next : α → Exec γ} {next' : β → Exec δ}
    (agrees : twin.Agrees image first second s) (after : ∀ value t, first s = .ok value t →
      twin.Agrees image' (next value) (next' (image value)) t) :
    twin.Agrees image' (first >>= next) (second >>= next') s := by
  unfold Agrees
  cases outcome : first s with
  | outOfFuel =>
    rw [bind_of_outOfFuel outcome]
    trivial
  | error failure t =>
    obtain ⟨later, fails⟩ := agrees.of_error outcome
    rw [bind_of_error outcome]
    refine ⟨later, fun final world alike => ?_⟩
    obtain ⟨w, ended, still⟩ := fails final world alike
    exact ⟨w, bind_of_error ended, still⟩
  | ok value t =>
    obtain ⟨later, ends⟩ := agrees.of_ok outcome
    have rest := after value t outcome
    rw [bind_of_ok outcome]
    cases ended : next value t with
    | outOfFuel => trivial
    | ok result u =>
      obtain ⟨further, follows⟩ := rest.of_ok ended
      refine ⟨twin.trans later further, fun fine world alike => ?_⟩
      obtain ⟨w, first, between⟩ := ends (twin.fine_of_later further fine) world alike
      rw [bind_of_ok first]
      exact follows fine w between
    | error failure u =>
      obtain ⟨further, follows⟩ := rest.of_error ended
      refine ⟨twin.trans later further, fun final world alike => ?_⟩
      have fine := twin.fine_of_later further (twin.fine_of_final final)
      obtain ⟨w, first, between⟩ := ends fine world alike
      rw [bind_of_ok first]
      exact follows final w between

/-- An action that leaves the world as it is. -/
theorem agrees_ok {value : α} (outcome : first s = .ok value t) (still : t.world = s.world)
    (same : ∀ world, second (twin.state s world) = .ok (image value) (twin.state t world)) :
    twin.Agrees image first second s := by
  simp only [Agrees, outcome, still]
  exact ⟨twin.refl _, fun _ world alike => ⟨world, same world, alike⟩⟩

theorem agrees_error {failure : Failure} (outcome : first s = .error failure t)
    (still : t.world = s.world)
    (same : ∀ world, second (twin.state s world) = .error failure (twin.state t world)) :
    twin.Agrees image first second s := by
  simp only [Agrees, outcome, still]
  exact ⟨twin.refl _, fun _ world alike => ⟨world, same world, alike⟩⟩

theorem agrees_pure (value : α) : twin.Agrees image (pure value) (pure (image value)) s :=
  agrees_ok rfl rfl fun _ => rfl

theorem agrees_fail (failure : Failure) : twin.Agrees image (fail failure) (fail failure) s :=
  agrees_error rfl rfl fun _ => rfl

theorem agrees_reading {query : State → Except Failure α} {query' : State → Except Failure β}
    (same : ∀ world, query' (twin.state s world) = (query s).map image) :
    twin.Agrees image (reading query) (reading query') s := by
  cases answer : query s with
  | ok value =>
    have outcome : reading query s = .ok value s := by simp only [reading, answer]
    refine agrees_ok outcome rfl fun world => ?_
    simp only [reading, same world, answer, Except.map]
  | error failure =>
    have outcome : reading query s = .error failure s := by simp only [reading, answer]
    refine agrees_error outcome rfl fun world => ?_
    simp only [reading, same world, answer, Except.map]

theorem ok_of_reading {query : State → Except Failure α} {value : α}
    (outcome : reading query s = .ok value t) :
    query s = .ok value ∧ t = s := by
  unfold reading at outcome
  split at outcome
  next answer =>
    cases outcome
    exact ⟨answer, rfl⟩
  next => contradiction

theorem agrees_modify {change change' : State → State} (still : (change s).world = s.world)
    (same : ∀ world, change' (twin.state s world) = twin.state (change s) world) :
    twin.Agrees id (modify change) (modify change') s :=
  agrees_ok rfl still fun world => congrArg (Outcome.ok ()) (same world)

theorem Agrees.thenAlways {change change' : State → State}
    (agrees : twin.Agrees image first second s) (still : ∀ t, (change t).world = t.world)
    (same : ∀ t world, change' (twin.state t world) = twin.state (change t) world) :
    twin.Agrees image (first.thenAlways change) (second.thenAlways change') s := by
  unfold Agrees Exec.thenAlways
  cases outcome : first s with
  | outOfFuel => trivial
  | ok value t =>
    obtain ⟨later, ends⟩ := agrees.of_ok outcome
    simp only [still t]
    refine ⟨later, fun fine world alike => ?_⟩
    obtain ⟨w, ended, after⟩ := ends fine world alike
    exact ⟨w, by simp only [ended, same], after⟩
  | error failure t =>
    obtain ⟨later, fails⟩ := agrees.of_error outcome
    simp only [still t]
    refine ⟨later, fun final world alike => ?_⟩
    obtain ⟨w, ended, after⟩ := fails final world alike
    exact ⟨w, by simp only [ended, same], after⟩

/-! ### Actions of the machine -/

theorem agrees_height : twin.Agrees id height height s := by
  refine agrees_reading fun world => ?_
  simp [state, Except.map]

theorem agrees_push (value : Value) :
    twin.Agrees id (push value) (push (value.rename twin.names.ref)) s :=
  agrees_modify rfl fun _ => rfl

theorem agrees_truncate (height : Nat) : twin.Agrees id (truncate height) (truncate height) s := by
  refine agrees_modify rfl fun world => ?_
  simp only [state, OperandStack.truncate_rename]

theorem agrees_pop : twin.Agrees (Value.rename twin.names.ref) pop pop s := by
  obtain ⟨heap, resolved, console, env, ⟨values, frames⟩, depth⟩ := s
  cases values with
  | nil => exact agrees_error rfl rfl fun _ => rfl
  | cons value values => exact agrees_ok rfl rfl fun _ => rfl

theorem agrees_lookup (name : String) : twin.Agrees twin.names.ref (lookup name) (lookup name) s :=
  agrees_reading fun _ => Env.lookup_rename s.env name

theorem agrees_toInt (value : Value) :
    twin.Agrees id (toInt value) (toInt (value.rename twin.names.ref)) s := by
  refine agrees_reading fun world => ?_
  simp [state, twin.names.toInt, Except.map_id]

theorem agrees_truth (value : Value) :
    twin.Agrees id (Exec.truth value) (Exec.truth (value.rename twin.names.ref)) s := by
  refine agrees_reading fun world => ?_
  simp [state, twin.names.truth, Except.map]

theorem agrees_assign (target : Ref) (value : Value) :
    twin.Agrees id (assign target value)
      (assign (twin.names.ref target) (value.rename twin.names.ref)) s := by
  have written := twin.names.written s.heap target value
  cases result : s.heap.written target value with
  | error failure =>
    rw [result] at written
    have outcome : assign target value s = .error failure s := by simp only [assign, result]
    refine agrees_error outcome rfl fun world => ?_
    simp only [assign, state, written, Except.map]
  | ok cell =>
    rw [result] at written
    have outcome : assign target value s = .ok () { s with heap := s.heap.put target cell } := by
      simp only [assign, result]
    refine agrees_ok outcome rfl fun world => ?_
    simp only [assign, state, written, Except.map, twin.names.put, id]

theorem agrees_newCell (ty : Ty) : twin.Agrees twin.names.ref (newCell ty) (newCell ty) s := by
  cases fault : ty.fault? with
  | some failure =>
    have outcome : newCell ty s = .error failure s := by simp only [newCell, fault]
    refine agrees_error outcome rfl fun world => ?_
    simp only [newCell, fault]
  | none =>
    have outcome : newCell ty s =
      .ok (s.heap.alloc ty).1 { s with heap := (s.heap.alloc ty).2 } := by
      simp only [newCell, fault]
    refine agrees_ok outcome rfl fun world => ?_
    simp only [newCell, fault, state, twin.names.alloc]

theorem agrees_bindName (name : String) (place : Ref) :
    twin.Agrees id (bindName name place) (bindName name (twin.names.ref place)) s := by
  have declared : (s.env.rename twin.names.ref).declare name (twin.names.ref place) = _ :=
    Env.declare_rename s.env name place
  cases result : s.env.declare name place with
  | error failure =>
    rw [result] at declared
    have outcome : bindName name place s = .error failure s := by simp only [bindName, result]
    refine agrees_error outcome rfl fun world => ?_
    simp only [bindName, state, declared, Except.map]
  | ok env =>
    rw [result] at declared
    have outcome : bindName name place s = .ok () { s with env } := by simp only [bindName, result]
    refine agrees_ok outcome rfl fun world => ?_
    simp only [bindName, state, declared, Except.map, id]

theorem agrees_print (value : Value) :
    twin.Agrees id (Exec.print value) (Exec.print (value.rename twin.names.ref)) s := by
  refine ⟨twin.later_print s.world _, fun _ world alike => ?_⟩
  refine ⟨{ world with console := world.console.writeLine (s.heap.text value) }, ?_,
    twin.prints _ alike⟩
  simp only [Exec.print, Exec.modify, state, twin.names.text, id]

theorem agrees_readToken : twin.Agrees id readToken readToken s := by
  have later := twin.later_read s.world
  unfold Agrees readToken
  cases read : s.console.readToken with
  | mk answer console =>
    have moved : twin.later s.world { s.world with console } := by
      have here : s.world.console.readToken = (answer, console) := read
      rwa [here] at later
    cases answer with
    | ok token =>
      refine ⟨moved, fun fine world alike => ?_⟩
      obtain ⟨other, answered, still⟩ := twin.reads read fine alike
      exact ⟨{ world with console := other }, by simp only [state, answered, id], still⟩
    | error failure =>
      refine ⟨moved, fun final world alike => ?_⟩
      obtain ⟨other, answered, still⟩ := twin.readFails read final alike
      exact ⟨{ world with console := other }, by simp only [state, answered], still⟩

theorem agrees_forM {act act' : Ref → Exec Unit}
    (each : ∀ cell t, twin.Agrees id (act cell) (act' (twin.names.ref cell)) t) (cells : List Ref)
    (s : State) :
    twin.Agrees id (cells.forM act) ((cells.map twin.names.ref).forM act') s := by
  induction cells generalizing s with
  | nil => exact agrees_pure ()
  | cons cell rest ih => exact (each cell s).bind fun _ t _ => ih t

theorem agrees_readAt (tag : Tag) (cell : Ref) (s : State) :
    twin.Agrees id (readAt tag cell) (readAt tag (twin.names.ref cell)) s := by
  induction tag generalizing cell s with
  | int =>
    refine agrees_readToken.bind fun token t _ => ?_
    have parsed : twin.Agrees id (ofExcept (intOfToken token)) (ofExcept (intOfToken token)) t :=
      agrees_reading fun _ => (congrFun Except.map_id _).symm
    exact parsed.bind fun n u _ => agrees_assign cell (.int n)
  | bool =>
    refine agrees_readToken.bind fun token t _ => ?_
    have parsed : twin.Agrees id (ofExcept (boolOfToken token)) (ofExcept (boolOfToken token)) t :=
      agrees_reading fun _ => (congrFun Except.map_id _).symm
    exact parsed.bind fun b u _ => agrees_assign cell (.bool b)
  | void => exact agrees_pure ()
  | array element ih =>
    have seen : twin.Agrees (Array.map twin.names.ref) (reading fun s => .ok (s.heap.elements cell))
        (reading fun s => .ok (s.heap.elements (twin.names.ref cell))) s :=
      agrees_reading fun _ => congrArg Except.ok (twin.names.elements s.heap cell)
    refine seen.bind fun elements t _ => ?_
    rw [Array.toList_map]
    exact agrees_forM ih elements.toList t

theorem agrees_readInto (cell : Ref) :
    twin.Agrees id (readInto cell) (readInto (twin.names.ref cell)) s := by
  have known : twin.Agrees id (reading fun s => .ok (s.heap.get cell).tag)
      (reading fun s => .ok (s.heap.get (twin.names.ref cell)).tag) s := by
    refine agrees_reading fun _ => ?_
    simp [state, twin.names.get, Except.map]
  exact known.bind fun tag t _ => agrees_readAt tag cell t

/-! ### What is returned -/

theorem checkReturn_rename (heap : Heap) (function : FunctionDef Slot) (value : Option Value) :
    Eval.checkReturn (twin.names.heap heap) (function.map twin.names.slot)
      (value.map (Value.rename twin.names.ref)) =
      (Eval.checkReturn heap function value).map (Option.map (Value.rename twin.names.ref)) := by
  obtain ⟨name, params, body, returns⟩ := function
  have tag := returns.tag_map twin.names.slot
  rw [FunctionDef.map_eq]
  cases value with
  | none =>
    cases returns with
    | int => rfl
    | bool => rfl
    | void => rfl
    | array element size =>
      have same := congrArg (fun tag => Failure.returnMismatch name tag.text "nothing") tag
      exact congrArg Except.error same
  | some value =>
    simp only [Eval.checkReturn, Option.map_some, tag]
    cases returns with
    | void =>
      have same :=
        congrArg (fun tag => Failure.returnMismatch name Tag.void.text tag.text)
          (twin.names.tag heap value)
      exact congrArg Except.error same
    | int =>
      have int : TypeSpec.map twin.names.slot .int = .int := rfl
      simp only [int, twin.names.toInt, twin.names.tag]
      cases heap.toInt value <;> rfl
    | bool =>
      have bool : TypeSpec.map twin.names.slot .bool = .bool := rfl
      simp only [bool, twin.names.truth, twin.names.tag]
      cases heap.tag value <;> rfl
    | array element size =>
      have array : TypeSpec.map twin.names.slot (.array element size) =
        .array (element.map twin.names.slot) (size.map twin.names.slot) := rfl
      simp only [array, twin.names.tag, TypeSpec.tag_map]
      split <;> rfl

theorem agrees_finish (function : FunctionDef Slot) (flow : Flow) :
    twin.Agrees (Option.map (Value.rename twin.names.ref)) (Eval.finish function flow)
      (Eval.finish (function.map twin.names.slot) (flow.rename twin.names.ref)) s := by
  cases flow with
  | returned value => exact agrees_reading fun _ => checkReturn_rename s.heap function value
  | completed =>
    have void : (function.map twin.names.slot).returns.isVoid = function.returns.isVoid := by
      rw [FunctionDef.map_eq]
      cases function.returns <;> rfl
    simp only [Eval.finish, Flow.rename, void]
    split
    · exact agrees_pure none
    · rw [FunctionDef.map_eq]
      exact agrees_fail _

/-! ### The rules of evaluation -/

/-- Nodes that have only such declarations are evaluated alike. -/
def AgreesOn (twin : Twin) (declared : Declaration Slot → Prop) (below below' : Evaluator) : Prop :=
  ∀ node s, node.Every declared →
    twin.Agrees (Flow.rename twin.names.ref) (below node) (below' (node.map twin.names.slot)) s

section rules

variable {below below' : Evaluator} {declared : Declaration Slot → Prop} {node : Node Slot}
  (agree : twin.AgreesOn declared below below')
include agree

theorem value_agrees (every : node.Every declared) (s : State) :
    twin.Agrees (Value.rename twin.names.ref) (Eval.value below node)
      (Eval.value below' (node.map twin.names.slot)) s := by
  refine agrees_height.bind fun before t _ => ?_
  refine (agree node t every).bind fun flow u _ => ?_
  cases flow with
  | returned value => exact agrees_fail _
  | completed =>
    refine agrees_height.bind fun after w _ => ?_
    simp only [id]
    split
    · exact agrees_pop
    · exact agrees_fail _

theorem int_agrees (every : node.Every declared) (s : State) :
    twin.Agrees id (Eval.int below node) (Eval.int below' (node.map twin.names.slot)) s :=
  (value_agrees agree every s).bind fun value _ _ => agrees_toInt value

theorem truth_agrees (every : node.Every declared) (s : State) :
    twin.Agrees id (Eval.truth below node) (Eval.truth below' (node.map twin.names.slot)) s :=
  (value_agrees agree every s).bind fun value _ _ => agrees_truth value

theorem statement_agrees (every : node.Every declared) (s : State) :
    twin.Agrees (Flow.rename twin.names.ref) (Eval.statement below node)
      (Eval.statement below' (node.map twin.names.slot)) s := by
  refine agrees_height.bind fun before t _ => ?_
  refine (agree node t every).bind fun flow u _ => ?_
  exact (agrees_truncate before).bind fun _ w _ => agrees_pure flow

theorem statements_agrees {body : List (Node Slot)} (every : Node.EveryOf declared body)
    (s : State) :
    twin.Agrees (Flow.rename twin.names.ref) (Eval.statements below body)
      (Eval.statements below' (body.map (Node.map twin.names.slot))) s := by
  induction body generalizing s with
  | nil => exact agrees_pure Flow.completed
  | cons node rest ih =>
    refine (statement_agrees agree every.1 s).bind fun flow t _ => ?_
    cases flow with
    | returned value => exact agrees_pure (Flow.returned value)
    | completed => exact ih every.2 t

theorem values_agrees {args : List (Node Slot)} (every : Node.EveryOf declared args) (s : State) :
    twin.Agrees (List.map (Value.rename twin.names.ref)) (Eval.values below args)
      (Eval.values below' (args.map (Node.map twin.names.slot))) s := by
  induction args generalizing s with
  | nil => exact agrees_pure []
  | cons node rest ih =>
    refine (value_agrees agree every.1 s).bind fun first t _ => ?_
    exact (ih every.2 t).bind fun others u _ => agrees_pure (first :: others)

theorem loop_agrees {condition body : Node Slot} (test : condition.Every declared)
    (every : body.Every declared) (turns : Nat) (s : State) :
    twin.Agrees (Flow.rename twin.names.ref) (Eval.loop below condition body turns)
      (Eval.loop below' (condition.map twin.names.slot) (body.map twin.names.slot) turns) s := by
  induction turns generalizing s with
  | zero => trivial
  | succ turns ih =>
    refine (truth_agrees agree test s).bind fun holds t _ => ?_
    cases holds with
    | false => exact agrees_pure Flow.completed
    | true =>
      refine (statement_agrees agree every t).bind fun flow u _ => ?_
      cases flow with
      | returned value => exact agrees_pure (Flow.returned value)
      | completed => exact ih u

theorem resolve_agrees : ∀ (spec : TypeSpec Slot) (s : State), spec.Every declared →
    twin.Agrees id (Eval.resolve below spec) (Eval.resolve below' (spec.map twin.names.slot)) s
  | .int, _, _ => agrees_pure Ty.int
  | .bool, _, _ => agrees_pure Ty.bool
  | .void, _, _ => agrees_pure Ty.void
  | .array element size, s, every => by
    refine (int_agrees agree every.2 s).bind fun n t _ => ?_
    simp only [id]
    split
    · exact (resolve_agrees element t every.1).bind fun ty u _ =>
        agrees_pure (Ty.array ty n.toInt.toNat)
    · exact agrees_fail _
termination_by structural spec => spec

omit agree in
theorem agrees_produce (value : Value) :
    twin.Agrees (Flow.rename twin.names.ref) (Eval.produce value)
      (Eval.produce (value.rename twin.names.ref)) s :=
  (agrees_push value).bind fun _ _ _ => agrees_pure Flow.completed

theorem builtin_agrees {args : List (Node Slot)} (function : Builtin)
    (every : Node.EveryOf declared args) (s : State) :
    twin.Agrees id (Eval.builtin below function args)
      (Eval.builtin below' function (args.map (Node.map twin.names.slot))) s := by
  induction args generalizing s with
  | nil => exact agrees_pure ()
  | cons node rest ih =>
    refine (value_agrees agree every.1 s).bind fun value t _ => ?_
    cases function with
    | print => exact (agrees_print value).bind fun _ u _ => ih every.2 u
    | read =>
      cases value with
      | int n => exact (agrees_fail _ : twin.Agrees id (fail _) (fail _) t)
      | bool b => exact (agrees_fail _ : twin.Agrees id (fail _) (fail _) t)
      | cell place => exact (agrees_readInto place).bind fun _ u _ => ih every.2 u

end rules

/-- The types of such declarations are found alike. -/
def TypesOn (twin : Twin) (declared : Declaration Slot → Prop) (below below' : Evaluator) : Prop :=
  ∀ declaration s, declaration.Every declared →
    twin.Agrees id (Eval.typeOf below declaration)
      (Eval.typeOf below' (declaration.map twin.names.slot)) s

/-- Both contexts have the same functions but for the names. In the second, calls may nest at least
as deep; if deeper, a call that nests too deep is no failure that both share. -/
structure Contexts (twin : Twin) (context context' : Context) : Prop where
  resolve : ∀ signature, context'.registry.resolve signature =
    (context.registry.resolve signature).map (FunctionDef.map twin.names.slot)
  room : context.maxCallDepth ≤ context'.maxCallDepth
  limit : context.maxCallDepth = context'.maxCallDepth ∨
    ∀ world, ¬ twin.final (.callDepthExceeded context.maxCallDepth) world

section calls

variable {below below' : Evaluator} {declared : Declaration Slot → Prop} {node : Node Slot}
  {context context' : Context} (agree : twin.AgreesOn declared below below')
  (types : twin.TypesOn declared below below')

include types in
theorem declare_agrees {declaration : Declaration Slot} (every : declaration.Every declared)
    (s : State) :
    twin.Agrees id (Eval.declare below declaration)
      (Eval.declare below' (declaration.map twin.names.slot)) s := by
  refine (types declaration s every).bind fun ty t _ => ?_
  refine (agrees_newCell ty).bind fun place u _ => ?_
  rw [Declaration.name_map]
  exact agrees_bindName declaration.name place

include types in
theorem bindParams_agrees {params : List (Declaration Slot)}
    (every : ∀ param ∈ params, param.Every declared) (args : List Value) (s : State) :
    twin.Agrees id (Eval.bindParams below params args)
      (Eval.bindParams below' (params.map (Declaration.map twin.names.slot))
        (args.map (Value.rename twin.names.ref))) s := by
  induction params generalizing args s with
  | nil => exact agrees_pure ()
  | cons param params ih =>
    cases args with
    | nil => exact agrees_pure ()
    | cons arg args =>
      refine (declare_agrees types (every param (by simp)) s).bind fun _ t _ => ?_
      rw [Declaration.name_map]
      refine (agrees_lookup param.name).bind fun place u _ => ?_
      refine (agrees_assign place arg).bind fun _ w _ => ?_
      exact ih (fun other member => every other (by simp [member])) args w

include agree types

theorem activate_agrees {function : FunctionDef Slot} (every : function.Every declared)
    (args : List Value) (s : State) :
    twin.Agrees (Option.map (Value.rename twin.names.ref)) (Eval.activate below function args)
      (Eval.activate below' (function.map twin.names.slot) (args.map (Value.rename twin.names.ref)))
        s := by
  have params : (function.map twin.names.slot).params =
    function.params.map (Declaration.map twin.names.slot) := by
    rw [FunctionDef.map_eq]
  have body : (function.map twin.names.slot).body =
    function.body.map (Node.map twin.names.slot) := by
    rw [FunctionDef.map_eq]
  simp only [Eval.activate, params, body]
  refine (bindParams_agrees types every.params args s).bind fun _ t _ => ?_
  have marked : twin.Agrees id (modify fun s => { s with stack := s.stack.pushFrame })
      (modify fun s => { s with stack := s.stack.pushFrame }) t := by
    refine agrees_modify rfl fun world => ?_
    simp only [state, OperandStack.pushFrame_rename]
  refine marked.bind fun _ u _ => ?_
  refine Agrees.bind
    (Agrees.thenAlways (statements_agrees agree every.body u) (fun _ => rfl) fun w world => ?_)
    fun flow w _ => agrees_finish function flow
  simp only [state, OperandStack.popFrame_rename]

theorem enter_agrees {function : FunctionDef Slot} (contexts : twin.Contexts context context')
    (every : function.Every declared) (args : List Value) (s : State) :
    twin.Agrees (Option.map (Value.rename twin.names.ref)) (Eval.enter below context function args)
      (Eval.enter below' context' (function.map twin.names.slot)
        (args.map (Value.rename twin.names.ref))) s := by
  by_cases room : s.depth < context.maxCallDepth
  · have inside : twin.Agrees (Option.map (Value.rename twin.names.ref))
        ((Eval.activate below function args).thenAlways fun t =>
          { t with env := s.env, depth := t.depth - 1 })
        ((Eval.activate below' (function.map twin.names.slot)
          (args.map (Value.rename twin.names.ref))).thenAlways
          fun t => { t with env := s.env.rename twin.names.ref, depth := t.depth - 1 })
        { s with env := .empty, depth := s.depth + 1 } :=
      Agrees.thenAlways (activate_agrees agree types every args _) (fun _ => rfl) fun _ _ => rfl
    unfold Agrees at inside ⊢
    simp only [Eval.enter, if_pos room]
    have room' (world : World) : (twin.state s world).depth < context'.maxCallDepth :=
      Nat.lt_of_lt_of_le room contexts.room
    simp only [if_pos (room' _)]
    exact inside
  · have refused : Eval.enter below context function args s =
      .error (.callDepthExceeded context.maxCallDepth) s :=
      if_neg room
    rcases contexts.limit with same | different
    · refine agrees_error refused rfl fun world => ?_
      rw [same] at room ⊢
      exact if_neg room
    · simp only [Agrees, refused]
      exact ⟨twin.refl _, fun final => absurd final (different _)⟩

theorem invoke_agrees (contexts : twin.Contexts context context')
    (functions : context.registry.Every declared) (name : String) (args : List Value) (s : State) :
    twin.Agrees (Option.map (Value.rename twin.names.ref)) (Eval.invoke below context name args)
      (Eval.invoke below' context' name (args.map (Value.rename twin.names.ref))) s := by
  have selected : twin.Agrees (FunctionDef.map twin.names.slot)
      (reading fun s => context.registry.resolve (signature name (args.map s.heap.tag)))
      (reading fun s => context'.registry.resolve
        (signature name ((args.map (Value.rename twin.names.ref)).map s.heap.tag))) s := by
    refine agrees_reading fun world => ?_
    have tags : (args.map (Value.rename twin.names.ref)).map (twin.names.heap s.heap).tag =
        args.map s.heap.tag := by
      simp only [List.map_map]
      exact List.map_congr_left fun arg _ => twin.names.tag s.heap arg
    rw [← contexts.resolve]
    exact congrArg (fun tags => context'.registry.resolve (signature name tags)) tags
  refine selected.bind fun function t found => ?_
  have resolved := (ok_of_reading found).1
  exact enter_agrees agree types contexts (functions.of_resolve resolved) args t

theorem call_agrees (contexts : twin.Contexts context context')
    (functions : context.registry.Every declared)
    (name : String) {args : List (Node Slot)} (every : Node.EveryOf declared args) (s : State) :
    twin.Agrees id (Eval.call below context name args)
      (Eval.call below' context' name (args.map (Node.map twin.names.slot))) s := by
  unfold Eval.call
  cases Builtin.ofName? name with
  | some function => exact builtin_agrees agree function every s
  | none =>
    refine (values_agrees agree every s).bind fun values t _ => ?_
    refine (invoke_agrees agree types contexts functions name values t).bind fun result u _ => ?_
    cases result with
    | none => exact agrees_pure ()
    | some value => exact agrees_push value

theorem step_agrees (contexts : twin.Contexts context context')
    (functions : context.registry.Every declared) (turns : Nat) :
    twin.AgreesOn declared (Eval.step below context turns) (Eval.step below' context' turns) := by
  intro node s every
  cases node with
  | int n => exact agrees_produce (.int n)
  | bool b => exact agrees_produce (.bool b)
  | var name => exact (agrees_lookup name).bind fun place t _ => agrees_produce (.cell place)
  | index base position =>
    refine (value_agrees agree every.1 s).bind fun value t _ => ?_
    have viewed : twin.Agrees twin.names.ref (reading (·.heap.toArray value))
        (reading (·.heap.toArray (value.rename twin.names.ref))) t :=
      agrees_reading fun _ => twin.names.toArray t.heap value
    refine viewed.bind fun array u _ => ?_
    refine (int_agrees agree every.2 u).bind fun n w _ => ?_
    have found : twin.Agrees twin.names.ref (reading (·.heap.element array n))
        (reading (·.heap.element (twin.names.ref array) n)) w :=
      agrees_reading fun _ => twin.names.element w.heap array n
    exact found.bind fun place x _ => agrees_produce (.cell place)
  | arith op left right =>
    refine (int_agrees agree every.1 s).bind fun l t _ => ?_
    refine (int_agrees agree every.2 t).bind fun r u _ => ?_
    simp only [id]
    cases op.result? l r with
    | some n => exact agrees_produce (.int n)
    | none => exact agrees_fail _
  | logic op left right =>
    refine (truth_agrees agree every.1 s).bind fun l t _ => ?_
    simp only [id]
    cases op.decided? l with
    | some b => exact agrees_produce (.bool b)
    | none => exact (truth_agrees agree every.2 t).bind fun r u _ => agrees_produce (.bool r)
  | compare op left right =>
    refine (int_agrees agree every.1 s).bind fun l t _ => ?_
    exact (int_agrees agree every.2 t).bind fun r u _ => agrees_produce (.bool (op.holds l r))
  | not operand =>
    have inner : operand.Every declared := every
    exact (truth_agrees agree inner s).bind fun b t _ => agrees_produce (.bool !b)
  | assign target source =>
    refine (value_agrees agree every.1 s).bind fun place t _ => ?_
    cases place with
    | int n => exact agrees_fail _
    | bool b => exact agrees_fail _
    | cell place =>
      refine (value_agrees agree every.2 t).bind fun value u _ => ?_
      exact (agrees_assign place value).bind fun _ w _ => agrees_produce (.cell place)
  | call name args =>
    rw [Node.map_call]
    exact (call_agrees agree types contexts functions name every s).bind fun _ t _ =>
      agrees_pure Flow.completed
  | declare declaration =>
    exact (declare_agrees types every s).bind fun _ t _ => agrees_pure Flow.completed
  | block body =>
    rw [Node.map_block]
    have opened : twin.Agrees id (modify fun s => { s with env := s.env.pushScope })
        (modify fun s => { s with env := s.env.pushScope }) s := agrees_modify rfl fun _ => rfl
    refine opened.bind fun _ t _ => ?_
    refine Agrees.thenAlways (statements_agrees agree every t) (fun _ => rfl) fun u world => ?_
    simp only [state, Env.popScope_rename]
  | group body =>
    rw [Node.map_group]
    exact statements_agrees agree every s
  | branch condition yes no =>
    refine (truth_agrees agree every.1 s).bind fun holds t _ => ?_
    cases holds with
    | true => exact statement_agrees agree every.2.1 t
    | false =>
      cases no with
      | none => exact agrees_pure Flow.completed
      | some no => exact statement_agrees agree every.2.2 t
  | loop condition body => exact loop_agrees agree every.1 every.2 turns s
  | ret value =>
    cases value with
    | none => exact agrees_pure (Flow.returned none)
    | some result =>
      have inner : result.Every declared := every
      exact (value_agrees agree inner s).bind fun value t _ =>
        agrees_pure (Flow.returned (some value))

end calls

/-- If the types of declarations are found alike whenever nodes are evaluated alike, so are all
nodes, with any amount of fuel. -/
theorem eval_agrees {declared : Declaration Slot → Prop} {context context' : Context}
    (contexts : twin.Contexts context context') (functions : context.registry.Every declared)
    (types : ∀ fuel, twin.AgreesOn declared (eval context fuel) (eval context' fuel) →
      twin.TypesOn declared (eval context fuel) (eval context' fuel)) (fuel : Nat) :
    twin.AgreesOn declared (eval context fuel) (eval context' fuel) := by
  induction fuel with
  | zero => exact fun _ _ _ => trivial
  | succ fuel ih => exact step_agrees ih (types fuel ih) contexts functions fuel

end Twin

end TreeLang
