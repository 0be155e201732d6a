import TreeLang.Proofs.ArrayAssignment
import TreeLang.Proofs.ParameterBinding
import TreeLang.Proofs.Rerun

/-! How arguments get into parameters. All arguments of a call are evaluated before the first
parameter is bound. An argument that is a variable, an element or an assignment yields a cell, and a
parameter that is a number or a truth gets what the cell holds when its turn comes, whatever has been
written to it meanwhile. All other arguments yield scalars of their own, which nothing can change. -/
namespace TreeLang

/-! ### Scalars -/

/-- What a parameter of this tag is given by such contents, if it is a scalar. -/
def Tag.scalar? : Tag → Cell → Option Cell
  | int, given => given.number.toOption.map .int
  | bool, given => some (.bool given.isTrue)
  | _, _ => none

theorem Cell.taking_eq_scalar? {cell : Cell} (scalar : cell.tag = .int ∨ cell.tag = .bool) (given : Cell) :
    cell.taking given = cell.tag.scalar? given := by
  cases cell with
  | int n => rfl
  | bool b => rfl
  | array element elements => rcases scalar with _ | _ <;> contradiction

/-- Of two arrays a scalar gets the same: there is no number in either, and both are true. -/
theorem Tag.scalar?_of_array {kind inner other : Tag} {first second : Cell} (one : first.tag = .array inner)
    (two : second.tag = .array other) : kind.scalar? first = kind.scalar? second := by
  obtain ⟨_, _, rfl, -⟩ := Cell.eq_array_of_tag one
  obtain ⟨_, _, rfl, -⟩ := Cell.eq_array_of_tag two
  cases kind <;> rfl

theorem Node.everyOf_append {P : Declaration Slot → Prop} (front rest : List (Node Slot)) :
    Node.EveryOf P (front ++ rest) ↔ Node.EveryOf P front ∧ Node.EveryOf P rest := by
  induction front with
  | nil => simp [Node.EveryOf]
  | cons node front ih => simp only [List.cons_append, Node.EveryOf, ih, and_assoc]

theorem TypeSpec.lacks_of_scalar {spec : TypeSpec Slot} {kinds : List Kind}
    (scalar : spec.tag = .int ∨ spec.tag = .bool) : spec.Lacks kinds := by
  cases spec with
  | int => trivial
  | bool => trivial
  | void => trivial
  | array element size => rcases scalar with _ | _ <;> contradiction

namespace Heap

variable {heap later : Heap} {value : Value}

/-- The value is a scalar of its own, or an array. -/
def Detached (heap : Heap) (value : Value) : Prop :=
  (∀ ref, value ≠ .cell ref) ∨ ∃ inner, heap.tag value = .array inner

theorem detached_int (n : Int64) : heap.Detached (.int n) := by
  refine .inl fun ref same => ?_
  cases same

theorem detached_bool (b : Bool) : heap.Detached (.bool b) := by
  refine .inl fun ref same => ?_
  cases same

theorem Detached.scalar?_eq (detached : heap.Detached value) (keeps : heap.Keeps later)
    (existing : ∀ ref, value = .cell ref → ref.index < heap.size) (kind : Tag) :
    kind.scalar? (later.held value) = kind.scalar? (heap.held value) := by
  rcases detached with own | ⟨inner, array⟩
  · cases value with
    | int n => rfl
    | bool b => rfl
    | cell ref => exact absurd rfl (own ref)
  · have still : later.tag value = .array inner := (keeps.tag_of_inside existing).trans array
    rw [← tag_held] at array still
    exact Tag.scalar?_of_array still array

/-- The later heap has the cells of the earlier one as they were. -/
structure Extended (heap later : Heap) : Prop where
  size : heap.size ≤ later.size
  old : ∀ ref, ref.index < heap.size → later.get ref = heap.get ref

theorem Extended.refl (heap : Heap) : heap.Extended heap := ⟨Nat.le_refl _, fun _ _ => rfl⟩

theorem Extended.trans {mid : Heap} (first : heap.Extended mid) (second : mid.Extended later) : heap.Extended later :=
  ⟨Nat.le_trans first.size second.size, fun ref inside =>
    (second.old ref (Nat.lt_of_lt_of_le inside first.size)).trans (first.old ref inside)⟩

theorem held_of_old (same : ∀ ref, value = .cell ref → later.get ref = heap.get ref) :
    later.held value = heap.held value := by
  cases value with
  | int n => rfl
  | bool b => rfl
  | cell ref => exact same ref rfl

end Heap

/-! ### Parameters -/

theorem Env.declare_ok {env later : Env} {name : String} {ref : Ref} (declared : env.declare name ref = .ok later) :
    later = env.gain name ref := by
  cases known : env.inner.find? name with
  | some other => simp [declare, Scope.declare, known, Except.map] at declared
  | none =>
    rw [declare_of_new known] at declared
    exact (Except.ok.inj declared).symm

namespace Eval

open Exec

variable {below : Evaluator} {context : Context} {fuel : Nat} {s t u : State} {node : Node Slot}
  {front rest : List (Node Slot)} {param : Declaration Slot} {before params : List (Declaration Slot)}
  {arg : Value} {all args firsts others : List Value}

/-- All that happens when a parameter is bound. -/
theorem bindParam_ok (bound : bindParam below (param, arg) s = .ok () t) :
    ∃ ty u cell, typeOf below param s = .ok ty u ∧ ty.fault? = none ∧
      (u.heap.alloc ty).2.written (u.heap.alloc ty).1 arg = .ok cell ∧
      t.heap = (u.heap.alloc ty).2.put (u.heap.alloc ty).1 cell ∧
      t.env = u.env.gain param.name (u.heap.alloc ty).1 := by
  obtain ⟨_, w, declared, bound⟩ := ok_of_bind bound
  obtain ⟨ty, u, typed, declared⟩ := ok_of_bind declared
  obtain ⟨ref, v, made, named⟩ := ok_of_bind declared
  obtain ⟨place, x, found, assigned⟩ := ok_of_bind bound
  cases sound : ty.fault? with
  | some failure => simp [newCell, sound] at made
  | none =>
    simp only [newCell, sound, Outcome.ok.injEq] at made
    obtain ⟨rfl, rfl⟩ := made
    cases entered : u.env.declare param.name (u.heap.alloc ty).1 with
    | error failure => simp [bindName, entered] at named
    | ok env =>
      simp only [bindName, entered, Outcome.ok.injEq, true_and] at named
      subst named
      cases Env.declare_ok entered
      simp only [lookup, reading, Env.lookup_gain, Outcome.ok.injEq] at found
      obtain ⟨rfl, rfl⟩ := found
      cases written : (u.heap.alloc ty).2.written (u.heap.alloc ty).1 arg with
      | error failure => simp [assign, written] at assigned
      | ok cell =>
        simp only [assign, written, Outcome.ok.injEq, true_and] at assigned
        subst assigned
        exact ⟨ty, u, cell, typed, sound, written, rfl, rfl⟩

/-- Where no length calls or assigns, nothing is written when a type is worked out. -/
theorem typeOf_heap {ty : Ty} (lacks : param.ty.Lacks [.call, .assign])
    (typed : typeOf (eval context fuel) param s = .ok ty u) : u.heap = s.heap := by
  cases settled : s.resolved.get? param.note with
  | some known =>
    rw [typeOf_of_some settled] at typed
    cases typed
    rfl
  | none =>
    rw [typeOf_of_none settled] at typed
    obtain ⟨found, w, resolved, settling⟩ := ok_of_bind typed
    cases settling
    rw [resolve_idle context fuel lacks s found w resolved]

/-- Then only new cells are written to when the parameter is bound. -/
theorem bindParam_old (lacks : param.ty.Lacks [.call, .assign])
    (bound : bindParam (eval context fuel) (param, arg) s = .ok () t) : s.heap.Extended t.heap := by
  obtain ⟨ty, u, cell, typed, sound, -, heap, -⟩ := bindParam_ok bound
  have same := typeOf_heap lacks typed
  obtain ⟨grown, fresh⟩ := Heap.alloc_grown ty u.heap sound
  rw [← same]
  refine ⟨?_, fun ref inside => ?_⟩
  · rw [heap, Heap.size_put]
    exact grown.size
  · have apart : ref ≠ (u.heap.alloc ty).1 := by
      rintro rfl
      have := fresh.lower
      omega
    rw [heap, Heap.get_put_of_ne apart, grown.old ref inside]

theorem bindParams_old (lacks : ∀ param ∈ params, param.ty.Lacks [.call, .assign])
    (bound : bindParams (eval context fuel) params args s = .ok () t) : s.heap.Extended t.heap := by
  induction params generalizing args s with
  | nil =>
    rw [bindParams_nil] at bound
    cases bound
    exact .refl _
  | cons param params ih =>
    cases args with
    | nil =>
      cases bound
      exact .refl _
    | cons arg args =>
      rw [bindParams_cons] at bound
      obtain ⟨_, u, first, bound⟩ := ok_of_bind bound
      have others := ih (fun other member => lacks other (List.mem_cons_of_mem _ member)) bound
      exact (bindParam_old (lacks param List.mem_cons_self) first).trans others

/-- A parameter that is a scalar gets what the argument holds before its turn. -/
theorem bindParam_scalar (scalar : param.ty.tag = .int ∨ param.ty.tag = .bool)
    (tagged : ∀ ty u, typeOf (eval context fuel) param s = .ok ty u → ty.tag = param.ty.tag)
    (existing : ∀ ref, arg = .cell ref → ref.index < s.heap.size)
    (bound : bindParam (eval context fuel) (param, arg) s = .ok () t) :
    ∃ ref, t.env.lookup param.name = .ok ref ∧
      param.ty.tag.scalar? (s.heap.held arg) = some (t.heap.get ref) := by
  obtain ⟨ty, u, cell, typed, sound, written, heap, env⟩ := bindParam_ok bound
  have same := typeOf_heap (TypeSpec.lacks_of_scalar scalar) typed
  obtain ⟨grown, fresh⟩ := Heap.alloc_grown ty u.heap sound
  have kind : ((u.heap.alloc ty).2.get (u.heap.alloc ty).1).tag = param.ty.tag := fresh.tag.trans (tagged ty u typed)
  have held : (u.heap.alloc ty).2.held arg = s.heap.held arg := by
    rw [← same]
    exact Heap.held_of_old fun ref given => grown.old ref (same ▸ existing ref given)
  refine ⟨(u.heap.alloc ty).1, by rw [env, Env.lookup_gain], ?_⟩
  rw [heap, Heap.get_put_self fresh.upper, ← held, ← kind, ← Cell.taking_eq_scalar? (kind ▸ scalar),
    ← Heap.written_eq_taking, written]
  rfl

/-- The arguments before one, that argument, and those after it. -/
theorem values_split (evaluated : values below (front ++ node :: rest) s = .ok all t) :
    ∃ firsts start first own others, values below front s = .ok firsts start ∧
      value below node start = .ok first own ∧ values below rest own = .ok others t ∧
      all = firsts ++ first :: others ∧ firsts.length = front.length := by
  induction front generalizing s all with
  | nil =>
    obtain ⟨first, own, valued, evaluated⟩ := ok_of_bind evaluated
    obtain ⟨others, u, last, done⟩ := ok_of_bind evaluated
    cases done
    exact ⟨[], s, first, own, others, rfl, valued, last, rfl, rfl⟩
  | cons head front ih =>
    obtain ⟨leading, u, valued, evaluated⟩ := ok_of_bind evaluated
    obtain ⟨remaining, w, evaluated, done⟩ := ok_of_bind evaluated
    cases done
    obtain ⟨firsts, start, first, own, others, earlier, here, last, rfl, count⟩ := ih evaluated
    refine ⟨leading :: firsts, start, first, own, others, ?_, here, last, rfl, by simp [count]⟩
    rw [values, bind_of_ok valued, bind_of_ok earlier]
    rfl

/-- The turn of a parameter comes after those before it. -/
theorem bindParams_split (count : before.length = firsts.length)
    (bound : bindParams below (before ++ [param]) (firsts ++ arg :: others) s = .ok () t) :
    ∃ u, bindParams below before (firsts ++ arg :: others) s = .ok () u ∧
      bindParam below (param, arg) u = .ok () t := by
  induction before generalizing firsts s with
  | nil =>
    obtain rfl : firsts = [] := List.length_eq_zero_iff.mp count.symm
    rw [List.nil_append, List.nil_append, bindParams_cons] at bound
    obtain ⟨_, u, first, bound⟩ := ok_of_bind bound
    rw [bindParams_nil] at bound
    cases bound
    exact ⟨s, rfl, first⟩
  | cons head before ih =>
    cases firsts with
    | nil => contradiction
    | cons leading firsts =>
      rw [List.cons_append, List.cons_append, bindParams_cons] at bound
      obtain ⟨_, u, first, bound⟩ := ok_of_bind bound
      obtain ⟨w, earlier, last⟩ := ih (Nat.succ.inj count) bound
      refine ⟨w, ?_, last⟩
      rw [List.cons_append, bindParams_cons, bind_of_ok first]
      exact earlier

theorem values_idle (lacks : ∀ node ∈ rest, node.Lacks [.call, .assign]) : (values (eval context fuel) rest).Idle := by
  induction rest with
  | nil => exact idle_pure _
  | cons node rest ih =>
    refine (value_idle context fuel (lacks node List.mem_cons_self)).bind fun first => ?_
    refine (ih fun other member => lacks other (List.mem_cons_of_mem _ member)).bind fun others => ?_
    exact idle_pure _

/-! ### Results that nothing can change -/

/-- A value that has been left on the stack is detached. -/
def LeavesDetached (s t : State) : Prop :=
  ∀ value, t.stack = s.stack.push value → t.heap.Detached value

theorem leavesDetached_of_level (stack : t.stack = s.stack) : LeavesDetached s t := by
  intro value left
  have pushed : s.stack = s.stack.withResult (some value) := stack.symm.trans left
  cases withResult_eq_self pushed

theorem leavesDetached_of_push (stack : t.stack = s.stack) (detached : t.heap.Detached arg) :
    LeavesDetached s { t with stack := t.stack.push arg } := by
  intro value left
  have pushed : t.stack.push arg = s.stack.withResult (some value) := left
  rw [stack] at pushed
  cases withResult_eq_push pushed
  exact detached

theorem checkReturn_detached {heap : Heap} {function : FunctionDef Slot} {returned : Option Value}
    (checked : checkReturn heap function returned = .ok (some arg)) : heap.Detached arg := by
  unfold checkReturn at checked
  split at checked
  next => cases checked
  next => contradiction
  next => contradiction
  next =>
    split at checked
    · cases checked
      exact Heap.detached_int _
    · contradiction
  next =>
    split at checked
    · contradiction
    · cases checked
      exact Heap.detached_bool _
  next value element size returns =>
    split at checked
    next same =>
      cases checked
      exact .inr ⟨element.tag, same⟩
    · contradiction

/-- A function returns a scalar of its own or an array. -/
theorem invoke_detached (name : String) (args : List Value) :
    (invoke below context name args).Ends s (fun result t => ∀ value, result = some value → t.heap.Detached value)
      fun _ => True := by
  refine invoke_ends trivial fun function => enter_ends trivial (Ends.thenAlways ?_)
  refine Ends.bind (ends_anyhow _ _) fun _ t _ => ?_
  refine ends_modify_bind (Ends.bind (ends_anyhow _ _) fun flow u _ => ?_)
  cases flow with
  | returned returned =>
    refine ends_reading (fun result checked => ?_) trivial
    rintro value rfl
    exact checkReturn_detached checked
  | completed =>
    by_cases void : function.returns.isVoid
    · simp only [finish, if_pos void]
      refine ends_pure fun value impossible => ?_
      cases impossible
    · simp only [finish, if_neg void]
      exact ends_fail trivial

theorem call_detached (name : String) (nodes : List (Node Slot)) :
    (call (eval context fuel) context name nodes).Ends s (fun _ => LeavesDetached s) fun _ => True := by
  have sound := Law.bare_sound context fuel
  have every : Node.EveryOf Law.bare.declared nodes := Node.everyOf_of_forall (fun _ => trivial) nodes
  unfold call
  cases Builtin.ofName? name with
  | some function =>
    refine Ends.mono (Law.builtin_yields sound every trivial) (fun _ t ended => ?_) fun _ _ => trivial
    exact leavesDetached_of_level ended.1.stack
  | none =>
    refine (Law.values_yields sound every trivial).bindEnds fun values t valued _ => ?_
    have functions : context.registry.Every Law.bare.declared := context.registry.every_of_forall fun _ => trivial
    refine Ends.bind (Ends.mono (Ends.and (Law.invoke_yields sound functions trivial fun _ _ => trivial)
      (invoke_detached name values)) (fun _ _ ended => ended) fun _ _ => trivial) ?_
    rintro result u ⟨⟨called, -⟩, detached⟩
    have stack : u.stack = s.stack := called.stack.trans valued.stack
    cases result with
    | none => exact ends_pure (leavesDetached_of_level stack)
    | some value => exact leavesDetached_of_push stack (detached value rfl)

/-- The kinds of nodes that yield a cell of the heap. -/
def placing : List Kind := [.var, .index, .assign]

theorem step_detached (turns : Nat) (other : node.kind ∉ placing) :
    (step (eval context fuel) context turns node).Ends s (fun _ => LeavesDetached s) fun _ => True := by
  have sound := Law.bare_sound context fuel
  have every (part : Node Slot) : part.Every Law.bare.declared := part.every_of_forall fun _ => trivial
  have functions : context.registry.Every Law.bare.declared := context.registry.every_of_forall fun _ => trivial
  have statement (none : node.leavesValue? = some false) :
      (step (eval context fuel) context turns node).Ends s (fun _ => LeavesDetached s) fun _ => True := by
    refine Ends.mono (Law.step_sound sound functions node s (every node) trivial) (fun flow t after => ?_)
      fun _ _ => trivial
    cases flow with
    | returned value => exact leavesDetached_of_level after.1.stack
    | completed =>
      obtain ⟨result, leaves, count⟩ := after
      cases result with
      | none => exact leavesDetached_of_level leaves.stack
      | some value => cases count false none
  cases node with
  | int n => exact leavesDetached_of_push rfl (Heap.detached_int n)
  | bool b => exact leavesDetached_of_push rfl (Heap.detached_bool b)
  | var name => simp [placing, Node.kind] at other
  | index base position => simp [placing, Node.kind] at other
  | assign target source => simp [placing, Node.kind] at other
  | arith op left right =>
    refine (Law.int_yields sound (every left) trivial).bindEnds fun l t first _ => ?_
    refine (Law.int_yields sound (every right) trivial).bindEnds fun r u second _ => ?_
    cases op.result? l r with
    | some n => exact leavesDetached_of_push (second.stack.trans first.stack) (Heap.detached_int n)
    | none => exact ends_fail trivial
  | logic op left right =>
    refine (Law.truth_yields sound (every left) trivial).bindEnds fun l t first _ => ?_
    cases op.decided? l with
    | some b => exact leavesDetached_of_push first.stack (Heap.detached_bool _)
    | none =>
      refine (Law.truth_yields sound (every right) trivial).bindEnds fun r u second _ => ?_
      exact leavesDetached_of_push (second.stack.trans first.stack) (Heap.detached_bool _)
  | compare op left right =>
    refine (Law.int_yields sound (every left) trivial).bindEnds fun l t first _ => ?_
    refine (Law.int_yields sound (every right) trivial).bindEnds fun r u second _ => ?_
    exact leavesDetached_of_push (second.stack.trans first.stack) (Heap.detached_bool _)
  | not operand =>
    refine (Law.truth_yields sound (every operand) trivial).bindEnds fun b t first _ => ?_
    exact leavesDetached_of_push first.stack (Heap.detached_bool _)
  | call name nodes => exact Ends.bind (call_detached name nodes) fun _ t detached => ends_pure detached
  | declare declaration => exact statement rfl
  | block body => exact statement rfl
  | group body => exact statement rfl
  | branch condition yes no => exact statement rfl
  | loop condition body => exact statement rfl
  | ret result =>
    cases result with
    | none => exact ends_pure (leavesDetached_of_level rfl)
    | some operand =>
      refine (Law.value_yields sound (every operand) trivial).bindEnds fun value t steady _ => ?_
      exact ends_pure (leavesDetached_of_level steady.stack)

theorem value_detached (other : node.kind ∉ placing) (valued : value (eval context fuel) node s = .ok arg t) :
    t.heap.Detached arg := by
  obtain ⟨u, completed, top, rfl⟩ :=
    Law.value_ok (Law.bare_sound context fuel) (node.every_of_forall fun _ => trivial) trivial valued
  cases fuel with
  | zero => contradiction
  | succ fuel => exact (step_detached fuel other).ok_of_eq completed arg top

end Eval

/-! ### Calls -/

theorem Forest.tag_of_typeOf {forest : Forest} {planted : forest.Sound} {below : Evaluator}
    (sound : (forest.binding planted).Sound below) {param : Declaration Slot} {s u : State} {ty : Ty}
    (every : param.Every (forest.binding planted).declared) (inv : (forest.binding planted).inv s)
    (typed : Eval.typeOf below param s = .ok ty u) : ty.tag = param.ty.tag := by
  have member : param ∈ forest.declarations := every.parts.2.2
  exact ((Law.typeOf_yields_fitting sound every inv fun inv settled =>
    inv.2 param member _ settled).ok_of_eq typed).2.1

namespace Interpreter

variable {interpreter : Interpreter} {forest : Forest} {context : Context} {moment : Moment}

/-- The value of an argument is no cell, or one that exists. -/
theorem Inhabits.existing_value (inhabits : interpreter.Inhabits forest)
    (passes : interpreter.PassesOn (· ∈ forest.declarations) context moment) {fuel : Nat} {front : List (Node Slot)}
    {node : Node Slot} {firsts : List Value} {start own : State} {value : Value}
    (first : Eval.values (eval context fuel) front moment.state = .ok firsts start)
    (valued : Eval.value (eval context fuel) node start = .ok value own) :
    ∀ ref, value = .cell ref → ref.index < own.heap.size := by
  obtain ⟨resolved, reachable⟩ := inhabits.reachable
  have inv : (Law.storage moment.callers).inv moment.state :=
    Watch.storage.holds_of_interpreter_passes reachable.tidy passes.passes
  have sound : (Law.storage moment.callers).Sound (eval context fuel) :=
    Law.sound_of_forall (fun _ => trivial) context fuel
  have started := (Law.values_yields sound (Node.everyOf_of_forall (fun _ => trivial) front) inv).ok_of_eq first
  exact ((Law.value_yields sound (node.every_of_forall fun _ => trivial) started.1.inv).ok_of_eq valued).2

/-- Whatever has been reached, and whatever call is evaluated there whose arguments have values. When a
parameter that is a number or a truth has had its turn, it has what its argument holds just before.
This is what the argument held when it was evaluated, unless the argument is a variable, an element
or an assignment, and a later argument, or a length in the type of an earlier parameter, calls or
assigns. -/
theorem Inhabits.arguments_passed (inhabits : interpreter.Inhabits forest)
    (passes : interpreter.PassesOn (· ∈ forest.declarations) context moment) (name : String)
    {args : List (Node Slot)} (every : Node.EveryOf (· ∈ forest.declarations) args) {fuel : Nat}
    {values : List Value} {t : State} (evaluated : Eval.values (eval context fuel) args moment.state = .ok values t)
    {function : FunctionDef Slot}
    (resolved : context.registry.resolve (signature name (values.map t.heap.tag)) = .ok function) :
    let below := eval context fuel
    let entered := { t with env := .empty, depth := t.depth + 1 }
    ∀ (front rest : List (Node Slot)) (node : Node Slot) (before after : List (Declaration Slot))
        (param : Declaration Slot) (later : State), args = front ++ node :: rest →
      function.params = before ++ param :: after → before.length = front.length →
      param.ty.tag = .int ∨ param.ty.tag = .bool →
      Eval.bindParams below (before ++ [param]) values entered = .ok () later →
      ∃ firsts start value own earlier ref, Eval.values below front moment.state = .ok firsts start ∧
        Eval.value below node start = .ok value own ∧ values[front.length]? = some value ∧
        Eval.bindParams below before values entered = .ok () earlier ∧ later.env.lookup param.name = .ok ref ∧
        param.ty.tag.scalar? (earlier.heap.held value) = some (later.heap.get ref) ∧
        (node.kind ∉ Eval.placing ∨ (∀ other ∈ rest, other.Lacks [.call, .assign]) ∧
            (∀ other ∈ before, other.ty.Lacks [.call, .assign]) →
          param.ty.tag.scalar? (own.heap.held value) = some (later.heap.get ref)) := by
  rintro below entered front rest node before after param later rfl params position scalar bound
  have planted := (Forest.sound_empty.steps inhabits.grown).1
  have functions := passes.every inhabits.functions
  have sound : (forest.binding planted).Sound below := (forest.guard planted).sound functions [] fuel
  obtain ⟨firsts, start, value, own, others, first, valued, last, rfl, count⟩ := Eval.values_split evaluated
  obtain ⟨earlier, front, turn⟩ := Eval.bindParams_split (position.trans count.symm) bound
  have existing := inhabits.existing_value passes first valued
  rw [← Forest.declared_binding planted, Node.everyOf_append] at every
  have started := ((Law.values_yields sound every.1 (inhabits.binding_at planted passes)).ok_of_eq first).1
  have steady := ((Law.value_yields sound every.2.1 started.inv).ok_of_eq valued).1
  have done := ((Law.values_yields sound every.2.2 steady.inv).ok_of_eq last).1
  have declared : ∀ other ∈ before ++ param :: after, other.Every (forest.binding planted).declared := by
    rw [Forest.declared_binding, ← params]
    exact (functions.of_resolve resolved).params
  have level := ((Law.bindParams_runs sound (fun other member => declared other (List.mem_append_left _ member))
    ((forest.binding planted).enterCall done.inv) fun _ _ => ⟨trivial, trivial⟩).ok_of_eq front).1
  have keeps : own.heap.Keeps earlier.heap := done.rel.1.trans level.rel.1
  obtain ⟨ref, named, given⟩ := Eval.bindParam_scalar scalar
    (fun _ _ typed => Forest.tag_of_typeOf sound (declared param (by simp)) level.inv typed)
    (fun ref cell => Nat.lt_of_lt_of_le (existing ref cell) keeps.size) turn
  refine ⟨firsts, start, value, own, earlier, ref, first, valued, ?_, front, named, given, ?_⟩
  · rw [← count, List.getElem?_append_right (Nat.le_refl _), Nat.sub_self]
    rfl
  · rintro (other | ⟨quiet, plain⟩)
    · rw [← (Eval.value_detached other valued).scalar?_eq keeps existing]
      exact given
    · have same : t = own := Eval.values_idle quiet own others t last
      have old : entered.heap.Extended earlier.heap := Eval.bindParams_old plain front
      change t.heap.Extended earlier.heap at old
      rw [same] at old
      have held : earlier.heap.held value = own.heap.held value :=
        Heap.held_of_old fun ref cell => old.old ref (existing ref cell)
      rw [← held]
      exact given

def lent : Program Unit where
  functions := [⟨"f", [⟨"a", .int, ()⟩, ⟨"b", .int, ()⟩], [.call "print" [.var "a"]], .void⟩]

def lentForest : Forest where
  declarations := [⟨"a", .int, ⟨0⟩⟩, ⟨"b", .int, ⟨1⟩⟩]
  resolved := { types := #[none, none] }

/-- A function that prints the first of two numbers. -/
def printer : FunctionDef Slot := ⟨"f", lentForest.declarations, [.call "print" [.var "a"]], .void⟩

/-- The function has been loaded, and there is a variable that is 1. -/
def lender : Interpreter where
  context := { registry := { entries := [("f_int_int", printer)] }, maxCallDepth := 5 }
  state := {
    heap := { cells := #[.int 1] }
    resolved := lentForest.resolved
    env := { inner := { bindings := [("n", ⟨0⟩)] } } }

theorem lender_reachable : lender.Reachable := by
  have loaded := ((Reachable.start {} 5).placeProgram lent).step (.load ⟨[printer]⟩)
  have declared := loaded.step (.evaluate 3 (.declare ⟨"n", .int, ⟨2⟩⟩))
  exact declared.step (.evalExpr 3 (.assign (.var "n") (.int 1)))

theorem lender_inhabits : lender.Inhabits lentForest where
  reachable := ⟨lentForest.resolved, lender_reachable⟩
  grown := .single (.program lent)
  types := rfl
  functions := by
    intro entry listed
    cases List.mem_singleton.mp listed
    exact FunctionDef.every_iff.mpr fun d member => member

/-- The variable has become 9. -/
def lending : State := { lender.state with heap := { cells := #[.int 9] } }

/-- Then the function has been entered and its parameters bound. -/
def borrowing (a b : Int64) : State where
  heap := { cells := #[.int 9, .int a, .int b] }
  resolved := { types := #[some .int, some .int] }
  env := { inner := { bindings := [("b", ⟨2⟩), ("a", ⟨1⟩)] } }
  depth := 1

/-- The variable is passed while a later argument assigns to it. It was 1 when it was evaluated, and 9
is what the parameter gets. The left operand of a sum, in contrast, keeps its value. -/
theorem lender_passes_later_value :
    let below := eval lender.context 4
    let changing : Node Slot := .assign (.var "n") (.int 9)
    lender.Reachable ∧
    Eval.value below (.var "n") lender.state = .ok (.cell ⟨0⟩) lender.state ∧
    lender.state.heap.held (.cell ⟨0⟩) = .int 1 ∧
    Eval.values below [.var "n", changing] lender.state = .ok [.cell ⟨0⟩, .cell ⟨0⟩] lending ∧
    lender.context.registry.resolve (signature "f" ([Value.cell ⟨0⟩, .cell ⟨0⟩].map lending.heap.tag)) = .ok printer ∧
    Eval.bindParams below printer.params [.cell ⟨0⟩, .cell ⟨0⟩] { lending with env := .empty, depth := 1 } =
      .ok () (borrowing 9 9) ∧
    (borrowing 9 9).env.lookup "a" = .ok ⟨1⟩ ∧ (borrowing 9 9).heap.get ⟨1⟩ = .int 9 ∧
    Eval.int below (.arith .add (.var "n") changing) lender.state = .ok 10 lending := by
  intro below changing
  refine ⟨lender_reachable, rfl, rfl, ?_, rfl, ?_, rfl, rfl, ?_⟩
  · decide +kernel
  · decide +kernel
  · decide +kernel

/-- A sum is passed in place of the variable, and nothing that a later argument does can change it. -/
theorem Inhabits.arguments_passed_sum :
    let below := eval lender.context 4
    let sum : Node Slot := .arith .add (.var "n") (.int 0)
    let later : State := {
      heap := { cells := #[.int 9, .int 1] }
      resolved := { types := #[some .int, none] }
      env := { inner := { bindings := [("a", ⟨1⟩)] } }
      depth := 1 }
    Eval.values below [sum, .assign (.var "n") (.int 9)] lender.state = .ok [.int 1, .cell ⟨0⟩] lending ∧
    Eval.bindParams below [⟨"a", .int, ⟨0⟩⟩] [.int 1, .cell ⟨0⟩] { lending with env := .empty, depth := 1 } =
      .ok () later ∧
    ∃ ref, later.env.lookup "a" = .ok ref ∧ later.heap.get ref = .int 1 := by
  intro below sum later
  have every : Node.EveryOf (· ∈ lentForest.declarations) [sum, .assign (.var "n") (.int 9)] := by
    simp [Node.EveryOf, Node.Every, sum]
  have evaluated : Eval.values below [sum, .assign (.var "n") (.int 9)] lender.state =
      .ok [.int 1, .cell ⟨0⟩] lending := by
    decide +kernel
  have bound : Eval.bindParams below [⟨"a", .int, ⟨0⟩⟩] [.int 1, .cell ⟨0⟩]
      { lending with env := .empty, depth := 1 } = .ok () later := by
    decide +kernel
  obtain ⟨_, _, value, own, _, ref, -, -, given, -, named, -, kept⟩ :=
    Inhabits.arguments_passed lender_inhabits .idle "f" every evaluated rfl [] [.assign (.var "n") (.int 9)] sum []
      [⟨"b", .int, ⟨1⟩⟩] ⟨"a", .int, ⟨0⟩⟩ later rfl rfl rfl (.inl rfl) bound
  cases given
  exact ⟨evaluated, bound, ref, named, (Option.some.inj (kept (.inl (by decide)))).symm⟩

end Interpreter

end TreeLang
