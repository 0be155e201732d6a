import TreeLang.Proofs.HeapWalks
import TreeLang.Proofs.Moments
import TreeLang.Proofs.Parts

/-! Evaluation ends where nothing loops. Every rule goes down to parts of smaller height; a call
starts again at the height of some function, but each call that is entered uses up one of those
that may still be nested. So the height of a node and of the functions, and the number of calls
to go, tell beforehand how much fuel is enough, however the functions call each other. -/
namespace TreeLang

namespace Exec

variable {α β : Type} {depth : Nat}

/-- At this depth of calls the action ends, and where it succeeds it is at the same depth again. -/
def Halts (action : Exec α) (depth : Nat) : Prop :=
  ∀ s, s.depth = depth → match action s with
    | .ok _ t => t.depth = depth
    | .error _ _ => True
    | .outOfFuel => False

theorem Halts.ne_outOfFuel {action : Exec α} {s : State} (halts : action.Halts s.depth) :
    action s ≠ .outOfFuel := by
  intro outcome
  have ended := halts s rfl
  rw [outcome] at ended
  exact ended

theorem Halts.bind {first : Exec α} {next : α → Exec β} (halts : first.Halts depth)
    (after : ∀ value, (next value).Halts depth) : (first >>= next).Halts depth := by
  intro s here
  have ended := halts s here
  cases outcome : first s with
  | ok value t =>
    rw [outcome] at ended
    rw [bind_of_ok outcome]
    exact after value t ended
  | error failure t =>
    rw [bind_of_error outcome]
    trivial
  | outOfFuel =>
    rw [outcome] at ended
    contradiction

theorem halts_pure (value : α) : (pure value : Exec α).Halts depth := fun _ here => here

theorem halts_fail (failure : Failure) : (fail failure : Exec α).Halts depth := fun _ _ => trivial

theorem halts_modify {change : State → State} (level : ∀ s, (change s).depth = s.depth) :
    (modify change).Halts depth := fun s here => (level s).trans here

theorem Finishes.halts {action : Exec α} (finishes : action.Finishes)
    (level : ∀ s, action.Ends s (fun _ t => t.depth = s.depth) fun _ => True) :
    action.Halts depth := by
  intro s here
  cases outcome : action s with
  | ok value t => exact ((level s).ok_of_eq outcome).trans here
  | error failure t => trivial
  | outOfFuel => exact finishes s outcome

theorem halts_reading (query : State → Except Failure α) : (reading query).Halts depth :=
  (reading_finishes query).halts fun _ => ends_reading (fun _ _ => rfl) trivial

theorem Halts.thenAlways {action : Exec α} {change : State → State} (halts : action.Halts depth)
    (level : ∀ s, (change s).depth = s.depth) : (action.thenAlways change).Halts depth := by
  intro s here
  have ended := halts s here
  unfold Exec.thenAlways
  cases outcome : action s with
  | ok value t =>
    rw [outcome] at ended
    exact (level t).trans ended
  | error failure t => trivial
  | outOfFuel =>
    rw [outcome] at ended
    exact ended

theorem halts_pop : pop.Halts depth := by
  intro s here
  unfold pop
  cases s.stack.pop with
  | ok popped => exact here
  | error failure => trivial

theorem halts_assign (target : Ref) (value : Value) : (assign target value).Halts depth := by
  refine (assign_finishes target value).halts fun s => ?_
  unfold Ends assign
  cases s.heap.written target value with
  | ok cell => rfl
  | error failure => trivial

theorem halts_newCell (ty : Ty) : (newCell ty).Halts depth := by
  intro s here
  unfold newCell
  cases ty.fault? with
  | some failure => trivial
  | none => exact here

theorem halts_bindName (name : String) (ref : Ref) : (bindName name ref).Halts depth := by
  intro s here
  unfold bindName
  cases s.env.declare name ref with
  | ok env => exact here
  | error failure => trivial

theorem halts_readInto (cell : Ref) : (readInto cell).Halts depth := by
  refine (readInto_finishes cell).halts fun s => ?_
  have yields : Law.control.Yields (readInto cell) s fun _ _ => True :=
    Law.yields_readInto cell trivial trivial
  exact Ends.mono yields (fun _ _ ended => ended.1.rel.1) fun _ _ => trivial

end Exec

/-! ### Functions -/

section functions

variable {δ : Type}

/-- No node of these kinds is in the body or in a length of a parameter. The type that is
returned is left out, since its lengths are never evaluated. -/
structure FunctionDef.Lacks (kinds : List Kind) (function : FunctionDef δ) : Prop where
  params : ∀ param ∈ function.params, param.ty.Lacks kinds
  body : Node.LacksOf kinds function.body

def Registry.Lacks (kinds : List Kind) (registry : Registry δ) : Prop :=
  ∀ entry ∈ registry.entries, entry.2.Lacks kinds

/-- What a function evaluates: the lengths of its parameters and its body. -/
def FunctionDef.parts (function : FunctionDef δ) : List (Node δ) :=
  function.params.flatMap (·.ty.lengths) ++ function.body

def Registry.height (registry : Registry δ) : Nat :=
  Node.heightOf (registry.entries.flatMap (·.2.parts))

theorem FunctionDef.Lacks.of_part {kinds : List Kind} {function : FunctionDef δ} {node : Node δ}
    (lacks : function.Lacks kinds) (member : node ∈ function.parts) : node.Lacks kinds := by
  rcases List.mem_append.mp member with size | statement
  · obtain ⟨param, listed, inside⟩ := List.mem_flatMap.mp size
    exact (lacks.params param listed).of_length inside
  · exact lacks.body.of_mem statement

end functions

/-! ### The rules -/

namespace Eval

open Exec

variable {below : Evaluator} {context : Context} {depth : Nat} {node : Node Slot}

theorem value_halts (halts : (below node).Halts depth) : (value below node).Halts depth := by
  refine (halts_reading _).bind fun before => halts.bind fun flow => ?_
  cases flow with
  | returned value => exact halts_fail _
  | completed =>
    refine (halts_reading _).bind fun after => ?_
    by_cases more : before < after
    · simp only [if_pos more]
      exact halts_pop
    · simp only [if_neg more]
      exact halts_fail _

theorem int_halts (halts : (below node).Halts depth) : (int below node).Halts depth :=
  (value_halts halts).bind fun _ => halts_reading _

theorem truth_halts (halts : (below node).Halts depth) : (truth below node).Halts depth :=
  (value_halts halts).bind fun _ => halts_reading _

theorem statement_halts (halts : (below node).Halts depth) : (statement below node).Halts depth :=
  (halts_reading _).bind fun _ => halts.bind fun flow =>
    Halts.bind (halts_modify fun _ => rfl) fun _ => halts_pure flow

theorem statements_halts {body : List (Node Slot)}
    (halts : ∀ node ∈ body, (below node).Halts depth) :
    (statements below body).Halts depth := by
  induction body with
  | nil => exact halts_pure _
  | cons node rest ih =>
    refine (statement_halts (halts node (by simp))).bind fun flow => ?_
    cases flow with
    | returned value => exact halts_pure _
    | completed => exact ih fun other member => halts other (by simp [member])

theorem values_halts {args : List (Node Slot)} (halts : ∀ node ∈ args, (below node).Halts depth) :
    (values below args).Halts depth := by
  induction args with
  | nil => exact halts_pure _
  | cons node rest ih =>
    refine (value_halts (halts node (by simp))).bind fun first => ?_
    exact (ih fun other member => halts other (by simp [member])).bind fun others => halts_pure _

theorem resolve_halts :
    ∀ {spec : TypeSpec Slot}, (∀ size ∈ spec.lengths, (below size).Halts depth) →
    (resolve below spec).Halts depth
  | .int, _ => halts_pure _
  | .bool, _ => halts_pure _
  | .void, _ => halts_pure _
  | .array element size, halts => by
    rw [resolve]
    refine (int_halts (halts size List.mem_cons_self)).bind fun n => ?_
    by_cases positive : 0 < n
    · rw [if_pos positive]
      have inner : (resolve below element).Halts depth :=
        resolve_halts fun other member => halts other (List.mem_cons_of_mem _ member)
      exact inner.bind fun ty => halts_pure _
    · rw [if_neg positive]
      exact halts_fail _
termination_by structural spec => spec

theorem declare_halts {declaration : Declaration Slot}
    (halts : ∀ size ∈ declaration.ty.lengths, (below size).Halts depth) :
    (declare below declaration).Halts depth := by
  have settles (ty : Ty) : (settle declaration.note ty).Halts depth := fun s here => here
  have typed : (typeOf below declaration).Halts depth := by
    refine (halts_reading _).bind fun known => ?_
    cases known with
    | some ty => exact halts_pure _
    | none => exact (resolve_halts halts).bind settles
  exact typed.bind fun ty => (halts_newCell ty).bind fun ref => halts_bindName declaration.name ref

theorem bindParams_halts {params : List (Declaration Slot)} {args : List Value}
    (halts : ∀ param ∈ params, ∀ size ∈ param.ty.lengths, (below size).Halts depth) :
    (bindParams below params args).Halts depth := by
  induction params generalizing args with
  | nil => exact halts_pure _
  | cons param params ih =>
    cases args with
    | nil => exact halts_pure _
    | cons arg args =>
      refine (declare_halts (halts param (by simp))).bind fun _ => ?_
      refine (halts_reading _).bind fun ref => (halts_assign ref arg).bind fun _ => ?_
      exact ih fun other member => halts other (by simp [member])

theorem finish_halts (function : FunctionDef Slot) (flow : Flow) :
    (finish function flow).Halts depth := by
  cases flow with
  | returned value => exact halts_reading _
  | completed =>
    by_cases void : function.returns.isVoid
    · simp only [finish, if_pos void]
      exact halts_pure _
    · simp only [finish, if_neg void]
      exact halts_fail _

theorem activate_halts {function : FunctionDef Slot} {args : List Value}
    (halts : ∀ node ∈ function.parts, (below node).Halts depth) :
    (activate below function args).Halts depth := by
  have params : ∀ param ∈ function.params, ∀ size ∈ param.ty.lengths, (below size).Halts depth :=
    fun param listed size inside =>
      halts size (List.mem_append_left _ (List.mem_flatMap.mpr ⟨param, listed, inside⟩))
  have body : ∀ node ∈ function.body, (below node).Halts depth :=
    fun node member => halts node (List.mem_append_right _ member)
  refine (bindParams_halts params).bind fun _ => Halts.bind (halts_modify fun _ => rfl) fun _ => ?_
  exact Halts.bind ((statements_halts body).thenAlways fun _ => rfl) fun flow =>
    finish_halts function flow

/-- A function that may be entered is one call deeper, and its caller is as deep as before. -/
theorem enter_halts {function : FunctionDef Slot} {args : List Value}
    (halts : depth < context.maxCallDepth →
      ∀ node ∈ function.parts, (below node).Halts (depth + 1)) :
    (enter below context function args).Halts depth := by
  rintro s rfl
  unfold enter
  by_cases room : s.depth < context.maxCallDepth
  · simp only [if_pos room, Exec.thenAlways]
    have body : (activate below function args).Halts (s.depth + 1) := activate_halts (halts room)
    have ended := body { s with env := .empty, depth := s.depth + 1 } rfl
    cases outcome : activate below function args { s with env := .empty, depth := s.depth + 1 } with
    | ok result t =>
      rw [outcome] at ended
      exact Nat.sub_eq_of_eq_add ended
    | error failure t => trivial
    | outOfFuel =>
      rw [outcome] at ended
      exact ended
  · simp only [if_neg room]

theorem invoke_halts {name : String} {args : List Value}
    (halts : depth < context.maxCallDepth →
      ∀ entry ∈ context.registry.entries, ∀ node ∈ entry.2.parts,
      (below node).Halts (depth + 1)) :
    (invoke below context name args).Halts depth := by
  intro s here
  cases resolved : context.registry.resolve (signature name (args.map s.heap.tag)) with
  | error failure =>
    have refused :
        (reading fun s => context.registry.resolve (signature name (args.map s.heap.tag))) s =
        .error failure s := by
      simp only [reading, resolved]
    rw [invoke, bind_of_error refused]
    trivial
  | ok function =>
    have found :
        (reading fun s => context.registry.resolve (signature name (args.map s.heap.tag))) s =
        .ok function s := by
      simp only [reading, resolved]
    obtain ⟨entry, listed, rfl⟩ := Registry.exists_entry resolved
    rw [invoke, bind_of_ok found]
    exact enter_halts (fun room => halts room entry listed) s here

theorem builtin_halts {function : Builtin} {args : List (Node Slot)}
    (halts : ∀ node ∈ args, (below node).Halts depth) :
    (builtin below function args).Halts depth := by
  induction args with
  | nil => exact halts_pure _
  | cons node rest ih =>
    have others := ih fun other member => halts other (by simp [member])
    refine (value_halts (halts node (by simp))).bind fun arg => ?_
    cases function with
    | print =>
      have printed : (print arg).Halts depth := halts_modify fun _ => rfl
      exact printed.bind fun _ => others
    | read =>
      cases arg with
      | int n => exact (halts_fail _).bind fun _ => others
      | bool b => exact (halts_fail _).bind fun _ => others
      | cell ref => exact (halts_readInto ref).bind fun _ => others

theorem produce_halts (value : Value) : (produce value).Halts depth :=
  Halts.bind (halts_modify fun _ => rfl) fun _ => halts_pure Flow.completed

theorem call_halts {name : String} {args : List (Node Slot)}
    (halts : ∀ node ∈ args, (below node).Halts depth) (functions : depth < context.maxCallDepth →
      ∀ entry ∈ context.registry.entries, ∀ node ∈ entry.2.parts,
      (below node).Halts (depth + 1)) :
    (call below context name args).Halts depth := by
  unfold call
  cases Builtin.ofName? name with
  | some function => exact builtin_halts halts
  | none =>
    refine (values_halts halts).bind fun values => (invoke_halts functions).bind fun result => ?_
    cases result with
    | none => exact halts_pure _
    | some value => exact halts_modify fun _ => rfl

/-- A rule ends if its parts do, and the functions one call deeper; that of a loop may not. -/
theorem step_halts {turns : Nat} (once : node.kind ≠ .loop)
    (halts : ∀ part ∈ node.parts, (below part).Halts depth)
    (functions : depth < context.maxCallDepth →
      ∀ entry ∈ context.registry.entries, ∀ node ∈ entry.2.parts,
      (below node).Halts (depth + 1)) :
    (step below context turns node).Halts depth := by
  cases node with
  | int n => exact produce_halts _
  | bool b => exact produce_halts _
  | var name => exact (halts_reading _).bind fun ref => produce_halts _
  | index base position =>
    refine (value_halts (halts base (by simp [Node.parts]))).bind fun value =>
      (halts_reading _).bind fun array => ?_
    refine (int_halts (halts position (by simp [Node.parts]))).bind fun n => ?_
    exact (halts_reading _).bind fun ref => produce_halts _
  | arith op left right =>
    refine (int_halts (halts left (by simp [Node.parts]))).bind fun l => ?_
    refine (int_halts (halts right (by simp [Node.parts]))).bind fun r => ?_
    cases op.result? l r with
    | some n => exact produce_halts _
    | none => exact halts_fail _
  | logic op left right =>
    refine (truth_halts (halts left (by simp [Node.parts]))).bind fun l => ?_
    cases op.decided? l with
    | some b => exact produce_halts _
    | none => exact (truth_halts (halts right (by simp [Node.parts]))).bind fun r => produce_halts _
  | compare op left right =>
    refine (int_halts (halts left (by simp [Node.parts]))).bind fun l => ?_
    exact (int_halts (halts right (by simp [Node.parts]))).bind fun r => produce_halts _
  | not operand =>
    exact (truth_halts (halts operand (by simp [Node.parts]))).bind fun b => produce_halts _
  | assign target source =>
    refine (value_halts (halts target (by simp [Node.parts]))).bind fun place => ?_
    cases place with
    | int n => exact halts_fail _
    | bool b => exact halts_fail _
    | cell ref =>
      refine (value_halts (halts source (by simp [Node.parts]))).bind fun value => ?_
      exact (halts_assign ref value).bind fun _ => produce_halts _
  | call name args => exact (call_halts halts functions).bind fun _ => halts_pure _
  | declare declaration => exact (declare_halts halts).bind fun _ => halts_pure _
  | block body =>
    exact Halts.bind (halts_modify fun _ => rfl) fun _ =>
      Halts.thenAlways (statements_halts halts) fun _ => rfl
  | group body => exact statements_halts halts
  | branch condition yes no =>
    refine (truth_halts (halts condition (by simp [Node.parts]))).bind fun holds => ?_
    cases holds with
    | true => exact statement_halts (halts yes (by simp [Node.parts]))
    | false =>
      cases no with
      | none => exact halts_pure _
      | some no => exact statement_halts (halts no (by simp [Node.parts]))
  | loop condition body => exact absurd rfl once
  | ret value =>
    cases value with
    | none => exact halts_pure _
    | some result =>
      exact (value_halts (halts result (by simp [Node.parts]))).bind fun value => halts_pure _

end Eval

/-- The fuel that the functions need if that many calls may still be nested. -/
def Context.fuelFor (context : Context) (depth : Nat) : Nat :=
  (context.maxCallDepth - depth) * context.registry.height

theorem Context.height_add_fuelFor_succ_le {context : Context} {depth : Nat} {node : Node Slot}
    {entry : String × FunctionDef Slot} (listed : entry ∈ context.registry.entries)
    (member : node ∈ entry.2.parts) (room : depth < context.maxCallDepth) :
    node.height + context.fuelFor (depth + 1) ≤ context.fuelFor depth := by
  have bound : node.height ≤ context.registry.height :=
    Node.height_le_heightOf (List.mem_flatMap.mpr ⟨entry, listed, member⟩)
  obtain ⟨more, togo⟩ : ∃ more, context.maxCallDepth - depth = more + 1 :=
    ⟨context.maxCallDepth - depth - 1, by omega⟩
  have less : context.maxCallDepth - (depth + 1) = more := by omega
  rw [Context.fuelFor, Context.fuelFor, togo, less, Nat.succ_mul]
  omega

theorem eval_halts {context : Context} (functions : context.registry.Lacks [.loop]) (fuel : Nat)
    {depth : Nat} {node : Node Slot} (lacks : node.Lacks [.loop])
    (enough : node.height + context.fuelFor depth ≤ fuel) :
    (eval context fuel node).Halts depth := by
  induction fuel generalizing depth node with
  | zero =>
    have positive := node.height_pos
    omega
  | succ fuel ih =>
    have once : node.kind ≠ .loop := by simpa using lacks.kind
    refine Eval.step_halts once (fun part member => ?_) fun room entry listed inner member => ?_
    · have lower := Node.height_part_lt member
      exact ih (lacks.of_part member) (by omega)
    · have lower := Context.height_add_fuelFor_succ_le listed member room
      have positive := node.height_pos
      exact ih ((functions entry listed).of_part member) (by omega)

/-- Cells are typed and calls are level, whoever waits. -/
def Watch.typing : Watch where
  law _ := Law.typing.both Law.control
  declared _ _ := ⟨trivial, trivial⟩
  given _ _ _ := ⟨trivial, trivial⟩
  level related := related.2.1
  enter typed := typed

/-! ### Operations -/

namespace Interpreter

variable {interpreter : Interpreter}

theorem perform_ne_unfinished {α : Type} {action : Exec α}
    (halts : action.Halts interpreter.state.depth) :
    (interpreter.perform action).1 ≠ .unfinished := by
  rcases interpreter.perform_cases action with
    ⟨value, t, -, performed⟩ | ⟨failure, t, -, performed⟩ | ⟨outcome, -⟩
  · rw [performed]
    nofun
  · rw [performed]
    nofun
  · exact absurd outcome halts.ne_outOfFuel

/-- Printing a cell and reading into one walk as deep as the cell's tag says. In a typed heap this
is as deep as the cells go, and the heap is typed at every moment. -/
theorem walks_end {moment : Moment} (typed : interpreter.state.heap.Typed)
    (passes : interpreter.Passes moment) (ref : Ref) :
    moment.state.heap.Denotes ref (moment.state.heap.datum (.cell ref)) ∧
      ReadsInto ref moment.state (Exec.readInto ref moment.state) := by
  have watched : Watch.typing.Holds moment :=
    Watch.typing.holds_of_interpreter_passes ⟨typed, trivial⟩ passes
  exact ⟨watched.1.denotes_datum ref, readsInto_readInto ref moment.state watched.1⟩

/-- Without loops every evaluation and every call comes to an end, however the functions call each
other: with as much fuel as heights and depths ask for there is an answer. On the way every walk
through the elements of a cell comes to an end as well. -/
theorem loopless_ends (history : Relation.ReflTransGen Heap.Step .empty interpreter.state.heap)
    (functions : interpreter.context.registry.Lacks [.loop]) :
    (∀ node fuel, node.Lacks [.loop] →
      node.height + interpreter.context.fuelFor interpreter.state.depth ≤ fuel →
      (interpreter.evaluate fuel node).1 ≠ .unfinished) ∧
    (∀ name args fuel, interpreter.context.fuelFor interpreter.state.depth ≤ fuel →
      (interpreter.call fuel name args).1 ≠ .unfinished) ∧
    ∀ moment, interpreter.Passes moment → ∀ ref,
      moment.state.heap.Denotes ref (moment.state.heap.datum (.cell ref)) ∧
      ReadsInto ref moment.state (Exec.readInto ref moment.state) := by
  refine ⟨fun node fuel lacks enough => ?_, fun name args fuel enough => ?_,
    fun moment passes ref => ?_⟩
  · exact perform_ne_unfinished (eval_halts functions fuel lacks enough)
  · refine perform_ne_unfinished (Eval.invoke_halts fun room entry listed node member => ?_)
    have lower := Context.height_add_fuelFor_succ_le listed member room
    exact eval_halts functions fuel ((functions entry listed).of_part member) (by omega)
  · exact walks_end (Heap.typed_empty.steps history).1 passes ref

/-- Two functions that call each other without end, and arrays that share their elements. -/
def pingPong : Interpreter where
  context := {
    registry := { entries := [
      ("ping_void", ⟨"ping", [], [.call "pong" [.int 1]], .void⟩),
      ("pong_int",
        ⟨"pong", [⟨"n", .int, ⟨0⟩⟩], [.call "print" [.var "n"], .call "ping" []], .void⟩)] }
    maxCallDepth := 3 }
  state := { heap := Heap.shared }

theorem loopless_ends_pingPong : pingPong.context.fuelFor 0 = 6 ∧
    (pingPong.evaluate 7 (.call "ping" [])).1 ≠ .unfinished ∧
    pingPong.evaluate 7 (.call "ping" []) = (.failure (.callDepthExceeded 3), { pingPong with
      state := { pingPong.state with
        heap := { cells := Heap.shared.cells.push (.int 1) }
        console := { output := "1\n" } } }) := by
  have functions : pingPong.context.registry.Lacks [.loop] := by
    intro entry listed
    simp only [pingPong, List.mem_cons, List.not_mem_nil, or_false] at listed
    rcases listed with rfl | rfl
    · exact ⟨by simp, by simp [Node.LacksOf, Node.Lacks, Node.kind]⟩
    · exact ⟨by simp [TypeSpec.Lacks], by simp [Node.LacksOf, Node.Lacks, Node.kind]⟩
  have history : Relation.ReflTransGen Heap.Step .empty pingPong.state.heap := Heap.shared_history
  obtain ⟨evaluates, -, -⟩ := loopless_ends history functions
  have outcome : eval pingPong.context 7 (.call "ping" []) pingPong.state =
      .error (.callDepthExceeded 3) { pingPong.state with
        heap := { cells := Heap.shared.cells.push (.int 1) }
        console := { output := "1\n" } } := by
    decide +kernel
  refine ⟨by decide, evaluates _ 7 ?_ (by decide), perform_of_error outcome⟩
  simp [Node.LacksOf, Node.Lacks, Node.kind]

end Interpreter

end TreeLang
