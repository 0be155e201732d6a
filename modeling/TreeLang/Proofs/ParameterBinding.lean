import TreeLang.Proofs.Overloads
import TreeLang.Proofs.PureExpressions
import TreeLang.Proofs.SettledTypes

/-! Binding the parameters of a function. Arguments that have the declared tags always fit: the type
of a parameter, whether it was settled long ago or is worked out now, has the declared tag, so there
is a cell for it and the argument can be written to it. Only the lengths in the types can fail, and
they are evaluated one by one while the parameters before are bound already. -/
namespace TreeLang

/-! ### A cell for an argument -/

/-- The same number, the same truth or the same sequence of elements. -/
def Cell.SameContents : Cell → Cell → Prop
  | int n, int m => n = m
  | bool b, bool c => b = c
  | array _ elements, array _ others => elements = others
  | _, _ => False

theorem Ty.fault?_eq_none {ty : Ty} (storable : ty.tag.Storable) (sized : ty.Sized) : ty.fault? = none := by
  induction ty with
  | int => rfl
  | bool => rfl
  | void => exact storable.elim
  | array element size ih =>
    have positive : size ≠ 0 := Nat.ne_of_gt sized.1
    rw [Ty.fault?, if_neg positive]
    exact ih storable sized.2

namespace Heap

variable {heap : Heap} {target : Ref} {value : Value}

/-- A value of the same tag can be written, and then its contents are there. -/
theorem written_of_tag (same : heap.tag value = (heap.get target).tag) :
    ∃ cell, heap.written target value = .ok cell ∧ cell.SameContents (heap.held value) := by
  rw [← tag_held] at same
  unfold written
  cases content : heap.get target with
  | int old =>
    obtain ⟨n, held⟩ := Cell.eq_int_of_tag (same.trans (congrArg Cell.tag content))
    have view : heap.toInt value = .ok n := by rw [toInt_eq_number, held, Cell.number]
    exact ⟨.int n, by simp only [view, Except.map], by rw [held]; rfl⟩
  | bool old =>
    obtain ⟨b, held⟩ := Cell.eq_bool_of_tag (same.trans (congrArg Cell.tag content))
    have view : heap.truth value = b := by rw [truth_eq_isTrue, held, Cell.isTrue]
    exact ⟨.bool b, by simp only [view], by rw [held]; rfl⟩
  | array element old =>
    obtain ⟨other, elements, held, tags⟩ := Cell.eq_array_of_tag (same.trans (congrArg Cell.tag content))
    cases value with
    | int n => contradiction
    | bool b => contradiction
    | cell source =>
      have found : heap.get source = .array other elements := held
      have view : heap.toArray (.cell source) = .ok source := by simp only [toArray, found]
      refine ⟨.array element elements, ?_, by rw [held]; rfl⟩
      simp [view, bind, Except.bind, pure, Except.pure, found, Cell.tag, tags, elements_of_get found]

theorem held_put_of_ne {cell : Cell} (apart : ∀ ref, value = .cell ref → ref ≠ target) :
    (heap.put target cell).held value = heap.held value := by
  cases value with
  | int n => rfl
  | bool b => rfl
  | cell ref => exact get_put_of_ne (apart ref rfl)

theorem Keeps.tag_of_inside {later : Heap} (keeps : heap.Keeps later)
    (existing : ∀ ref, value = .cell ref → ref.index < heap.size) : later.tag value = heap.tag value := by
  cases value with
  | int n => rfl
  | bool b => rfl
  | cell ref => exact keeps.tag ref (existing ref rfl)

end Heap

/-! ### A name for the cell -/

namespace Env

variable {env : Env} {name other : String} {ref : Ref}

/-- One more name in the innermost scope. -/
def gain (env : Env) (name : String) (ref : Ref) : Env :=
  { env with inner := { bindings := (name, ref) :: env.inner.bindings } }

theorem declare_of_new (new : env.inner.find? name = none) : env.declare name ref = .ok (env.gain name ref) := by
  simp only [declare, Scope.declare, new, Except.map, gain]

theorem lookup_gain (env : Env) (name : String) (ref : Ref) : (env.gain name ref).lookup name = .ok ref := by
  simp [lookup, find?, scopes, gain, Scope.find?]

theorem find?_gain_of_ne (apart : other ≠ name) :
    (env.gain name ref).inner.find? other = env.inner.find? other := by
  have differs : (other == name) = false := by simpa using apart
  simp [gain, Scope.find?, List.lookup_cons, differs]

end Env

/-! ### Actions that stop short -/

/-- How an action ends that has no result. -/
inductive Stop where
  | failure (failure : Failure) (state : State)
  | outOfFuel

def Outcome.stop? {α : Type} : Outcome α → Option Stop
  | ok _ _ => none
  | error failure t => some (.failure failure t)
  | outOfFuel => some .outOfFuel

namespace Exec

variable {α β : Type} {first : Exec α} {next : α → Exec β} {s : State} {stop : Stop}

theorem bind_of_stop (stopped : (first s).stop? = some stop) : ((first >>= next) s).stop? = some stop := by
  cases outcome : first s with
  | ok value t =>
    rw [outcome] at stopped
    contradiction
  | error failure t =>
    rw [outcome] at stopped
    rw [bind_of_error outcome]
    exact stopped
  | outOfFuel =>
    rw [outcome] at stopped
    rw [bind_of_outOfFuel outcome]
    exact stopped

/-- Of two actions in a row, one stops. -/
theorem stop_of_bind (stopped : ((first >>= next) s).stop? = some stop) :
    (first s).stop? = some stop ∨ ∃ value t, first s = .ok value t ∧ (next value t).stop? = some stop := by
  cases outcome : first s with
  | ok value t =>
    rw [bind_of_ok outcome] at stopped
    exact .inr ⟨value, t, rfl, stopped⟩
  | error failure t =>
    rw [bind_of_error outcome] at stopped
    exact .inl stopped
  | outOfFuel =>
    rw [bind_of_outOfFuel outcome] at stopped
    exact .inl stopped

end Exec

/-! ### One parameter -/

namespace Eval

open Exec

variable {below : Evaluator} {param : Declaration Slot} {arg : Value} {s t u : State} {stop : Stop}

/-- From a state the parameter has come to denote a fresh cell that has what the argument has. -/
structure Binds (param : Declaration Slot) (arg : Value) (s t : State) (ref : Ref) : Prop where
  env : t.env = s.env.gain param.name ref
  fresh : s.heap.Fresh t.heap ref param.ty.tag
  contents : (t.heap.get ref).SameContents (t.heap.held arg)

/-- Once the type is there nothing can fail. -/
theorem bindParam_of_typeOf {ty : Ty} (typed : typeOf below param s = .ok ty u) (tag : ty.tag = param.ty.tag)
    (sized : ty.Sized) (heap : u.heap.Typed) (new : u.env.inner.find? param.name = none)
    (existing : ∀ ref, arg = .cell ref → ref.index < u.heap.size) (tagged : u.heap.tag arg = param.ty.tag) :
    ∃ t ref, bindParam below (param, arg) s = .ok () t ∧ Binds param arg u t ref := by
  have sound : ty.fault? = none := by
    refine Ty.fault?_eq_none ?_ sized
    rw [tag, ← tagged]
    exact heap.storable_tag arg
  obtain ⟨grown, fresh⟩ := Heap.alloc_grown ty u.heap sound
  rcases made : u.heap.alloc ty with ⟨ref, larger⟩
  simp only [made] at grown fresh
  have same : larger.tag arg = (larger.get ref).tag := by
    rw [grown.keeps.tag_of_inside existing, fresh.tag, tagged, tag]
  obtain ⟨cell, written, contents⟩ := Heap.written_of_tag same
  refine ⟨{ u with heap := larger.put ref cell, env := u.env.gain param.name ref }, ref, ?_, rfl, ?_, ?_⟩
  · have declared : declare below param s = .ok () { u with heap := larger, env := u.env.gain param.name ref } := by
      have cell : newCell ty u = .ok ref { u with heap := larger } := by simp only [newCell, sound, made]
      rw [declare, bind_of_ok typed, bind_of_ok cell]
      simp only [bindName, Env.declare_of_new new]
    rw [bindParam, bind_of_ok declared]
    simp only [lookup, reading_bind, Env.lookup_gain, assign, written]
  · have sizes : (larger.put ref cell).size = larger.size := Heap.size_put
    refine ⟨fresh.lower, sizes ▸ fresh.upper, ?_⟩
    rw [Heap.get_put_self fresh.upper, Heap.tag_written written, fresh.tag, tag]
  · have apart (other : Ref) (given : arg = .cell other) : other ≠ ref := by
      rintro rfl
      have := existing other given
      have := fresh.lower
      omega
    rw [Heap.held_put_of_ne apart, Heap.get_put_self fresh.upper]
    exact contents

/-- A type that cannot be worked out was not settled, and one of its lengths is at fault. -/
theorem typeOf_stop (stopped : (typeOf below param s).stop? = some stop) :
    s.resolved.get? param.note = none ∧ (resolve below param.ty s).stop? = some stop := by
  cases settled : s.resolved.get? param.note with
  | some ty =>
    rw [typeOf_of_some settled] at stopped
    contradiction
  | none =>
    rw [typeOf_of_none settled] at stopped
    rcases stop_of_bind stopped with resolving | ⟨ty, u, -, settling⟩
    · exact ⟨rfl, resolving⟩
    · contradiction

theorem resolve_stop : ∀ {spec : TypeSpec Slot} {s : State}, (resolve below spec s).stop? = some stop →
    ∃ size ∈ spec.lengths, ∃ w, (int below size w).stop? = some stop ∨
      ∃ n t, int below size w = .ok n t ∧ n ≤ 0 ∧ stop = .failure (.invalidArraySize n) t
  | .array element size, s, stopped => by
    rw [resolve] at stopped
    rcases stop_of_bind stopped with counting | ⟨n, u, counted, stopped⟩
    · exact ⟨size, List.mem_cons_self, s, .inl counting⟩
    · by_cases positive : 0 < n
      · rw [if_pos positive] at stopped
        rcases stop_of_bind stopped with inner | ⟨ty, w, -, done⟩
        · obtain ⟨other, member, fault⟩ := resolve_stop inner
          exact ⟨other, List.mem_cons_of_mem _ member, fault⟩
        · contradiction
      · rw [if_neg positive] at stopped
        cases stopped
        exact ⟨size, List.mem_cons_self, s, .inr ⟨n, u, counted, Int64.not_lt.mp positive, rfl⟩⟩
termination_by structural spec => spec

end Eval

/-- A law that knows the types that are settled knows those that are found. -/
theorem Law.typeOf_yields_fitting {law : Law} {below : Evaluator} {s : State} {declaration : Declaration Slot}
    (sound : law.Sound below) (every : declaration.Every law.declared) (inv : law.inv s)
    (known : ∀ {s ty}, law.inv s → s.resolved.get? declaration.note = some ty →
      ty.tag = declaration.ty.tag ∧ ty.Sized) :
    law.Yields (Eval.typeOf below declaration) s fun ty _ => ty.tag = declaration.ty.tag ∧ ty.Sized := by
  obtain ⟨evaluated, declared⟩ := every.parts
  cases settled : s.resolved.get? declaration.note with
  | some ty =>
    unfold Law.Yields Exec.Ends
    rw [Eval.typeOf_of_some settled]
    exact ⟨.refl inv, known inv settled⟩
  | none =>
    have found : law.Yields (Eval.resolve below declaration.ty >>= Exec.settle declaration.note) s
        fun ty _ => ty.tag = declaration.ty.tag ∧ ty.Sized := by
      refine (Law.resolve_yields sound declaration.ty evaluated inv).bind fun ty u steady fits => ?_
      obtain ⟨kept, related⟩ := law.settle steady.inv declared fits.1 fits.2
      refine ⟨⟨⟨kept, related, rfl⟩, rfl⟩, ?_⟩
      -- The type may have been settled while its lengths were evaluated.
      cases meanwhile : u.resolved.get? declaration.note with
      | some earlier => exact known steady.inv meanwhile
      | none => exact fits
    unfold Law.Yields Exec.Ends at found ⊢
    rwa [Eval.typeOf_of_none settled]

/-! ### The loop -/

namespace Forest

variable {forest : Forest}

/-- Cells keep their tags, and the types of the forest's declarations fit. -/
def binding (forest : Forest) (sound : forest.Sound) : Law := Law.typing.both (forest.law sound)

theorem declared_binding (sound : forest.Sound) : (forest.binding sound).declared = (· ∈ forest.declarations) :=
  funext fun _ => propext ⟨And.right, And.intro trivial⟩

def guard (forest : Forest) (sound : forest.Sound) : Guard where
  grounds := (· ∈ forest.declarations)
  law _ := forest.binding sound
  declared _ := declared_binding sound
  given _ _ _ := ⟨trivial, trivial⟩
  level related := related.2.1
  enter inv := inv

end Forest

namespace Eval

open Exec

variable {forest : Forest} {planted : forest.Sound} {below : Evaluator} {param : Declaration Slot}
  {params front rest : List (Declaration Slot)} {arg : Value} {args : List Value} {s t : State}

theorem bindParams_cons (below : Evaluator) (param : Declaration Slot) (params : List (Declaration Slot))
    (arg : Value) (args : List Value) : bindParams below (param :: params) (arg :: args) =
      bindParam below (param, arg) >>= fun _ => bindParams below params args := by
  simp only [bindParams, bindParam, bind_assoc]

theorem bindParams_nil (below : Evaluator) (args : List Value) : bindParams below [] args = pure () := by
  cases args <;> rfl

/-- The arguments fit the parameters, whose names are still free. -/
structure Ready (forest : Forest) (planted : forest.Sound) (params : List (Declaration Slot))
    (args : List Value) (s : State) : Prop where
  inv : (forest.binding planted).inv s
  every : ∀ param ∈ params, param.Every (· ∈ forest.declarations)
  names : (params.map (·.name)).Nodup
  new : ∀ param ∈ params, s.env.inner.find? param.name = none
  existing : ∀ ref, .cell ref ∈ args → ref.index < s.heap.size
  tags : args.map s.heap.tag = params.map (·.ty.tag)

/-- What a parameter has got since its type was there it has got since its turn began. -/
theorem Binds.since {u : State} {ref : Ref} (binds : Binds param arg u t ref) (env : u.env = s.env)
    (keeps : s.heap.Keeps u.heap) : Binds param arg s t ref :=
  ⟨env ▸ binds.env, ⟨Nat.le_trans keeps.size binds.fresh.lower, binds.fresh.upper, binds.fresh.tag⟩, binds.contents⟩

theorem Ready.later (ready : Ready forest planted (param :: params) (arg :: args) s)
    (inv : (forest.binding planted).inv t) (keeps : s.heap.Keeps t.heap) {ref : Ref}
    (env : t.env = s.env.gain param.name ref) : Ready forest planted params args t := by
  have names := List.nodup_cons.mp ready.names
  have kept (value : Value) (member : value ∈ args) : t.heap.tag value = s.heap.tag value := by
    refine keeps.tag_of_inside fun ref given => ready.existing ref ?_
    exact List.mem_cons_of_mem _ (given ▸ member)
  refine ⟨inv, fun other member => ready.every other (List.mem_cons_of_mem _ member), names.2, ?_, ?_, ?_⟩
  · intro other member
    have apart : other.name ≠ param.name := fun same => names.1 (List.mem_map.mpr ⟨other, member, same⟩)
    rw [env, Env.find?_gain_of_ne apart]
    exact ready.new other (List.mem_cons_of_mem _ member)
  · intro ref member
    exact Nat.lt_of_lt_of_le (ready.existing ref (List.mem_cons_of_mem _ member)) keeps.size
  · rw [List.map_congr_left kept]
    exact (List.cons.inj ready.tags).2

/-- One turn of the loop: the lengths stop it, or the parameter is bound and the loop goes on. -/
theorem Ready.turn (ready : Ready forest planted (param :: params) (arg :: args) s)
    (sound : (forest.binding planted).Sound below) :
    (∃ stop, (bindParam below (param, arg) s).stop? = some stop ∧ s.resolved.get? param.note = none ∧
      (resolve below param.ty s).stop? = some stop) ∨
    ∃ t ref, bindParam below (param, arg) s = .ok () t ∧ Binds param arg s t ref ∧
      Ready forest planted params args t := by
  have every : param.Every (forest.binding planted).declared := by
    rw [Forest.declared_binding]
    exact ready.every param List.mem_cons_self
  have stops {stop : Stop} (stopped : (typeOf below param s).stop? = some stop) :
      (bindParam below (param, arg) s).stop? = some stop := bind_of_stop (bind_of_stop stopped)
  cases typed : typeOf below param s with
  | outOfFuel =>
    have stopped : (typeOf below param s).stop? = some .outOfFuel := by rw [typed, Outcome.stop?]
    exact .inl ⟨_, stops stopped, typeOf_stop stopped⟩
  | error failure t =>
    have stopped : (typeOf below param s).stop? = some (.failure failure t) := by rw [typed, Outcome.stop?]
    exact .inl ⟨_, stops stopped, typeOf_stop stopped⟩
  | ok ty u =>
    have own : param ∈ forest.declarations := (ready.every param List.mem_cons_self).parts.2
    obtain ⟨steady, tag, sized⟩ := (Law.typeOf_yields_fitting sound every ready.inv
      fun inv settled => inv.2 param own _ settled).ok_of_eq typed
    have existing (ref : Ref) (given : arg = .cell ref) : ref.index < s.heap.size :=
      ready.existing ref (given ▸ List.mem_cons_self)
    have tagged : u.heap.tag arg = param.ty.tag := by
      rw [steady.rel.1.tag_of_inside existing]
      exact (List.cons.inj ready.tags).1
    have new : u.env.inner.find? param.name = none := by
      rw [steady.env]
      exact ready.new param List.mem_cons_self
    obtain ⟨t, ref, bound, binds⟩ := bindParam_of_typeOf typed tag sized steady.inv.1 new
      (fun ref given => Nat.lt_of_lt_of_le (existing ref given) steady.rel.1.size) tagged
    have alone : bindParams below [param] [arg] s = .ok () t := by
      rw [bindParams_cons, bind_of_ok bound]
      rfl
    have level := ((Law.bindParams_runs sound (by simpa using every) ready.inv
      fun _ _ => ⟨trivial, trivial⟩).ok_of_eq alone).1
    have since := binds.since steady.env steady.rel.1
    exact .inr ⟨t, ref, bound, since, ready.later level.inv level.rel.1 since.env⟩

/-- The loop stops in the turn of a parameter whose lengths stop it, and not before. -/
theorem Ready.of_stop (ready : Ready forest planted params args s)
    (sound : (forest.binding planted).Sound below) {stop : Stop}
    (stopped : (bindParams below params args s).stop? = some stop) :
    ∃ front param rest u, params = front ++ param :: rest ∧ bindParams below front args s = .ok () u ∧
      u.resolved.get? param.note = none ∧ (resolve below param.ty u).stop? = some stop := by
  induction params generalizing args s with
  | nil =>
    rw [bindParams_nil] at stopped
    contradiction
  | cons param params ih =>
    cases args with
    | nil => exact absurd ready.tags (by simp)
    | cons arg args =>
      rw [bindParams_cons] at stopped
      rcases ready.turn sound with ⟨other, stops, unsettled, resolving⟩ | ⟨u, ref, bound, -, later⟩
      · have same : other = stop := Option.some.inj ((bind_of_stop stops).symm.trans stopped)
        exact ⟨[], param, params, s, rfl, rfl, unsettled, same ▸ resolving⟩
      · rw [bind_of_ok bound] at stopped
        obtain ⟨front, other, rest, w, split, before, fault⟩ := ih later stopped
        refine ⟨param :: front, other, rest, w, by rw [split, List.cons_append], ?_, fault⟩
        rw [bindParams_cons, bind_of_ok bound]
        exact before

theorem Ready.turn_ok {others : List (Declaration Slot)}
    (ready : Ready forest planted (param :: params) (arg :: args) s)
    (sound : (forest.binding planted).Sound below)
    (ended : bindParams below (param :: others) (arg :: args) s = .ok () t) :
    ∃ u ref, bindParam below (param, arg) s = .ok () u ∧ Binds param arg s u ref ∧
      Ready forest planted params args u ∧ bindParams below others args u = .ok () t := by
  rw [bindParams_cons] at ended
  rcases ready.turn sound with ⟨stop, stops, -, -⟩ | ⟨u, ref, bound, binds, later⟩
  · have stopped : ((bindParam below (param, arg) >>= fun _ => bindParams below others args) s).stop? = some stop :=
      bind_of_stop stops
    rw [ended] at stopped
    contradiction
  · rw [bind_of_ok bound] at ended
    exact ⟨u, ref, bound, binds, later, ended⟩

/-- A parameter that has had its turn is bound. -/
theorem Ready.of_ok (ready : Ready forest planted (front ++ param :: rest) args s)
    (sound : (forest.binding planted).Sound below) (ended : bindParams below (front ++ [param]) args s = .ok () t) :
    ∃ arg u ref, args[front.length]? = some arg ∧ bindParams below front args s = .ok () u ∧
      Binds param arg u t ref := by
  induction front generalizing args s with
  | nil =>
    cases args with
    | nil => exact absurd ready.tags (by simp)
    | cons arg args =>
      obtain ⟨u, ref, bound, binds, -, last⟩ := ready.turn_ok sound ended
      rw [bindParams_nil] at last
      cases last
      exact ⟨arg, s, ref, rfl, rfl, binds⟩
  | cons first front ih =>
    cases args with
    | nil => exact absurd ready.tags (by simp)
    | cons arg args =>
      obtain ⟨u, ref, bound, -, later, ended⟩ := ready.turn_ok sound ended
      obtain ⟨value, w, place, listed, before, binds⟩ := ih later ended
      refine ⟨value, w, place, listed, ?_, binds⟩
      rw [bindParams_cons, bind_of_ok bound]
      exact before

end Eval

/-! ### Calls -/

namespace Interpreter

variable {interpreter : Interpreter} {forest : Forest} {context : Context} {moment : Moment}

/-- An interpreter that has come about, and whose trees stand in a forest that has come about. Other
interpreters may have settled types in the forest meanwhile. -/
structure Inhabits (interpreter : Interpreter) (forest : Forest) : Prop where
  reachable : ∃ resolved, Reachable { interpreter with state := { interpreter.state with resolved } }
  grown : Relation.ReflTransGen Forest.Step {} forest
  types : interpreter.state.resolved = forest.resolved
  functions : interpreter.context.registry.Every (· ∈ forest.declarations)

theorem PassesOn.every {P : Declaration Slot → Prop} (passes : interpreter.PassesOn P context moment)
    (functions : interpreter.context.registry.Every P) : context.registry.Every P := by
  cases passes with
  | idle => exact functions
  | evaluate => exact functions
  | call => exact functions
  | run given loads _ _ _ =>
    have every := load_every functions given
    rwa [loads] at every

/-- At every moment the cells are typed and the types fit. -/
theorem Inhabits.binding_at (inhabits : interpreter.Inhabits forest) (planted : forest.Sound)
    (passes : interpreter.PassesOn (· ∈ forest.declarations) context moment) :
    (forest.binding planted).inv moment.state := by
  obtain ⟨resolved, reachable⟩ := inhabits.reachable
  have fits : interpreter.state.resolved.Fits forest.declarations := inhabits.types ▸ planted.fits
  have start : (forest.guard planted).Holds interpreter.moment := ⟨reachable.tidy.typed, fits⟩
  exact Guard.holds_of_passesOn inhabits.functions start passes

/-- Whatever has been reached: a registered function whose parameters have different names is given
arguments of the declared tags, under any stack. Binding them stops short only in the turn of a
parameter whose type is not settled, and just as one of the lengths in it does, or because a length
is not positive. And when a parameter has had its turn, its name denotes a fresh cell of the declared
tag, with the number or truth that the argument has then, or with the argument's sequence of elements. -/
theorem Inhabits.bindParams_fails_on_lengths (inhabits : interpreter.Inhabits forest)
    (passes : interpreter.PassesOn (· ∈ forest.declarations) context moment) {signature : String}
    {function : FunctionDef Slot} (registered : context.registry.get? signature = some function)
    (names : (function.params.map (·.name)).Nodup) {args : List Value}
    (existing : ∀ ref, .cell ref ∈ args → ref.index < moment.state.heap.size)
    (tagged : args.map moment.state.heap.tag = function.params.map (·.ty.tag))
    (stack : OperandStack) (fuel : Nat) :
    let below := eval context fuel
    let entered := { moment.state with env := .empty, depth := moment.state.depth + 1, stack }
    (∀ stop, (Eval.bindParams below function.params args entered).stop? = some stop →
      ∃ front param rest u, function.params = front ++ param :: rest ∧
        Eval.bindParams below front args entered = .ok () u ∧ u.resolved.get? param.note = none ∧
        (Eval.resolve below param.ty u).stop? = some stop ∧
        ∃ size ∈ param.ty.lengths, ∃ w, (Eval.int below size w).stop? = some stop ∨
          ∃ n t, Eval.int below size w = .ok n t ∧ n ≤ 0 ∧ stop = .failure (.invalidArraySize n) t) ∧
    ∀ front param rest t, function.params = front ++ param :: rest →
      Eval.bindParams below (front ++ [param]) args entered = .ok () t →
      ∃ arg u ref, args[front.length]? = some arg ∧ Eval.bindParams below front args entered = .ok () u ∧
        t.env.lookup param.name = .ok ref ∧ u.heap.Fresh t.heap ref param.ty.tag ∧
        (t.heap.get ref).SameContents (t.heap.held arg) := by
  intro below entered
  have planted := (Forest.sound_empty.steps inhabits.grown).1
  have functions := passes.every inhabits.functions
  have every : function.Every (· ∈ forest.declarations) :=
    functions.of_resolve (Registry.resolve_ok_iff.mpr registered)
  have sound : (forest.binding planted).Sound below := (forest.guard planted).sound functions [] fuel
  have ready : Eval.Ready forest planted function.params args entered :=
    ⟨inhabits.binding_at planted passes, every.params, names, fun _ _ => rfl, existing, tagged⟩
  refine ⟨fun stop stopped => ?_, fun front param rest t split ended => ?_⟩
  · obtain ⟨front, param, rest, u, split, before, unsettled, resolving⟩ := ready.of_stop sound stopped
    exact ⟨front, param, rest, u, split, before, unsettled, resolving, Eval.resolve_stop resolving⟩
  · rw [split] at ready
    obtain ⟨arg, u, ref, given, before, binds⟩ := ready.of_ok sound ended
    refine ⟨arg, u, ref, given, before, ?_, binds.fresh, binds.contents⟩
    rw [binds.env, Env.lookup_gain]

/-- A function of a number and an array, whose declared length is the number. -/
def measured : Program Unit where
  functions := [⟨"f", [⟨"n", .int, ()⟩, ⟨"a", .array .int (.var "n"), ()⟩], [], .void⟩]

def measuredForest : Forest where
  declarations := [⟨"n", .int, ⟨0⟩⟩, ⟨"a", .array .int (.var "n"), ⟨1⟩⟩]
  resolved := { types := #[none, none] }

/-- The program has been loaded, and there is an array of two numbers. -/
def measurer : Interpreter where
  context := {
    registry := { entries := [("f_int_array_int", ⟨"f", measuredForest.declarations, [], .void⟩)] }
    maxCallDepth := 5 }
  state := {
    heap := { cells := #[.int 0, .int 0, .array .int #[⟨0⟩, ⟨1⟩]] }
    resolved := measuredForest.resolved }

theorem measurer_reachable : measurer.Reachable := by
  have placed := (Reachable.start {} 5).placeProgram measured
  have loaded := placed.step (.load ⟨[⟨"f", measuredForest.declarations, [], .void⟩]⟩)
  have made : Heap.empty.create (.array .int 2) = .ok (⟨2⟩, measurer.state.heap) := rfl
  exact loaded.create made

theorem measurer_inhabits : measurer.Inhabits measuredForest where
  reachable := ⟨measuredForest.resolved, measurer_reachable⟩
  grown := .single (.program measured)
  types := rfl
  functions := by
    intro entry listed
    cases List.mem_singleton.mp listed
    refine FunctionDef.every_iff.mpr fun d member => ?_
    exact member

/-- The array of two has been passed where five were declared. -/
def measuring : State where
  heap := { cells := measurer.state.heap.cells ++
    #[.int 5, .int 0, .int 0, .int 0, .int 0, .int 0, .array .int #[⟨0⟩, ⟨1⟩]] }
  resolved := { types := #[some .int, some (.array .int 5)] }
  env := { inner := { bindings := [("a", ⟨9⟩), ("n", ⟨3⟩)] } }
  depth := 1

/-- The second parameter is an array of two, and shares them. -/
theorem Inhabits.bindParams_fails_on_lengths_measuring :
    Eval.bindParams (eval measurer.context 3) measuredForest.declarations [.int 5, .cell ⟨2⟩]
      { measurer.state with env := .empty, depth := 1 } = .ok () measuring ∧
    ∃ arg ref, [Value.int 5, .cell ⟨2⟩][1]? = some arg ∧ measuring.env.lookup "a" = .ok ref ∧
      (measuring.heap.get ref).SameContents (measuring.heap.held arg) := by
  have registered : measurer.context.registry.get? "f_int_array_int" =
      some ⟨"f", measuredForest.declarations, [], .void⟩ := rfl
  have bound : Eval.bindParams (eval measurer.context 3) measuredForest.declarations [.int 5, .cell ⟨2⟩]
      { measurer.state with env := .empty, depth := 1 } = .ok () measuring := by
    have ended : (match Eval.bindParams (eval measurer.context 3) measuredForest.declarations
        [.int 5, .cell ⟨2⟩] { measurer.state with env := .empty, depth := 1 } with
        | .ok _ t => decide (t = measuring)
        | _ => false) = true := by decide +kernel
    split at ended
    next t outcome => rw [outcome, of_decide_eq_true ended]
    next => contradiction
  have existing (ref : Ref) (given : .cell ref ∈ [Value.int 5, .cell ⟨2⟩]) :
      ref.index < measurer.moment.state.heap.size := by
    simp only [List.mem_cons, reduceCtorEq, Value.cell.injEq, List.not_mem_nil, or_false, false_or] at given
    subst given
    decide
  obtain ⟨-, fine⟩ := Inhabits.bindParams_fails_on_lengths measurer_inhabits .idle registered (by decide)
    existing rfl {} 3
  obtain ⟨arg, u, ref, given, -, named, -, contents⟩ := fine [⟨"n", .int, ⟨0⟩⟩] _ [] measuring rfl bound
  exact ⟨bound, arg, ref, given, named, contents⟩

end Interpreter

end TreeLang
