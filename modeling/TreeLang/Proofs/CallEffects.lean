import TreeLang.Proofs.HeapTyping

/-! What a call can change. All that a function can come by are new cells and the elements of
the arrays it is given, down to any depth. This region is closed under taking elements, and
nothing outside is ever written to. The arguments themselves need not be in it: a parameter
is a new cell, and what an array argument hands over is its sequence. -/
namespace TreeLang

/-- Every name of every scope denotes a cell of the set. -/
def Env.Within (env : Env) (region : Ref → Prop) : Prop :=
  ∀ scope ∈ env.scopes, ∀ binding ∈ scope.bindings, region binding.2

namespace Env.Within

variable {env later : Env} {region : Ref → Prop} {name : String} {ref : Ref}

theorem empty : Env.empty.Within region := by
  simp [Env.Within, Env.empty, Env.scopes]

theorem lookup (within : env.Within region) (found : env.lookup name = .ok ref) : region ref := by
  unfold Env.lookup at found
  split at found
  next other seen =>
    cases found
    obtain ⟨scope, member, bound⟩ := List.exists_of_findSome?_eq_some seen
    obtain ⟨before, after, bindings, -⟩ := List.lookup_eq_some_iff.mp bound
    exact within scope member (name, ref) (by simp [bindings])
  · contradiction

theorem declare (within : env.Within region) (fresh : region ref)
    (declared : env.declare name ref = .ok later) : later.Within region := by
  simp only [Env.declare, Scope.declare] at declared
  split at declared
  · contradiction
  · cases declared
    intro scope member binding bound
    rcases List.mem_cons.mp member with rfl | outer
    · rcases List.mem_cons.mp bound with rfl | old
      · exact fresh
      · exact within env.inner (by simp [Env.scopes]) binding old
    · exact within scope (by simp [Env.scopes, outer]) binding bound

theorem pushScope (within : env.Within region) : env.pushScope.Within region := by
  intro scope member
  rcases List.mem_cons.mp member with rfl | old
  · simp [Env.pushScope]
  · exact within scope old

theorem popScope (within : env.Within region) : env.popScope.Within region := by
  unfold Env.popScope
  split
  · exact within
  next inner outer scopes =>
    intro scope member
    exact within scope (by simp [Env.scopes, scopes] at member ⊢; exact .inr member)

end Env.Within

/-- Cells among which a piece of code is shut in: all that are new to it, and some old ones. -/
structure Region where
  start : Nat
  has : Ref → Prop
  new : ∀ ref, start ≤ ref.index → has ref

namespace Region

variable {region : Region} {s t : State}

/-- Names and elements of arrays do not lead out of the region. -/
structure Closed (region : Region) (s : State) : Prop where
  start : region.start ≤ s.heap.size
  names : s.env.Within region.has
  elements : ∀ array, region.has array → ∀ ref ∈ s.heap.elements array, region.has ref

/-- The cells outside the region are as they were. -/
def Frames (region : Region) (heap later : Heap) : Prop :=
  ∀ ref, ¬ region.has ref → later.get ref = heap.get ref

theorem Frames.refl (heap : Heap) : region.Frames heap heap := fun _ _ => rfl

theorem Frames.trans {heap mid later : Heap} (first : region.Frames heap mid)
    (second : region.Frames mid later) : region.Frames heap later :=
  fun ref outside => (second ref outside).trans (first ref outside)

/-- What an array holds stays in the region, whether or not the array is in it. -/
theorem Closed.elements_later {array : Ref} (closed : region.Closed t)
    (frames : region.Frames s.heap t.heap) (inside : ∀ ref ∈ s.heap.elements array, region.has ref) :
    ∀ ref ∈ t.heap.elements array, region.has ref := by
  by_cases own : region.has array
  · exact closed.elements array own
  · intro ref member
    rw [Heap.elements_congr (frames array own)] at member
    exact inside ref member

/-- A write to a cell of the region hands over a sequence from inside the region. -/
theorem Closed.put {target : Ref} {value : Value} {cell : Cell} (closed : region.Closed s)
    (own : region.has target)
    (inside : ∀ array, value = .cell array → ∀ ref ∈ s.heap.elements array, region.has ref)
    (written : s.heap.written target value = .ok cell) :
    region.Closed { s with heap := s.heap.put target cell } ∧
      region.Frames s.heap (s.heap.put target cell) := by
  refine ⟨⟨by simpa using closed.start, closed.names, fun array has ref member => ?_⟩, fun ref outside => ?_⟩
  · rcases Heap.get_put s.heap target array cell with same | ⟨rfl, new⟩
    · rw [Heap.elements_congr same] at member
      exact closed.elements array has ref member
    · rcases Heap.written_cases written with
        ⟨_, _, _, rfl⟩ | ⟨_, _, _, rfl⟩ | ⟨_, _, source, _, taken, _, sent, found, _, rfl⟩
      · simp [Heap.elements, new] at member
      · simp [Heap.elements, new] at member
      · rw [Heap.elements_of_get new] at member
        exact inside source sent ref (by rwa [Heap.elements_of_get found])
  · exact Heap.get_put_of_ne fun same => outside (same ▸ own)

/-- New cells are in the region, and new arrays hold new cells. -/
theorem Closed.grown {later : Heap} {env : Env} (closed : region.Closed s) (grown : s.heap.Grown later)
    (names : env.Within region.has) :
    region.Closed { s with heap := later, env } ∧ region.Frames s.heap later := by
  have start := closed.start
  refine ⟨⟨Nat.le_trans start grown.size, names, fun array has ref member => ?_⟩, fun ref outside => ?_⟩
  · by_cases old : array.index < s.heap.size
    · rw [Heap.elements_congr (grown.old array old)] at member
      exact closed.elements array has ref member
    · obtain ⟨element, elements, content, inner⟩ := Heap.array_of_mem member
      have fresh := (grown.new array element elements (by omega) content ref inner).1
      exact region.new ref (by omega)
  · refine grown.old ref ?_
    have below : ¬ region.start ≤ ref.index := fun above => outside (region.new ref above)
    omega

def law (region : Region) : Law where
  inv := region.Closed
  rel s t := region.Frames s.heap t.heap
  val _ value := ∀ ref, value = .cell ref → region.has ref
  arg heap value := ∀ array, value = .cell array → ∀ ref ∈ heap.elements array, region.has ref
  declared _ := True
  refl s := .refl s.heap
  trans first second := first.trans second
  val_later _ _ good := good
  arg_later closed frames good array sent := closed.elements_later frames (good array sent)
  arg_of_val closed good array sent := closed.elements array (good array sent)
  val_int _ _ := nofun
  val_bool _ _ := nofun
  stack _ closed := ⟨⟨closed.start, closed.names, closed.elements⟩, .refl _⟩
  console _ closed := ⟨⟨closed.start, closed.names, closed.elements⟩, .refl _⟩
  settle closed _ _ _ := ⟨⟨closed.start, closed.names, closed.elements⟩, .refl _⟩
  lookup closed found := by
    rintro _ ⟨⟩
    exact closed.names.lookup found
  element closed good member := by
    rintro _ ⟨⟩
    exact closed.elements _ (good _ rfl) _ member
  assign closed own inside written := closed.put (own _ rfl) inside written
  alloc closed sound := closed.grown (Heap.alloc_grown _ _ sound).1 closed.names
  bind closed sound declared :=
    have made := Heap.alloc_grown _ _ sound
    have fresh := region.new _ (Nat.le_trans closed.start made.2.lower)
    closed.grown made.1 (closed.names.declare fresh declared)
  openBlock closed := ⟨closed.start, closed.names.pushScope, closed.elements⟩
  closeBlock _ closed frames := ⟨⟨closed.start, closed.names.popScope, closed.elements⟩, frames⟩
  enterCall closed := ⟨closed.start, .empty, closed.elements⟩
  leaveCall before closed frames := ⟨⟨closed.start, before.names, closed.elements⟩, frames⟩

/-- The new cells, and those found inside the arguments of a call. -/
def handed (heap : Heap) (args : List Value) : Region where
  start := heap.size
  has ref := heap.size ≤ ref.index ∨
    ∃ array, Value.cell array ∈ args ∧ Relation.TransGen heap.Holds array ref
  new _ above := .inl above

theorem handed_closed (s : State) (args : List Value) :
    (handed s.heap args).Closed { s with env := .empty, depth := s.depth + 1 } := by
  refine ⟨Nat.le_refl _, .empty, fun array has ref member => ?_⟩
  rcases has with above | ⟨given, sent, path⟩
  · -- No cell is there yet, so nothing is held.
    obtain ⟨element, elements, content, -⟩ := Heap.array_of_mem member
    exact absurd (Heap.lt_size_of_array content) (Nat.not_lt.mpr above)
  · exact .inr ⟨given, sent, path.tail member⟩

theorem handed_given (heap : Heap) (args : List Value) :
    ∀ arg ∈ args, (handed heap args).law.arg heap arg := by
  rintro arg sent array rfl ref member
  exact .inr ⟨array, sent, .single member⟩

end Region

namespace Eval

variable {context : Context} {fuel : Nat} {s : State}

/-- The caller's names may denote any cells: the region is that of the function only. -/
theorem enter_frames (function : FunctionDef Slot) (args : List Value) :
    (enter (eval context fuel) context function args).EndsIn s
      fun t => (Region.handed s.heap args).Frames s.heap t.heap := by
  let law := (Region.handed s.heap args).law
  have sound : law.Sound (eval context fuel) := law.sound_of_forall (fun _ => trivial) context fuel
  have runs := Law.activate_runs sound (function.every_of_forall fun _ => trivial)
    (Region.handed_closed s args) (Region.handed_given s.heap args)
  refine enter_ends (.refl s.heap) (Exec.Ends.thenAlways ?_)
  exact Exec.Ends.mono runs (fun _ _ ended => ended.1.rel) fun _ level => level.rel

theorem invoke_frames (name : String) (args : List Value) :
    (invoke (eval context fuel) context name args).EndsIn s
      fun t => (Region.handed s.heap args).Frames s.heap t.heap :=
  invoke_ends (.refl s.heap) fun function => enter_frames function args

end Eval

/-- A call leaves every cell alone that is not found inside an array argument, whether or not
it succeeds. In a typed heap no array is inside itself, so that the sequence of an only
array argument is safe as well. -/
theorem Interpreter.call_contents (interpreter : Interpreter) (fuel : Nat) (name : String)
    (args : List Value) (ref : Ref) (existed : ref.index < interpreter.state.heap.size)
    (apart : ∀ array, Value.cell array ∈ args →
      ¬ Relation.TransGen interpreter.state.heap.Holds array ref) :
    (interpreter.call fuel name args).2.state.heap.get ref = interpreter.state.heap.get ref := by
  have frames : (Region.handed interpreter.state.heap args).Frames interpreter.state.heap
      (interpreter.call fuel name args).2.state.heap :=
    Interpreter.perform_state (Eval.invoke_frames name args) (.refl _)
  refine frames ref ?_
  rintro (above | ⟨array, sent, path⟩)
  · omega
  · exact apart array sent path

/-- An interpreter with a number, an array of one number, and a function that sets its first
parameter and the element of its second. -/
def Interpreter.setter : Interpreter where
  context := { registry := { entries := [("set_int_array_int", {
    name := "set"
    params := [⟨"n", .int, ⟨0⟩⟩, ⟨"a", .array .int (.int 1), ⟨1⟩⟩]
    body := [.assign (.var "n") (.int 5), .assign (.index (.var "a") (.int 0)) (.int 9)]
    returns := .void })] } }
  state := {
    heap := { cells := #[.int 3, .int 0, .array .int #[⟨1⟩]] }
    resolved := { types := #[none, none] } }

/-- Only the last cell is an array, and it has one element. -/
theorem Interpreter.setter_holds {array ref : Ref} (holds : setter.state.heap.Holds array ref) : ref = ⟨1⟩ := by
  match array with
  | ⟨0⟩ => simp [Heap.Holds, Heap.elements, Heap.get, setter] at holds
  | ⟨1⟩ => simp [Heap.Holds, Heap.elements, Heap.get, setter] at holds
  | ⟨2⟩ => simpa [Heap.Holds, Heap.elements, Heap.get, setter] using holds
  | ⟨_ + 3⟩ => simp [Heap.Holds, Heap.elements, Heap.get, setter] at holds

/-- The element is set, the number and the array that were given are not. -/
theorem Interpreter.call_contents_setter :
    let later := (Interpreter.setter.call 4 "set" [.cell ⟨0⟩, .cell ⟨2⟩]).2.state.heap
    later.get ⟨1⟩ = .int 9 ∧ later.get ⟨0⟩ = .int 3 ∧ later.get ⟨2⟩ = .array .int #[⟨1⟩] := by
  have apart (ref : Ref) (other : ref ≠ ⟨1⟩) (array : Ref) :
      ¬ Relation.TransGen Interpreter.setter.state.heap.Holds array ref := by
    intro path
    obtain ⟨last, -, holds⟩ := Relation.TransGen.tail'_iff.mp path
    exact other (Interpreter.setter_holds holds)
  refine ⟨by decide +kernel, ?_, ?_⟩
  · exact Interpreter.setter.call_contents 4 "set" _ ⟨0⟩ (by decide)
      fun array _ => apart ⟨0⟩ (by decide) array
  · exact Interpreter.setter.call_contents 4 "set" _ ⟨2⟩ (by decide)
      fun array _ => apart ⟨2⟩ (by decide) array

end TreeLang
