import TreeLang.Proofs.CallEffects
import TreeLang.Proofs.Moments
import Mathlib.Data.List.Nodup

/-! What may share storage. A variable has a cell of its own, which no other variable has and no
array holds, and a cell is held at one position of one sequence at most. Arrays share their
sequences whole or not at all: assignment hands over a sequence as it is, and all new sequences
are made of new cells. This holds at every moment of every run, for the names of the callers
that wait as for those that are in use. -/
namespace TreeLang

/-! ### The cells that names denote -/

namespace Env

variable {env later : Env} {name : String} {ref : Ref}

/-- The cells of all bindings of all scopes, shadowed ones included. -/
def refs (env : Env) : List Ref := env.scopes.flatMap fun scope => scope.bindings.map (·.2)

theorem refs_popScope (env : Env) : env.popScope.refs.Sublist env.refs := by
  obtain ⟨inner, outer⟩ := env
  cases outer with
  | nil => exact List.Sublist.refl _
  | cons scope outer => exact List.sublist_append_right _ _

theorem refs_declare (declared : env.declare name ref = .ok later) : later.refs = ref :: env.refs := by
  simp only [Env.declare, Scope.declare] at declared
  split at declared
  · contradiction
  · cases declared
    rfl

theorem within_refs (env : Env) : env.Within (· ∈ env.refs) := by
  intro scope member binding bound
  exact List.mem_flatMap.mpr ⟨scope, member, List.mem_map_of_mem bound⟩

end Env

/-- The cells of all variables that are in use, first those of the running function. -/
def Moment.named (moment : Moment) : List Ref := (moment.state.env :: moment.callers).flatMap Env.refs

namespace Heap

variable {heap later : Heap} {ref array target : Ref} {cell : Cell} {value : Value} {loose others : List Ref}

/-! ### Sequences -/

/-- Two positions that hold the same cell are one position of one sequence. -/
def Separate (heap : Heap) : Prop :=
  ∀ (a b : Ref) (i j : Nat) (ref : Ref), (heap.elements a)[i]? = some ref →
    (heap.elements b)[j]? = some ref → i = j ∧ heap.elements a = heap.elements b

/-- A typed heap with separate sequences, and some of its cells that no array holds. -/
structure Tidy (heap : Heap) (loose : List Ref) : Prop where
  typed : heap.Typed
  separate : heap.Separate
  inside : ∀ ref ∈ loose, ref.index < heap.size
  distinct : loose.Nodup
  free : ∀ ref ∈ loose, ∀ array, ref ∉ heap.elements array

/-- Cells and tags are kept, and no old cell becomes an element. -/
structure Evolves (heap later : Heap) : Prop extends heap.Keeps later where
  held : ∀ ref, ref.index < heap.size → ∀ array, ref ∈ later.elements array → ∃ origin, ref ∈ heap.elements origin

theorem Evolves.refl (heap : Heap) : heap.Evolves heap :=
  ⟨.refl heap, fun _ _ array member => ⟨array, member⟩⟩

theorem Evolves.trans {mid : Heap} (first : heap.Evolves mid) (second : mid.Evolves later) :
    heap.Evolves later := by
  refine ⟨first.toKeeps.trans second.toKeeps, fun ref inside array member => ?_⟩
  obtain ⟨origin, held⟩ := second.held ref (Nat.lt_of_lt_of_le inside first.size) array member
  exact first.held ref inside origin held

/-- Loose cells stay loose, whatever others there are later. -/
theorem Tidy.evolve (tidy : heap.Tidy loose) (evolves : heap.Evolves later) (now : later.Tidy others) :
    later.Tidy loose := by
  refine ⟨now.typed, now.separate, fun ref member => ?_, tidy.distinct, fun ref member array held => ?_⟩
  · exact Nat.lt_of_lt_of_le (tidy.inside ref member) evolves.size
  · obtain ⟨origin, before⟩ := evolves.held ref (tidy.inside ref member) array held
    exact tidy.free ref member origin before

theorem Tidy.sublist (tidy : heap.Tidy loose) (fewer : others.Sublist loose) : heap.Tidy others :=
  ⟨tidy.typed, tidy.separate, fun ref member => tidy.inside ref (fewer.subset member),
    tidy.distinct.sublist fewer, fun ref member => tidy.free ref (fewer.subset member)⟩

theorem Tidy.perm (tidy : heap.Tidy loose) (same : loose.Perm others) : heap.Tidy others :=
  ⟨tidy.typed, tidy.separate, fun ref member => tidy.inside ref (same.mem_iff.mpr member),
    same.nodup_iff.mp tidy.distinct, fun ref member => tidy.free ref (same.mem_iff.mpr member)⟩

theorem Typed.lt_size_of_mem (typed : heap.Typed) (member : ref ∈ heap.elements array) :
    ref.index < heap.size := by
  obtain ⟨element, elements, content, held⟩ := array_of_mem member
  exact typed.inside content ref held

/-! ### Writing -/

/-- After a write every sequence is one that was there before. -/
theorem elements_put_written (written : heap.written target value = .ok cell) (ref : Ref) :
    ∃ origin, (heap.put target cell).elements ref = heap.elements origin := by
  rcases get_put heap target ref cell with same | ⟨rfl, new⟩
  · exact ⟨ref, elements_congr same⟩
  · rcases written_cases written with
      ⟨old, n, content, rfl⟩ | ⟨old, b, content, rfl⟩ | ⟨element, old, source, other, taken, -, -, found, -, rfl⟩
    · exact ⟨ref, by simp [elements, new, content]⟩
    · exact ⟨ref, by simp [elements, new, content]⟩
    · exact ⟨source, by rw [elements_of_get new, elements_of_get found]⟩

theorem evolves_put (written : heap.written target value = .ok cell) : heap.Evolves (heap.put target cell) := by
  refine ⟨keeps_put written, fun ref _ array member => ?_⟩
  obtain ⟨origin, same⟩ := elements_put_written written array
  exact ⟨origin, same ▸ member⟩

theorem Separate.put (separate : heap.Separate) (written : heap.written target value = .ok cell) :
    (heap.put target cell).Separate := by
  intro a b i j ref first second
  obtain ⟨origin, same⟩ := elements_put_written written a
  obtain ⟨other, alike⟩ := elements_put_written written b
  rw [same] at first ⊢
  rw [alike] at second ⊢
  exact separate _ _ i j ref first second

theorem Tidy.put (tidy : heap.Tidy loose) (written : heap.written target value = .ok cell) :
    (heap.put target cell).Tidy loose :=
  have now : (heap.put target cell).Tidy [] :=
    ⟨tidy.typed.put written, tidy.separate.put written, by simp, by simp, by simp⟩
  tidy.evolve (evolves_put written) now

/-! ### New cells -/

theorem Grown.evolves (grown : heap.Grown later) : heap.Evolves later := by
  refine ⟨grown.keeps, fun ref inside array member => ⟨array, ?_⟩⟩
  by_cases old : array.index < heap.size
  · rwa [elements_congr (grown.old array old)] at member
  · obtain ⟨element, elements, content, held⟩ := array_of_mem member
    have fresh := (grown.new array element elements (by omega) content ref held).1
    omega

theorem elements_push_of_ne (other : ref ≠ (heap.push cell).1) :
    (heap.push cell).2.elements ref = heap.elements ref := by
  have index : ref.index ≠ heap.cells.size := by
    intro same
    apply other
    cases ref
    simp_all [Heap.push]
  apply elements_congr
  simp [Heap.push, Heap.get, Array.getD_eq_getD_getElem?, Array.getElem?_push, index]

/-- A new cell may take loose cells for its elements, and is loose itself. -/
theorem Tidy.push {taken : Array Ref} (tidy : heap.Tidy (taken.toList ++ loose))
    (takes : (heap.push cell).2.elements (heap.push cell).1 = taken) (typed : (heap.push cell).2.Typed) :
    (heap.push cell).2.Tidy ((heap.push cell).1 :: loose) := by
  obtain ⟨distinct, distinctLoose, disjoint⟩ := List.nodup_append.mp tidy.distinct
  have new : (heap.push cell).1.index = heap.size := rfl
  have beyond (ref : Ref) (old : ref.index < heap.size) : ref ≠ (heap.push cell).1 := by
    rintro rfl
    omega
  refine ⟨typed, ?_, ?_, ?_, ?_⟩
  · intro a b i j ref first second
    have inTaken {k : Nat} (found : taken[k]? = some ref) : ref ∈ taken.toList ++ loose :=
      List.mem_append_left _ (Array.mem_of_getElem? found).val
    by_cases isA : a = (heap.push cell).1 <;> by_cases isB : b = (heap.push cell).1
    · subst isA isB
      rw [takes] at first second
      refine ⟨?_, rfl⟩
      rw [← Array.getElem?_toList] at first second
      obtain ⟨shorter, atI⟩ := List.getElem?_eq_some_iff.mp first
      exact (List.getElem?_inj shorter distinct).mp (first.trans second.symm)
    · subst isA
      rw [takes] at first
      rw [elements_push_of_ne isB] at second
      exact absurd (Array.mem_of_getElem? second) (tidy.free ref (inTaken first) b)
    · subst isB
      rw [takes] at second
      rw [elements_push_of_ne isA] at first
      exact absurd (Array.mem_of_getElem? first) (tidy.free ref (inTaken second) a)
    · rw [elements_push_of_ne isA] at first ⊢
      rw [elements_push_of_ne isB] at second ⊢
      exact tidy.separate a b i j ref first second
  · intro ref member
    rw [size_push]
    rcases List.mem_cons.mp member with rfl | member
    · omega
    · have := tidy.inside ref (List.mem_append_right _ member)
      omega
  · refine List.nodup_cons.mpr ⟨fun member => ?_, distinctLoose⟩
    exact beyond _ (tidy.inside _ (List.mem_append_right _ member)) rfl
  · intro ref member array held
    by_cases self : array = (heap.push cell).1
    · rw [self, takes] at held
      have taken' : ref ∈ taken.toList := held.val
      rcases List.mem_cons.mp member with rfl | member
      · exact beyond _ (tidy.inside _ (List.mem_append_left _ taken')) rfl
      · exact disjoint ref taken' ref member rfl
    · rw [elements_push_of_ne self] at held
      rcases List.mem_cons.mp member with rfl | member
      · exact beyond _ (tidy.typed.lt_size_of_mem held) rfl
      · exact tidy.free ref (List.mem_append_right _ member) array held

/-- The cells of a new sequence are loose until the array that takes them is made. -/
theorem allocTimes_tidy {one : Heap → Ref × Heap}
    (each : ∀ {heap : Heap} {loose}, heap.Tidy loose → (one heap).2.Tidy ((one heap).1 :: loose)) (times : Nat)
    (refs : Array Ref) (tidy : heap.Tidy (refs.toList ++ loose)) :
    (allocTimes one times refs heap).2.Tidy ((allocTimes one times refs heap).1.toList ++ loose) := by
  induction times generalizing refs heap with
  | zero => exact tidy
  | succ times ih =>
    have collected : (one heap).1 :: (refs.toList ++ loose) |>.Perm ((refs.push (one heap).1).toList ++ loose) := by
      simpa using List.perm_middle.symm
    exact ih (refs.push (one heap).1) ((each tidy).perm collected)

theorem Tidy.alloc {ty : Ty} (tidy : heap.Tidy loose) (sound : ty.fault? = none) :
    (heap.alloc ty).2.Tidy ((heap.alloc ty).1 :: loose) := by
  have typed : (heap.alloc ty).2.Typed := tidy.typed.grown (alloc_grown ty heap sound).1
  induction ty generalizing heap loose with
  | int =>
    have none : heap.Tidy ((#[] : Array Ref).toList ++ loose) := tidy
    exact none.push (by simp [elements, get_push_self]) typed
  | bool =>
    have none : heap.Tidy ((#[] : Array Ref).toList ++ loose) := tidy
    exact none.push (by simp [elements, get_push_self]) typed
  | void => simp [Ty.fault?] at sound
  | array element size ih =>
    simp only [Ty.fault?] at sound
    split at sound
    · contradiction
    · have made : (allocTimes (Heap.alloc element) size #[] heap).2.Tidy
          ((allocTimes (Heap.alloc element) size #[] heap).1.toList ++ loose) :=
        allocTimes_tidy (fun tidy => ih tidy sound (tidy.typed.grown (alloc_grown element _ sound).1)) size #[] tidy
      exact made.push (by simp [elements, get_push_self]) typed

theorem tidy_empty : Heap.empty.Tidy [] := by
  have none (array : Ref) (position : Nat) (ref : Ref) : (Heap.empty.elements array)[position]? ≠ some ref := nofun
  exact ⟨typed_empty, fun a _ i _ ref found => absurd found (none a i ref), by simp, by simp, by simp⟩

/-! ### What the owner of the cells does -/

theorem Tidy.create {ty : Ty} (tidy : heap.Tidy loose) (created : heap.create ty = .ok (ref, later)) :
    later.Tidy loose := by
  obtain ⟨sound, rfl⟩ := create_ok created
  exact (tidy.alloc sound).sublist (List.sublist_cons_self _ _)

theorem Tidy.assign (tidy : heap.Tidy loose) (assigned : heap.assign target value = .ok later) :
    later.Tidy loose := by
  obtain ⟨cell, written, rfl⟩ := assign_ok assigned
  exact tidy.put written

/-! ### Elements -/

/-- Two elements are the same storage exactly if they are at the same index of arrays that
share their sequence. -/
theorem Separate.element_eq_iff (separate : heap.Separate) {a b x y : Ref} {i j : Int64}
    (first : heap.element a i = .ok x) (second : heap.element b j = .ok y) :
    x = y ↔ i = j ∧ heap.elements a = heap.elements b := by
  obtain ⟨positiveI, atI⟩ := element_ok first
  obtain ⟨positiveJ, atJ⟩ := element_ok second
  constructor
  · rintro rfl
    obtain ⟨position, sequence⟩ := separate a b _ _ x atI atJ
    refine ⟨Int64.toInt_inj.mp ?_, sequence⟩
    omega
  · rintro ⟨rfl, sequence⟩
    rw [sequence] at atI
    exact Option.some.inj (atI.symm.trans atJ)

end Heap

/-! ### Runs -/

/-- The variables are loose cells of a tidy heap, those of the callers that wait included. -/
def Law.storage (callers : List Env) : Law where
  inv s := s.heap.Tidy (Moment.named ⟨callers, s⟩)
  rel s t := t.depth = s.depth ∧ s.heap.Evolves t.heap
  val heap value := ∀ ref, value = .cell ref → ref.index < heap.size
  arg _ _ := True
  declared _ := True
  refl s := ⟨rfl, .refl s.heap⟩
  trans first second := ⟨second.1.trans first.1, first.2.trans second.2⟩
  val_later _ related good ref sent := Nat.lt_of_lt_of_le (good ref sent) related.2.size
  arg_later _ _ _ := trivial
  arg_of_val _ _ := trivial
  val_int _ _ := nofun
  val_bool _ _ := nofun
  stack _ tidy := ⟨tidy, rfl, .refl _⟩
  console _ tidy := ⟨tidy, rfl, .refl _⟩
  settle tidy _ _ _ := ⟨tidy, rfl, .refl _⟩
  lookup {s _ _} tidy found := by
    rintro _ ⟨⟩
    exact tidy.inside _ (List.mem_append_left _ (s.env.within_refs.lookup found))
  element tidy _ member := by
    rintro _ ⟨⟩
    exact tidy.typed.lt_size_of_mem member
  assign tidy _ _ written := ⟨tidy.put written, rfl, Heap.evolves_put written⟩
  alloc tidy sound :=
    ⟨(tidy.alloc sound).sublist (List.sublist_cons_self _ _), rfl, (Heap.alloc_grown _ _ sound).1.evolves⟩
  bind {s ty name env} tidy sound declared := by
    refine ⟨?_, rfl, (Heap.alloc_grown _ _ sound).1.evolves⟩
    have gained : Moment.named ⟨callers, { s with heap := (s.heap.alloc ty).2, env }⟩ =
        (s.heap.alloc ty).1 :: Moment.named ⟨callers, s⟩ := by
      simp [Moment.named, Env.refs_declare declared]
    rw [gained]
    exact tidy.alloc sound
  openBlock tidy := tidy
  closeBlock _ tidy related := ⟨tidy.sublist ((Env.refs_popScope _).append_right _), related⟩
  enterCall tidy := tidy.sublist (List.sublist_append_right _ _)
  leaveCall before now related :=
    ⟨before.evolve related.2 now, Nat.sub_eq_of_eq_add related.1, related.2⟩

/-- Who waits has the names that were in use. -/
def Watch.storage : Watch where
  law := Law.storage
  declared _ _ := trivial
  given _ _ _ := trivial
  level related := related.1
  enter tidy := tidy

namespace Interpreter

variable {interpreter : Interpreter} {moment : Moment}

theorem Reachable.tidy (reachable : interpreter.Reachable) :
    interpreter.state.heap.Tidy interpreter.moment.named := by
  induction reachable with
  | start console maxCallDepth => exact Heap.tidy_empty
  | restart console maxCallDepth _ ih => exact ih.sublist (List.nil_sublist _)
  | placeProgram program _ ih => exact ih
  | placeNode node _ ih => exact ih
  | step _ step ih => exact ((Law.storage []).step_kept (fun _ => trivial) (fun _ _ => trivial) ih step).1
  | create _ created ih => exact ih.create created
  | assign _ assigned ih => exact ih.assign assigned

/-- At every moment that an interpreter passes, in whatever state earlier operations have left
it: all variables of the running function and of the callers that wait have different cells;
no array holds the cell of a variable; a cell is at one position of one sequence at most; and
so two elements are the same storage exactly if they are at the same index of arrays that share
their sequence. -/
theorem Reachable.sharing (reachable : interpreter.Reachable) (passes : interpreter.Passes moment) :
    moment.named.Nodup ∧
    (∀ ref ∈ moment.named, ∀ array, ref ∉ moment.state.heap.elements array) ∧
    moment.state.heap.Separate ∧
    ∀ a b i j x y, moment.state.heap.element a i = .ok x → moment.state.heap.element b j = .ok y →
      (x = y ↔ i = j ∧ moment.state.heap.elements a = moment.state.heap.elements b) := by
  have tidy : moment.state.heap.Tidy moment.named :=
    Watch.storage.holds_of_interpreter_passes reachable.tidy passes
  refine ⟨tidy.distinct, tidy.free, tidy.separate, ?_⟩
  exact fun _ _ _ _ _ _ first second => tidy.separate.element_eq_iff first second

def getter : FunctionDef Slot where
  name := "get"
  params := [⟨"k", .int, ⟨0⟩⟩]
  body := [.ret (some (.var "k"))]
  returns := .int

/-- An interpreter that has declared two arrays and then assigned the first to the second. -/
def twins : Interpreter where
  context := { registry := { entries := [("get_int", getter)] }, maxCallDepth := 5 }
  state := {
    heap := { cells := #[.int 0, .int 0, .array .int #[⟨0⟩, ⟨1⟩], .int 0, .int 0, .array .int #[⟨0⟩, ⟨1⟩]] }
    env := { inner := { bindings := [("b", ⟨5⟩), ("a", ⟨2⟩)] } } }

theorem twins_reachable : twins.Reachable := by
  have loaded := (Reachable.start {} 5).step (.load ⟨[getter]⟩)
  have first := loaded.step (.evaluate 3 (.declare ⟨"a", .array .int (.int 2), ⟨1⟩⟩))
  have second := first.step (.evaluate 3 (.declare ⟨"b", .array .int (.int 2), ⟨2⟩⟩))
  exact second.step (.evalExpr 3 (.assign (.var "b") (.var "a")))

/-- The function has been given an element and is about to run its body. -/
def getting : Moment where
  callers := [twins.state.env]
  state := {
    heap := { cells := twins.state.heap.cells.push (.int 0) }
    env := { inner := { bindings := [("k", ⟨6⟩)] } }
    stack := { frames := [0] }
    depth := 1 }

theorem twins_passes : twins.Passes getting := by
  have consults : Consults (fun below => Eval.invoke below twins.context "get" [.cell ⟨1⟩] twins.state)
      (eval twins.context 3) (.ret (some (.var "k"))) getting.state := by
    refine consults_of_failing fun failure other _ fails => ?_
    have body : Eval.statements other getter.body getting.state = .error failure getting.state := by
      rw [getter, Eval.statements]
      refine Exec.bind_of_error ?_
      rw [Eval.statement, Exec.height_bind, Exec.bind_of_error fails]
    have framed : ((Eval.statements other getter.body).thenAlways fun s => { s with stack := s.stack.popFrame })
        getting.state = .error failure { getting.state with stack := getting.state.stack.popFrame } := by
      simp only [Exec.thenAlways, body]
    have parameters : Eval.invoke other twins.context "get" [.cell ⟨1⟩] twins.state =
        (((Eval.statements other getter.body).thenAlways fun s => { s with stack := s.stack.popFrame }) >>=
          Eval.finish getter).thenAlways (fun t => { t with env := twins.state.env, depth := t.depth - 1 }) getting.state :=
      rfl
    rw [parameters, Exec.thenAlways, Exec.bind_of_error framed]
    exact ⟨_, rfl⟩
  exact .call consults .start

/-- The parameter has a cell of its own, while the arrays of the caller share theirs. -/
theorem Reachable.sharing_getting : getting.named = [⟨6⟩, ⟨5⟩, ⟨2⟩] ∧ getting.named.Nodup ∧
    getting.state.heap.element ⟨2⟩ 1 = getting.state.heap.element ⟨5⟩ 1 ∧ getting.state.heap.Separate := by
  obtain ⟨distinct, -, separate, -⟩ := Reachable.sharing twins_reachable twins_passes
  exact ⟨rfl, distinct, rfl, separate⟩

end Interpreter

end TreeLang
