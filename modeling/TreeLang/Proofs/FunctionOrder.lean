import TreeLang.Proofs.SideBySide
import TreeLang.Proofs.Signatures
import Mathlib.Data.List.Perm.Basic

/-! Loading a program, and the order of its functions. Functions are added one by one, and the first
that is refused ends it. All that a run asks of the functions is which one has a given signature, so
the order they were added in cannot be told; the slots of a program whose functions stand in
another order have other numbers, but that is a renaming and no more. -/
namespace TreeLang

variable {δ ε ρ : Type}

/-! ### What can be loaded -/

/-- No function has the name of a built-in one, all parameters can hold a value, and no two
functions have the same signature. -/
structure Loadable (functions : List (FunctionDef δ)) : Prop where
  own : ∀ function ∈ functions, ∀ builtin : Builtin, function.name ≠ builtin.name
  storable : ∀ function ∈ functions, ∀ param ∈ function.params, param.ty.tag.Storable
  distinct : (functions.map (·.signature)).Nodup

theorem Builtin.ofName?_eq_none_iff {name : String} :
    ofName? name = none ↔ ∀ builtin : Builtin, name ≠ builtin.name := by
  constructor
  · intro absent builtin same
    have found := List.find?_eq_none.mp absent builtin (by cases builtin <;> decide)
    exact found (by simp [same])
  · intro own
    refine List.find?_eq_none.mpr fun builtin _ => ?_
    simpa using fun same => own builtin same.symm

theorem FunctionDef.admissible_iff {function : FunctionDef δ} :
    function.Admissible ↔ (∀ builtin : Builtin, function.name ≠ builtin.name) ∧
      ∀ param ∈ function.params, param.ty.tag.Storable := by
  rw [← Builtin.ofName?_eq_none_iff]
  exact ⟨fun admissible => ⟨admissible.own, List.forall_mem_map.mp admissible.storable⟩,
    fun both => ⟨both.1, List.forall_mem_map.mpr both.2⟩⟩

theorem loadable_nil : Loadable ([] : List (FunctionDef δ)) := ⟨by simp, by simp, by simp⟩

theorem loadable_append_singleton {functions : List (FunctionDef δ)} {function : FunctionDef δ}
    (loadable : Loadable functions) : Loadable (functions ++ [function]) ↔
      function.Admissible ∧ function.signature ∉ functions.map (·.signature) := by
  rw [FunctionDef.admissible_iff]
  constructor
  · intro all
    have distinct := all.distinct
    rw [List.map_append, List.nodup_append] at distinct
    refine ⟨⟨all.own function (by simp), all.storable function (by simp)⟩, fun taken => ?_⟩
    exact distinct.2.2 _ taken _ (by simp) rfl
  · rintro ⟨⟨own, storable⟩, free⟩
    refine ⟨?_, ?_, ?_⟩
    · simpa [or_imp, forall_and] using ⟨loadable.own, own⟩
    · simpa [or_imp, forall_and] using ⟨loadable.storable, storable⟩
    · rw [List.map_append, List.map_singleton, List.nodup_append]
      refine ⟨loadable.distinct, by simp, ?_⟩
      intro signature listed other single same
      cases List.mem_singleton.mp single
      exact free (same ▸ listed)

theorem Loadable.of_append {front back : List (FunctionDef δ)} (loadable : Loadable (front ++ back)) :
    Loadable front :=
  ⟨fun function listed => loadable.own function (List.mem_append_left _ listed),
    fun function listed => loadable.storable function (List.mem_append_left _ listed),
    loadable.distinct.sublist ((List.sublist_append_left front back).map _)⟩

theorem Loadable.perm {functions others : List (FunctionDef δ)} (loadable : Loadable functions)
    (same : functions.Perm others) : Loadable others :=
  ⟨fun function listed => loadable.own function (same.mem_iff.mpr listed),
    fun function listed => loadable.storable function (same.mem_iff.mpr listed),
    (same.map _).nodup_iff.mp loadable.distinct⟩

/-! ### Registration -/

namespace Registry

/-- The functions in their order, each under its signature. -/
def ofFunctions (functions : List (FunctionDef δ)) : Registry δ where
  entries := (functions.map fun function => (function.signature, function)).reverse

variable {functions front : List (FunctionDef δ)} {function : FunctionDef δ}

theorem registered_ofFunctions : (ofFunctions functions).registered = functions.map (·.signature) := by
  simp [registered, ofFunctions, Function.comp_def]

theorem ofFunctions_concat : ofFunctions (functions ++ [function]) =
    ⟨(function.signature, function) :: (ofFunctions functions).entries⟩ := by
  simp [ofFunctions]

/-- With different signatures each function is found under its own. -/
theorem get?_ofFunctions (distinct : (functions.map (·.signature)).Nodup) {signature : String} :
    (ofFunctions functions).get? signature = some function ↔
      function ∈ functions ∧ function.signature = signature := by
  induction functions using List.reverseRecOn with
  | nil => simp [ofFunctions, get?]
  | append_singleton functions last ih =>
    rw [List.map_append, List.nodup_append] at distinct
    obtain ⟨inner, -, apart⟩ := distinct
    rw [ofFunctions_concat, get?, List.lookup_cons]
    by_cases same : signature = last.signature
    · subst same
      simp only [beq_self_eq_true, Option.some.injEq]
      constructor
      · rintro rfl
        exact ⟨by simp, rfl⟩
      · rintro ⟨listed, alike⟩
        rcases List.mem_append.mp listed with early | late
        · exact absurd alike (apart _ (List.mem_map_of_mem early) _ (by simp))
        · exact (List.mem_singleton.mp late).symm
    · have differs : (signature == last.signature) = false := by simpa using same
      rw [differs]
      refine (ih inner).trans ?_
      constructor
      · rintro ⟨listed, alike⟩
        exact ⟨List.mem_append_left _ listed, alike⟩
      · rintro ⟨listed, rfl⟩
        rcases List.mem_append.mp listed with early | late
        · exact ⟨early, rfl⟩
        · exact absurd (congrArg FunctionDef.signature (List.mem_singleton.mp late)) same

theorem get?_ofFunctions_eq_none_iff {signature : String} :
    (ofFunctions functions).get? signature = none ↔ signature ∉ functions.map (·.signature) := by
  constructor
  · intro absent taken
    obtain ⟨function, listed, rfl⟩ := List.mem_map.mp taken
    have member : (function.signature, function) ∈ (ofFunctions functions).entries :=
      List.mem_reverse.mpr (List.mem_map_of_mem listed)
    have other := List.lookup_eq_none_iff.mp absent _ member
    simp at other
  · intro free
    refine List.lookup_eq_none_iff.mpr fun entry member => ?_
    obtain ⟨function, listed, rfl⟩ := List.mem_map.mp (List.mem_reverse.mp member)
    rw [bne_iff_ne]
    rintro rfl
    exact free (List.mem_map_of_mem listed)

/-- Just these functions have been registered, in this order, and none has been lost. -/
structure Holds (registry : Registry δ) (functions : List (FunctionDef δ)) : Prop where
  registered : registry.registered = functions.map (·.signature)
  found : ∀ function ∈ functions, registry.get? function.signature = some function

theorem holds_ofFunctions (distinct : (functions.map (·.signature)).Nodup) :
    (ofFunctions functions).Holds functions :=
  ⟨registered_ofFunctions, fun _ listed => (get?_ofFunctions distinct).mpr ⟨listed, rfl⟩⟩

/-- One function more is taken exactly if all together can be loaded. -/
theorem register_ofFunctions (loadable : Loadable functions) (function : FunctionDef δ) :
    (Loadable (functions ++ [function]) ∧
      (ofFunctions functions).register function = .ok (ofFunctions (functions ++ [function]))) ∨
    (¬ Loadable (functions ++ [function]) ∧
      ∃ failure, (ofFunctions functions).register function = .error failure) := by
  rw [loadable_append_singleton loadable, ofFunctions_concat, ← get?_ofFunctions_eq_none_iff, register]
  rcases (ofFunctions functions).refusal?_cases function with
    ⟨admissible, refusal⟩ | ⟨refused, failure, refusal, -⟩
  · rw [refusal]
    cases taken : (ofFunctions functions).get? function.signature with
    | none => exact .inl ⟨⟨admissible, rfl⟩, rfl⟩
    | some prior => exact .inr ⟨by simp, _, rfl⟩
  · rw [refusal]
    exact .inr ⟨fun both => refused both.1, failure, rfl⟩

/-- Functions are added up to the first that cannot be loaded together with those before it. -/
theorem registerAll_ofFunctions (loadable : Loadable front) (functions : List (FunctionDef δ)) :
    (Loadable (front ++ functions) ∧
      (ofFunctions front).registerAll functions = (ofFunctions (front ++ functions), .ok ())) ∨
    ∃ taken offending rest failure, functions = taken ++ offending :: rest ∧ Loadable (front ++ taken) ∧
      ¬ Loadable (front ++ taken ++ [offending]) ∧
      (ofFunctions front).registerAll functions = (ofFunctions (front ++ taken), .error failure) := by
  induction functions generalizing front with
  | nil => exact .inl ⟨by simpa using loadable, by simp [registerAll]⟩
  | cons function rest ih =>
    unfold registerAll
    rcases register_ofFunctions loadable function with ⟨more, registered⟩ | ⟨refused, failure, registered⟩
    · rw [registered]
      rcases ih more with ⟨all, ends⟩ | ⟨taken, offending, others, failure, split, before, stops, ends⟩
      · exact .inl ⟨by simpa using all, by simpa using ends⟩
      · refine .inr ⟨function :: taken, offending, others, failure, by rw [split]; rfl, ?_, ?_, ?_⟩
        · simpa using before
        · simpa using stops
        · simpa using ends
    · rw [registered]
      exact .inr ⟨[], function, rest, failure, rfl, by simpa using loadable, by simpa using refused, by simp⟩

end Registry

/-! ### Slots in another order -/

theorem FunctionDef.signature_map (f : δ → ε) (function : FunctionDef δ) :
    (function.map f).signature = function.signature := by
  have tags : (function.params.map (Declaration.map f)).map (·.ty.tag) = function.params.map (·.ty.tag) := by
    simp [Function.comp_def, TypeSpec.tag_map]
  rw [FunctionDef.map_eq, FunctionDef.signature, FunctionDef.signature, tags]

theorem FunctionDef.admissible_map (f : δ → ε) {function : FunctionDef δ} :
    (function.map f).Admissible ↔ function.Admissible := by
  simp only [FunctionDef.admissible_iff, FunctionDef.map_eq, List.forall_mem_map, Declaration.ty_map,
    TypeSpec.tag_map]

theorem loadable_iff {functions : List (FunctionDef δ)} :
    Loadable functions ↔ (∀ function ∈ functions, function.Admissible) ∧
      (functions.map (·.signature)).Nodup := by
  simp only [FunctionDef.admissible_iff]
  exact ⟨fun loadable => ⟨fun function listed => ⟨loadable.own function listed, loadable.storable function listed⟩,
    loadable.distinct⟩, fun both => ⟨fun function listed => (both.1 function listed).1,
    fun function listed => (both.1 function listed).2, both.2⟩⟩

theorem loadable_map (f : δ → ε) {functions : List (FunctionDef δ)} :
    Loadable (functions.map (FunctionDef.map f)) ↔ Loadable functions := by
  simp only [loadable_iff, List.forall_mem_map, FunctionDef.admissible_map, List.map_map,
    Function.comp_def, FunctionDef.signature_map]

/-- The second functions are the first in some order, with other slots that hold the same types. -/
structure Renumbered (first second : Program Slot) (table other : Resolutions) (slot : Slot → Slot) : Prop where
  functions : (first.functions.map (FunctionDef.map slot)).Perm second.functions
  inside : ∀ d ∈ first.declarations, d.note.index < table.types.size ∧ (slot d.note).index < other.types.size
  apart : ∀ d ∈ first.declarations, ∀ e ∈ first.declarations, slot d.note = slot e.note → d.note = e.note
  types : ∀ d ∈ first.declarations, other.get? (slot d.note) = table.get? d.note

/-- Each slot gets the number that stands at its place in the list. -/
def renumber (slots : List Slot) (slot : Slot) : Slot := slots.getD slot.index ⟨0⟩

theorem map_renumber (slots : List Slot) :
    ((List.range' 0 slots.length).map Slot.mk).map (renumber slots) = slots := by
  apply List.ext_getElem
  · simp
  · intro i _ within
    simp [renumber, within]

theorem Program.notes_map (f : δ → ε) (program : Program δ) :
    (program.map f).declarations.map (·.note) = program.declarations.map fun d => f d.note := by
  simp [Program.declarations_map, Function.comp_def]

theorem renumbered_of_lays {program other : Program (Option Ty)} {first second : Program Slot}
    {table table' : Resolutions} (reordered : program.functions.Perm other.functions)
    (lays : Resolutions.empty.Lays program.declarations first.declarations table)
    (lays' : Resolutions.empty.Lays other.declarations second.declarations table')
    (back : first.map table.get? = program) (back' : second.map table'.get? = other) :
    ∃ slot, Renumbered first second table table' slot := by
  -- The functions of the second program, in the order of the first.
  obtain ⟨functions, shape, perm⟩ : ∃ functions : List (FunctionDef Slot),
      program.functions = functions.map (FunctionDef.map table'.get?) ∧ functions.Perm second.functions := by
    have placed : other.functions = second.functions.map (FunctionDef.map table'.get?) := by
      rw [← back', Program.map_eq]
    rw [placed] at reordered
    have lifted := congrFun₂ (List.eq_map_comp_perm (FunctionDef.map table'.get?)) program.functions second.functions
    exact lifted.mpr reordered
  let permuted : Program Slot := ⟨functions⟩
  have same : permuted.map table'.get? = program := by rw [Program.map_eq, ← shape]
  let slots := permuted.declarations.map (·.note)
  have listed : slots.Perm (second.declarations.map (·.note)) :=
    (List.Perm.flatMap_right _ perm).map _
  have count : program.declarations.length = slots.length := by
    simp [slots, ← same, Program.declarations_map]
  have notes : first.declarations.map (fun d => renumber slots d.note) = slots := by
    calc first.declarations.map (fun d => renumber slots d.note)
      _ = (first.declarations.map (·.note)).map (renumber slots) := by
        rw [List.map_map]
        rfl
      _ = ((List.range' 0 slots.length).map Slot.mk).map (renumber slots) := by
        rw [lays.slots, count]
        rfl
      _ = slots := map_renumber slots
  have renamed : first.functions.map (FunctionDef.map (renumber slots)) = functions := by
    have alike : first.functions.map (FunctionDef.map table.get?) =
        functions.map (FunctionDef.map table'.get?) := by
      rw [← shape, ← back, Program.map_eq]
    exact FunctionDef.map_eq_of_notes (renumber slots) ⟨0⟩ alike notes
  refine ⟨renumber slots, renamed ▸ perm, fun d member => ⟨(lays.bounds member).2, ?_⟩, ?_, ?_⟩
  · have here : renumber slots d.note ∈ first.declarations.map fun d => renumber slots d.note :=
      List.mem_map.mpr ⟨d, member, rfl⟩
    rw [notes] at here
    obtain ⟨e, placed, numbered⟩ := List.mem_map.mp (listed.mem_iff.mp here)
    rw [← numbered]
    exact (lays'.bounds placed).2
  · have distinct : (first.declarations.map fun d => renumber slots d.note).Nodup := by
      rw [notes]
      exact listed.nodup_iff.mpr lays'.distinct
    intro d here e there alike
    exact congrArg Declaration.note (List.inj_on_of_nodup_map distinct here there alike)
  · have held : first.declarations.map (fun d => table'.get? (renumber slots d.note)) =
        first.declarations.map (fun d => table.get? d.note) := by
      calc first.declarations.map (fun d => table'.get? (renumber slots d.note))
        _ = (first.declarations.map fun d => renumber slots d.note).map table'.get? := by
          rw [List.map_map]
          rfl
        _ = permuted.declarations.map (fun d => table'.get? d.note) := by
          rw [notes, List.map_map]
          rfl
        _ = first.declarations.map (fun d => table.get? d.note) := by
          rw [← Program.notes_map, ← Program.notes_map, same, back]
    exact List.map_inj_left.mp held

/-- A program that is placed with its functions in another order has the same slots, but for their
numbers. -/
theorem Program.exists_renumbered {program other : Program (Option Ty)}
    (reordered : program.functions.Perm other.functions) :
    ∃ slot, Renumbered (Resolutions.empty.placeProgram program).1 (Resolutions.empty.placeProgram other).1
      (Resolutions.empty.placeProgram program).2 (Resolutions.empty.placeProgram other).2 slot :=
  renumbered_of_lays reordered (program.lays .empty) (other.lays .empty)
    (program.map_get?_place (.refl _)) (other.map_get?_place (.refl _))

/-! ### Runs -/

/-- The second run has other slots for the declarations of the first. -/
def Twin.renumbered (declarations : List (Declaration Slot)) (slot : Slot → Slot) : Twin where
  names := { Renaming.same with slot }
  alike v w := w.console = v.console ∧ ∀ d ∈ declarations,
    (d.note.index < v.resolved.types.size ∧ (slot d.note).index < w.resolved.types.size) ∧
      w.resolved.get? (slot d.note) = v.resolved.get? d.note
  later _ _ := True
  fine _ := True
  final _ _ := True
  refl _ := trivial
  trans _ _ := trivial
  fine_of_later _ _ := trivial
  fine_of_final _ := trivial
  later_print _ _ := trivial
  later_read _ := trivial
  prints line alike := ⟨congrArg (Console.writeLine · line) alike.1, alike.2⟩
  reads read _ alike := ⟨_, (congrArg Console.readToken alike.1).trans read, rfl, alike.2⟩
  readFails read _ alike := ⟨_, (congrArg Console.readToken alike.1).trans read, rfl, alike.2⟩

theorem Twin.renumbered_settles {declarations : List (Declaration Slot)} {slot : Slot → Slot}
    (apart : ∀ d ∈ declarations, ∀ e ∈ declarations, slot d.note = slot e.note → d.note = e.note) :
    (Twin.renumbered declarations slot).Settles (· ∈ declarations) where
  known listed alike := (alike.2 _ listed).2
  settled {d v w} ty listed alike := by
    refine ⟨alike.1, fun e member => ?_⟩
    obtain ⟨inside, same⟩ := alike.2 e member
    have size := (Resolutions.kept_settle v.resolved d.note ty).size
    have size' := (Resolutions.kept_settle w.resolved (slot d.note) ty).size
    refine ⟨by rw [size]; exact ⟨inside.1, size' ▸ inside.2⟩, ?_⟩
    by_cases own : e.note = d.note
    · obtain ⟨⟨room, room'⟩, known⟩ := alike.2 d listed
      rw [own, Resolutions.get?_settle_self room]
      exact (Resolutions.get?_settle_self room').trans (by rw [known])
    · have other : slot e.note ≠ slot d.note := fun equal => own (apart e member d listed equal)
      rw [Resolutions.get?_settle_of_ne own]
      exact (Resolutions.get?_settle_of_ne other).trans same
  later _ _ _ := trivial

namespace Renumbered

variable {first second : Program Slot} {table other : Resolutions} {slot : Slot → Slot}

theorem loadable_iff (renumbered : Renumbered first second table other slot) :
    Loadable second.functions ↔ Loadable first.functions := by
  have same := renumbered.functions
  exact ⟨fun loadable => (loadable_map slot).mp (loadable.perm same.symm),
    fun loadable => ((loadable_map slot).mpr loadable).perm same⟩

/-- Either order has the same function for each signature, but for its slots. -/
theorem resolve (renumbered : Renumbered first second table other slot) (loadable : Loadable first.functions)
    (signature : String) : (Registry.ofFunctions second.functions).resolve signature =
      ((Registry.ofFunctions first.functions).resolve signature).map (FunctionDef.map slot) := by
  have distinct := (renumbered.loadable_iff.mpr loadable).distinct
  have signatures : (second.functions.map (·.signature)).Perm (first.functions.map (·.signature)) := by
    have same := renumbered.functions.symm.map (·.signature)
    simpa [Function.comp_def, FunctionDef.signature_map] using same
  unfold Registry.resolve
  cases found : (Registry.ofFunctions first.functions).get? signature with
  | none =>
    have absent : (Registry.ofFunctions second.functions).get? signature = none := by
      rw [Registry.get?_ofFunctions_eq_none_iff] at found ⊢
      rwa [signatures.mem_iff]
    rw [absent]
    rfl
  | some function =>
    obtain ⟨listed, rfl⟩ := (Registry.get?_ofFunctions loadable.distinct).mp found
    have present : (Registry.ofFunctions second.functions).get? function.signature = some (function.map slot) :=
      (Registry.get?_ofFunctions distinct).mpr
        ⟨renumbered.functions.mem_iff.mp (List.mem_map_of_mem listed), function.signature_map slot⟩
    rw [present]
    rfl

end Renumbered

namespace Interpreter

/-- A program, with the types that its declarations have already, in an interpreter of its own. -/
def fresh (program : Program (Option Ty)) (console : Console) (maxCallDepth : Nat) :
    Program Slot × Interpreter :=
  let (placed, resolved) := Resolutions.empty.placeProgram program
  (placed, { context := { maxCallDepth }, state := { console, resolved } })

/-- The interpreter with just these functions. -/
def withFunctions (interpreter : Interpreter) (functions : List (FunctionDef Slot)) : Interpreter :=
  { interpreter with context := { interpreter.context with registry := .ofFunctions functions } }

variable {interpreter : Interpreter} {program : Program Slot} {fuel : Nat}

/-- A program is loaded as a whole, or up to the first function at fault. -/
theorem load_cases (none : interpreter.context.registry = .empty) (program : Program Slot) :
    (Loadable program.functions ∧
      interpreter.load program = (.value (), interpreter.withFunctions program.functions)) ∨
    ∃ front offending rest failure, program.functions = front ++ offending :: rest ∧ Loadable front ∧
      ¬ Loadable (front ++ [offending]) ∧
      interpreter.load program = (.failure failure, interpreter.withFunctions front) := by
  have start : interpreter.context.registry = .ofFunctions [] := none
  unfold load
  rw [start]
  rcases Registry.registerAll_ofFunctions loadable_nil program.functions with
    ⟨loadable, ends⟩ | ⟨front, offending, rest, failure, split, before, stops, ends⟩
  · rw [ends]
    exact .inl ⟨loadable, rfl⟩
  · rw [ends]
    exact .inr ⟨front, offending, rest, failure, split, before, stops, rfl⟩

theorem load_eq_value_iff (none : interpreter.context.registry = .empty) :
    (interpreter.load program).1 = .value () ↔ Loadable program.functions := by
  rcases load_cases none program with
    ⟨loadable, loads⟩ | ⟨front, offending, rest, failure, split, -, stops, loads⟩
  · simp [loads, loadable]
  · have refused : ¬ Loadable program.functions := by
      intro loadable
      rw [split, List.append_cons] at loadable
      exact stops loadable.of_append
    simp [loads, refused]

/-- The functions before the first at fault are registered, or all if none is. -/
theorem load_holds (none : interpreter.context.registry = .empty) (program : Program Slot) :
    let loaded := interpreter.load program
    (loaded.1 = .value () → loaded.2.context.registry.Holds program.functions) ∧
    (loaded.1 ≠ .value () → ∃ front offending rest failure, loaded.1 = .failure failure ∧
      program.functions = front ++ offending :: rest ∧ Loadable front ∧ ¬ Loadable (front ++ [offending]) ∧
      loaded.2.context.registry.Holds front) := by
  rcases load_cases none program with
    ⟨loadable, loads⟩ | ⟨front, offending, rest, failure, split, before, stops, loads⟩
  · rw [loads]
    exact ⟨fun _ => Registry.holds_ofFunctions loadable.distinct, fun failed => absurd rfl failed⟩
  · rw [loads]
    exact ⟨nofun, fun _ => ⟨front, offending, rest, failure, rfl, split, before, stops,
      Registry.holds_ofFunctions before.distinct⟩⟩

theorem run_of_loadable (none : interpreter.context.registry = .empty) (loadable : Loadable program.functions) :
    interpreter.run fuel program = (interpreter.withFunctions program.functions).runEntry fuel := by
  rcases load_cases none program with
    ⟨-, loads⟩ | ⟨front, offending, rest, failure, split, -, stops, loads⟩
  · rw [run, loads]
  · have answer := (load_eq_value_iff none).mpr loadable
    rw [loads] at answer
    contradiction

/-- A run that is not finished has nothing to show. -/
theorem runEntry_unfinished (unfinished : (interpreter.runEntry fuel).1 = .unfinished) :
    (interpreter.runEntry fuel).2 = interpreter := by
  cases found : interpreter.context.registry.get? (signature entryPoint []) with
  | none => rw [runEntry_of_none found]
  | some main =>
    rw [runEntry_of_some found] at unfinished ⊢
    rcases interpreter.perform_cases (Eval.enter (eval interpreter.context fuel) interpreter.context main []) with
      ⟨value, t, -, performed⟩ | ⟨failure, t, -, performed⟩ | ⟨-, performed⟩
    · simp [performed, Answer.map] at unfinished
    · simp [performed, Answer.map] at unfinished
    · rw [performed]

/-- If a run with the functions in one order ends, the run with another order ends likewise. -/
theorem runEntry_renumbered {first second : Program Slot} {table other : Resolutions} {slot : Slot → Slot}
    (renumbered : Renumbered first second table other slot) (loadable : Loadable first.functions)
    (console : Console) (maxCallDepth fuel : Nat) :
    let one := withFunctions ⟨{ maxCallDepth }, { console, resolved := table }⟩ first.functions
    let two := withFunctions ⟨{ maxCallDepth }, { console, resolved := other }⟩ second.functions
    (one.runEntry fuel).1 ≠ .unfinished →
      (two.runEntry fuel).1 = (one.runEntry fuel).1 ∧
        (two.runEntry fuel).2.output = (one.runEntry fuel).2.output := by
  intro one two ended
  let twin := Twin.renumbered first.declarations slot
  have contexts : twin.Contexts one.context two.context :=
    ⟨renumbered.resolve loadable, Nat.le_refl _, .inl rfl⟩
  have functions : one.context.registry.Every (· ∈ first.declarations) := by
    intro entry member
    obtain ⟨function, listed, rfl⟩ := List.mem_map.mp (List.mem_reverse.mp member)
    exact Program.every_of_declarations (fun _ among => among) function listed
  have settles := Twin.renumbered_settles renumbered.apart
  have shares : twin.Shares (one.runEntry fuel).1 (one.runEntry fuel).2.state.world := by
    cases answer : (one.runEntry fuel).1 with
    | value done => trivial
    | failure problem => trivial
    | unfinished => exact absurd answer ended
  have alike : twin.alike one.state.world two.state.world :=
    ⟨rfl, fun d member => ⟨renumbered.inside d member, renumbered.types d member⟩⟩
  obtain ⟨answer, world, still, state⟩ :=
    (runEntry_follows one two contexts functions fun _ => settles.typesOn).2 two.state.world alike rfl shares
  exact ⟨answer, by rw [output, output, state]; exact congrArg Console.output still.1⟩

theorem run_renumbered {first second : Program Slot} {table other : Resolutions} {slot back : Slot → Slot}
    (renumbered : Renumbered first second table other slot) (again : Renumbered second first other table back)
    (loadable : Loadable first.functions) (console : Console) (maxCallDepth fuel : Nat) :
    let one : Interpreter := ⟨{ maxCallDepth }, { console, resolved := table }⟩
    let two : Interpreter := ⟨{ maxCallDepth }, { console, resolved := other }⟩
    (two.run fuel second).1 = (one.run fuel first).1 ∧
      (two.run fuel second).2.output = (one.run fuel first).2.output := by
  intro one two
  have loadable' := renumbered.loadable_iff.mpr loadable
  rw [run_of_loadable rfl loadable, run_of_loadable rfl loadable']
  by_cases ended : ((one.withFunctions first.functions).runEntry fuel).1 = .unfinished
  · have unended : ((two.withFunctions second.functions).runEntry fuel).1 = .unfinished := by
      -- Had the second run come to an end, so would the first.
      by_contra ended'
      have same := (runEntry_renumbered again loadable' console maxCallDepth fuel ended').1
      exact ended' (same.symm.trans ended)
    rw [runEntry_unfinished ended, runEntry_unfinished unended]
    exact ⟨unended.trans ended.symm, rfl⟩
  · exact runEntry_renumbered renumbered loadable console maxCallDepth fuel ended

/-- A program is loaded exactly if it can be, and otherwise up to the first function at fault. The
order of the functions decides neither whether it is loaded nor what a run of it answers and writes. -/
theorem load_and_reorder (program : Program (Option Ty)) (console : Console) (maxCallDepth : Nat) :
    let (placed, fresh) := Interpreter.fresh program console maxCallDepth
    let loaded := fresh.load placed
    (loaded.1 = .value () ↔ Loadable placed.functions) ∧
    (loaded.1 = .value () → loaded.2.context.registry.Holds placed.functions) ∧
    (loaded.1 ≠ .value () → ∃ front offending rest failure, loaded.1 = .failure failure ∧
      placed.functions = front ++ offending :: rest ∧ Loadable front ∧ ¬ Loadable (front ++ [offending]) ∧
      loaded.2.context.registry.Holds front) ∧
    ∀ other : Program (Option Ty), program.functions.Perm other.functions →
      let (placed', fresh') := Interpreter.fresh other console maxCallDepth
      ((fresh'.load placed').1 = .value () ↔ loaded.1 = .value ()) ∧
      (loaded.1 = .value () → ∀ fuel, (fresh'.run fuel placed').1 = (fresh.run fuel placed).1 ∧
        (fresh'.run fuel placed').2.output = (fresh.run fuel placed).2.output) := by
  let placed := (Interpreter.fresh program console maxCallDepth).1
  let fresh := (Interpreter.fresh program console maxCallDepth).2
  have none : fresh.context.registry = .empty := rfl
  obtain ⟨success, failed⟩ := load_holds none placed
  refine ⟨load_eq_value_iff none, success, failed, fun other reordered => ?_⟩
  obtain ⟨slot, renumbered⟩ := Program.exists_renumbered reordered
  obtain ⟨back, again⟩ := Program.exists_renumbered reordered.symm
  refine ⟨?_, fun success fuel => ?_⟩
  · exact (load_eq_value_iff rfl).trans (renumbered.loadable_iff.trans (load_eq_value_iff none).symm)
  · exact run_renumbered renumbered again ((load_eq_value_iff none).mp success) console maxCallDepth fuel

/-- Writes a number. -/
def shower : FunctionDef (Option Ty) where
  name := "show"
  params := [⟨"n", .int, none⟩]
  body := [.call "print" [.var "n"]]
  returns := .void

def caller : FunctionDef (Option Ty) where
  name := "main"
  params := []
  body := [.declare ⟨"a", .array .int (.int 2), none⟩, .call "show" [.index (.var "a") (.int 1)]]
  returns := .void

/-- The two functions get each other's slots when they change places, and zero is written all the
same. With one of them twice, loading ends before the second. -/
theorem load_and_reorder_swapped :
    let (placed, fresh) := Interpreter.fresh ⟨[shower, caller]⟩ {} 5
    let (placed', fresh') := Interpreter.fresh ⟨[caller, shower]⟩ {} 5
    let (twice, fresh'') := Interpreter.fresh ⟨[shower, shower, caller]⟩ {} 5
    (fresh.run 9 placed).2.output = "0\n" ∧ (fresh'.run 9 placed').2.output = "0\n" ∧
    ∃ front, (fresh''.load twice).2.context.registry.Holds front ∧ front ≠ twice.functions := by
  have swapped := (load_and_reorder ⟨[shower, caller]⟩ {} 5).2.2.2 ⟨[caller, shower]⟩ (.swap ..)
  have written : ((Interpreter.fresh ⟨[shower, caller]⟩ {} 5).2.run 9
      (Interpreter.fresh ⟨[shower, caller]⟩ {} 5).1).2.output = "0\n" := by decide +kernel
  refine ⟨written, (swapped.2 rfl 9).2.trans written, ?_⟩
  obtain ⟨front, offending, rest, failure, -, split, -, -, holds⟩ :=
    (load_and_reorder ⟨[shower, shower, caller]⟩ {} 5).2.2.1 nofun
  refine ⟨front, holds, fun all => ?_⟩
  have shorter := congrArg List.length (split.symm.trans all.symm)
  simp at shorter

end Interpreter

end TreeLang
