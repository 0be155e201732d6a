import TreeLang.Proofs.FunctionOrder
import TreeLang.Proofs.Overloads

/-! Where a run starts. The entry point is looked up by its signature, the name followed by the
word `void`. Names are arbitrary texts and may end in such words themselves, but `void` is never
the tag of a parameter; so no function can be found in the place of one of that name without
parameters. -/
namespace TreeLang

/-- A signature that ends in the word for no parameters can be read in one way only. -/
theorem signature_eq_signature_nil_iff {name other : String} {tags : List Tag} (storable : AllStorable tags) :
    signature name tags = signature other [] ↔ name = other ∧ tags = [] := by
  refine ⟨fun same => ?_, by rintro ⟨rfl, rfl⟩; rfl⟩
  have nothing : AllStorable [] := by simp [AllStorable]
  rw [signature_eq, signature_eq] at same
  obtain ⟨between, ⟨longer, split⟩ | ⟨longer, split⟩⟩ := TypeWord.tail_cancel same
  · -- The word stands among those of the tags, so there is no other.
    have member : .void ∈ signatureWords tags := by
      rw [split]
      exact List.mem_append_right _ (List.mem_singleton_self _)
    have alone : signatureWords tags = signatureWords [] := signatureWords_of_void storable member
    rw [alone] at split
    have none : between = [] := List.self_eq_append_left.mp split
    rw [none, TypeWord.tail, String.append_empty] at longer
    exact ⟨longer.symm, signatureWords_injective storable nothing alone⟩
  · cases between with
    | nil =>
      rw [TypeWord.tail, String.append_empty] at longer
      exact ⟨longer, signatureWords_injective storable nothing split.symm⟩
    | cons word rest =>
      have empty : rest ++ signatureWords tags = [] := (List.cons.inj split).2.symm
      exact absurd (List.append_eq_nil_iff.mp empty).2 (signatureWords_ne_nil tags)

/-- The tag of a parameter that holds no value would be read as the word for no parameters. -/
example : signature "main" [.void] = signature "main" [] := rfl

theorem FunctionDef.signature_eq_entry_iff {function : FunctionDef Slot}
    (storable : ∀ param ∈ function.params, param.ty.tag.Storable) :
    function.signature = "main_void" ↔ function.name = "main" ∧ function.params = [] := by
  have tags : AllStorable (function.params.map (·.ty.tag)) := List.forall_mem_map.mpr storable
  have entry : "main_void" = TreeLang.signature "main" [] := rfl
  rw [entry, FunctionDef.signature, signature_eq_signature_nil_iff tags, List.map_eq_nil_iff]

namespace Interpreter

/-- What a call of a function with some arguments does, given the functions there are. -/
abbrev Calling := Context → FunctionDef Slot → List Value → Exec (Option Value)

variable {interpreter loaded : Interpreter} {program : Program Slot} {main function : FunctionDef Slot}
  {args : List Value} {fuel : Nat} {calling : Calling}

/-- The run of a program, with what a call does left open. -/
def runWith (calling : Calling) (interpreter : Interpreter) (program : Program Slot) :
    Answer Unit × Interpreter :=
  match interpreter.load program with
  | (.value _, loaded) =>
    match loaded.context.registry.get? (signature entryPoint []) with
    | none => (.value (), loaded)
    | some main =>
      let (answer, later) := loaded.perform (calling loaded.context main [])
      (answer.map fun _ => (), later)
  | refused => refused

/-- The calls of a run, which go on for as long as the fuel lasts. -/
def calls (fuel : Nat) : Calling := fun context => Eval.enter (eval context fuel) context

/-- The run starts this call: if it went otherwise, and all other calls as they do, so would the run. -/
def StartsCall (fuel : Nat) (interpreter : Interpreter) (program : Program Slot)
    (function : FunctionDef Slot) (args : List Value) : Prop :=
  ∃ other : Calling,
    (∀ context f given, f ≠ function ∨ given ≠ args → other context f given = calls fuel context f given) ∧
    interpreter.runWith other program ≠ interpreter.run fuel program

theorem runWith_calls (fuel : Nat) (interpreter : Interpreter) (program : Program Slot) :
    interpreter.runWith (calls fuel) program = interpreter.run fuel program := by
  unfold runWith run
  rcases interpreter.load program with ⟨answer, loaded⟩
  cases answer <;> rfl

/-- The functions that are loaded decide what is called, if anything. -/
theorem get?_entry_iff (loadable : Loadable program.functions) :
    (interpreter.withFunctions program.functions).context.registry.get? (signature entryPoint []) = some main ↔
      main ∈ program.functions ∧ main.name = "main" ∧ main.params = [] := by
  refine (Registry.get?_ofFunctions loadable.distinct).trans (and_congr_right fun listed => ?_)
  exact FunctionDef.signature_eq_entry_iff (loadable.storable main listed)

theorem runWith_of_none (loads : interpreter.load program = (.value (), loaded))
    (absent : loaded.context.registry.get? (signature entryPoint []) = none) :
    interpreter.runWith calling program = (.value (), loaded) := by
  simp only [runWith, loads, absent]

theorem runWith_of_some (loads : interpreter.load program = (.value (), loaded))
    (found : loaded.context.registry.get? (signature entryPoint []) = some main) :
    interpreter.runWith calling program =
      let called := loaded.perform (calling loaded.context main [])
      (called.1.map fun _ => (), called.2) := by
  simp only [runWith, loads, found]

open Classical in
/-- The calls of a run, except that one of them fails at once. -/
noncomputable def failing (fuel : Nat) (main : FunctionDef Slot) (failure : Failure) : Calling := fun context f given =>
  if f = main ∧ given = [] then Exec.fail failure else calls fuel context f given

theorem failing_of_ne {f : FunctionDef Slot} {failure : Failure} {context : Context} {given : List Value}
    (away : f ≠ main ∨ given ≠ []) : failing fuel main failure context f given = calls fuel context f given :=
  if_neg fun same => away.elim (· same.1) (· same.2)

theorem runWith_failing (loads : interpreter.load program = (.value (), loaded))
    (found : loaded.context.registry.get? (signature entryPoint []) = some main) (failure : Failure) :
    (interpreter.runWith (failing fuel main failure) program).1 = .failure failure := by
  rw [runWith_of_some loads found]
  simp only [failing, and_self, if_true]
  rfl

theorem startsCall_of_some (loads : interpreter.load program = (.value (), loaded))
    (found : loaded.context.registry.get? (signature entryPoint []) = some main) :
    interpreter.StartsCall fuel program main [] := by
  -- The run as it is can end in one of two failures only, so that the other one makes a difference.
  by_cases first : (interpreter.run fuel program).1 = .failure .missingValue
  · refine ⟨failing fuel main .divisionByZero, fun _ _ _ => failing_of_ne, fun same => ?_⟩
    have other : (interpreter.run fuel program).1 = .failure .divisionByZero :=
      same ▸ runWith_failing loads found .divisionByZero
    cases first.symm.trans other
  · refine ⟨failing fuel main .missingValue, fun _ _ _ => failing_of_ne, fun same => first ?_⟩
    rw [← same]
    exact runWith_failing loads found .missingValue

/-- What a run calls is what it finds as its entry point, and it gives no arguments. -/
theorem startsCall_iff (loads : interpreter.load program = (.value (), loaded)) :
    interpreter.StartsCall fuel program function args ↔
      loaded.context.registry.get? (signature entryPoint []) = some function ∧ args = [] := by
  constructor
  · rintro ⟨other, elsewhere, differs⟩
    rw [← runWith_calls] at differs
    cases found : loaded.context.registry.get? (signature entryPoint []) with
    | none =>
      rw [runWith_of_none loads found, runWith_of_none loads found] at differs
      exact absurd rfl differs
    | some main =>
      rw [runWith_of_some loads found, runWith_of_some loads found] at differs
      by_cases same : main = function ∧ [] = args
      · exact ⟨congrArg some same.1, same.2.symm⟩
      · rw [elsewhere _ _ _ (not_and_or.mp same)] at differs
        exact absurd rfl differs
  · rintro ⟨found, rfl⟩
    exact startsCall_of_some loads found

/-- A program that is loaded starts a call exactly if it has a function named `main` without
parameters, and calls this one, with no arguments. No other function has its signature. Without
it a run comes to nothing but the functions that have been added. -/
theorem entry_point (none : interpreter.context.registry = .empty)
    (loads : (interpreter.load program).1 = .value ()) (fuel : Nat) :
    let loaded := interpreter.withFunctions program.functions
    (∀ function args, interpreter.StartsCall fuel program function args ↔
      (function ∈ program.functions ∧ function.name = "main" ∧ function.params = []) ∧ args = []) ∧
    (∀ function ∈ program.functions, function.name = "main" → function.params = [] →
      interpreter.run fuel program =
        let called := loaded.perform (Eval.enter (eval loaded.context fuel) loaded.context function [])
        (called.1.map fun _ => (), called.2)) ∧
    (∀ function : FunctionDef Slot, (∀ param ∈ function.params, param.ty.tag.Storable) →
      (function.signature = "main_void" ↔ function.name = "main" ∧ function.params = [])) ∧
    ((∀ function ∈ program.functions, ¬ (function.name = "main" ∧ function.params = [])) →
      interpreter.run fuel program = (.value (), loaded) ∧ loaded.output = interpreter.output) := by
  intro loaded
  have loadable := (load_eq_value_iff none).mp loads
  have added : interpreter.load program = (.value (), loaded) := by
    rcases load_cases none program with ⟨-, all⟩ | ⟨front, offending, rest, failure, -, -, -, stops⟩
    · exact all
    · rw [stops] at loads
      contradiction
  refine ⟨fun function args => ?_, ?_, fun _ => FunctionDef.signature_eq_entry_iff, ?_⟩
  · exact (startsCall_iff added).trans (and_congr_left' (get?_entry_iff loadable))
  · intro function listed named bare
    rw [← runWith_calls, runWith_of_some added ((get?_entry_iff loadable).mpr ⟨listed, named, bare⟩)]
    rfl
  · intro others
    have absent : loaded.context.registry.get? (signature entryPoint []) = Option.none := by
      refine Option.eq_none_iff_forall_ne_some.mpr fun main found => ?_
      obtain ⟨listed, entry⟩ := (get?_entry_iff loadable).mp found
      exact others main listed entry
    exact ⟨by rw [← runWith_calls, runWith_of_none added absent], rfl⟩

/-- One function has the right name but a parameter, and another is named like the signature. -/
def decoys : List (FunctionDef Slot) := [
  ⟨"main", [⟨"n", .int, ⟨0⟩⟩], [.call "print" [.var "n"]], .void⟩,
  ⟨"main_void", [], [.call "print" [.int 2]], .void⟩]

/-- Prints a number. -/
def opening : FunctionDef Slot := ⟨"main", [], [.call "print" [.int 1]], .void⟩

theorem entry_point_decoys :
    let fresh := Interpreter.start {} 5
    (fresh.load ⟨decoys ++ [opening]⟩).1 = .value () ∧
    fresh.StartsCall 9 ⟨decoys ++ [opening]⟩ opening [] ∧
    (fresh.run 9 ⟨decoys ++ [opening]⟩).2.output = "1\n" ∧
    fresh.run 9 ⟨decoys⟩ = (.value (), fresh.withFunctions decoys) ∧
    ∀ function args, ¬ fresh.StartsCall 9 ⟨decoys⟩ function args := by
  intro fresh
  have others : ∀ function ∈ decoys, ¬ (function.name = "main" ∧ function.params = []) := by
    simp [decoys]
  have none : fresh.context.registry = .empty := rfl
  have opened : (fresh.load ⟨decoys ++ [opening]⟩).1 = .value () := rfl
  have closed : (fresh.load ⟨decoys⟩).1 = .value () := rfl
  obtain ⟨starts, -, -, -⟩ := entry_point none opened 9
  obtain ⟨startsNone, -, -, runs⟩ := entry_point none closed 9
  refine ⟨opened, (starts opening []).mpr ⟨⟨by simp, rfl, rfl⟩, rfl⟩, by decide +kernel, (runs others).1, ?_⟩
  intro function args started
  obtain ⟨⟨listed, entry⟩, -⟩ := (startsNone function args).mp started
  exact others function listed entry

end Interpreter

end TreeLang
