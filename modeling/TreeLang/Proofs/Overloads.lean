import TreeLang.Proofs.Sharing
import TreeLang.Proofs.Signatures

/-! Overloads of one name. Behind one and the same name the words of a signature can be read in
one way only: an `array` always goes on to the next word, and any other word ends a tag. So two
signatures of a name are equal only for types that differ in nothing but lengths, and a function
that is found under its own name takes just the arguments it is given. -/
namespace TreeLang

/-- Equal but for the lengths of arrays, at whatever depth. -/
inductive TypeSpec.SameShape {δ : Type} : TypeSpec δ → TypeSpec δ → Prop where
  | int : SameShape .int .int
  | bool : SameShape .bool .bool
  | void : SameShape .void .void
  | array {element other : TypeSpec δ} (size another : Node δ) :
      SameShape element other → SameShape (.array element size) (.array other another)

namespace TypeSpec

variable {δ : Type}

theorem SameShape.tag {spec other : TypeSpec δ} (same : spec.SameShape other) : spec.tag = other.tag := by
  induction same with
  | int | bool | void => rfl
  | array size another _ ih => simp only [TypeSpec.tag, ih]

theorem sameShape_of_tag : ∀ {spec other : TypeSpec δ}, spec.tag = other.tag → spec.SameShape other
  | .int, other, same => by
    cases other <;> simp [TypeSpec.tag] at same
    exact .int
  | .bool, other, same => by
    cases other <;> simp [TypeSpec.tag] at same
    exact .bool
  | .void, other, same => by
    cases other <;> simp [TypeSpec.tag] at same
    exact .void
  | .array element size, other, same => by
    cases other <;> simp [TypeSpec.tag] at same
    exact .array size _ (sameShape_of_tag same)
termination_by structural spec => spec

theorem sameShapes_iff {specs others : List (TypeSpec δ)} :
    List.Forall₂ SameShape specs others ↔ specs.map tag = others.map tag := by
  constructor
  · intro same
    induction same with
    | nil => rfl
    | cons first _ ih => rw [List.map_cons, List.map_cons, first.tag, ih]
  · intro same
    induction specs generalizing others with
    | nil =>
      obtain rfl := List.map_eq_nil_iff.mp same.symm
      exact .nil
    | cons spec rest ih =>
      cases others with
      | nil => contradiction
      | cons other others =>
        obtain ⟨first, rest⟩ := List.cons.inj same
        exact .cons (sameShape_of_tag first) (ih rest)

end TypeSpec

/-! ### Reading words -/

/-- Where one tag ends and the next begins is clear, whatever follows. -/
theorem Tag.words_cancel {tag other : Tag} {rest others : List TypeWord}
    (same : tag.words ++ rest = other.words ++ others) : tag = other ∧ rest = others := by
  induction tag generalizing other with
  | array element ih =>
    cases other with
    | array inner =>
      obtain ⟨first, tails⟩ := ih (List.cons.inj same).2
      exact ⟨by rw [first], tails⟩
    | _ => simp [words] at same
  | _ =>
    cases other <;> simp [words] at same
    exact ⟨rfl, same⟩

theorem Tag.flatMap_words_injective {tags others : List Tag}
    (same : tags.flatMap words = others.flatMap words) : tags = others := by
  induction tags generalizing others with
  | nil =>
    cases others with
    | nil => rfl
    | cons other others =>
      have empty : other.words ++ others.flatMap words = [] := same.symm
      exact absurd (List.append_eq_nil_iff.mp empty).1 other.words_ne_nil
  | cons tag rest ih =>
    cases others with
    | nil =>
      have empty : tag.words ++ rest.flatMap words = [] := same
      exact absurd (List.append_eq_nil_iff.mp empty).1 tag.words_ne_nil
    | cons other others =>
      obtain ⟨first, tails⟩ := Tag.words_cancel same
      rw [first, ih tails]

/-- The word that stands for no parameters at all is not the tag of a parameter. -/
theorem signatureWords_injective {tags others : List Tag} (storable : AllStorable tags)
    (storables : AllStorable others) (same : signatureWords tags = signatureWords others) :
    tags = others := by
  have nonempty {tag : Tag} {rest : List Tag} (storable : AllStorable (tag :: rest)) :
      .void ∉ signatureWords (tag :: rest) := by
    intro member
    obtain ⟨found, listed, spelled⟩ := List.mem_flatMap.mp member
    exact (storable found listed).void_notMem spelled
  cases tags with
  | nil =>
    cases others with
    | nil => rfl
    | cons other others => exact absurd (same ▸ List.mem_singleton_self _) (nonempty storables)
  | cons tag rest =>
    cases others with
    | nil => exact absurd (same ▸ List.mem_singleton_self _) (nonempty storable)
    | cons other others => exact Tag.flatMap_words_injective same

theorem TypeWord.tail_injective {words others : List TypeWord} (same : tail words = tail others) :
    words = others := by
  have nothing {between : List TypeWord} (none : "" = "" ++ tail between) : between = [] := by
    cases between with
    | nil => rfl
    | cons word rest => simp [tail] at none
  have after : "" ++ tail words = "" ++ tail others := by rw [same]
  obtain ⟨between, ⟨none, split⟩ | ⟨none, split⟩⟩ := tail_cancel after
  · rw [split, nothing none, List.nil_append]
  · rw [split, nothing none, List.nil_append]

theorem signature_inj {name : String} {tags others : List Tag} (storable : AllStorable tags)
    (storables : AllStorable others) : signature name tags = signature name others ↔ tags = others := by
  refine ⟨fun same => ?_, fun same => by rw [same]⟩
  rw [signature_eq, signature_eq, String.append_right_inj] at same
  exact signatureWords_injective storable storables (TypeWord.tail_injective same)

/-! ### Registered functions -/

namespace Interpreter

variable {interpreter : Interpreter} {P : Declaration Slot → Prop} {context : Context} {moment : Moment}

theorem runEntry_context (interpreter : Interpreter) (fuel : Nat) :
    (interpreter.runEntry fuel).2.context = interpreter.context := by
  simp only [runEntry]
  split
  · rfl
  · exact interpreter.perform_context _

theorem run_context (interpreter : Interpreter) (fuel : Nat) (program : Program Slot) :
    (interpreter.run fuel program).2.context = (interpreter.load program).2.context := by
  unfold run
  split
  next loads => rw [runEntry_context, loads]
  next => rfl

theorem load_keyed (keyed : interpreter.context.registry.Keyed) (program : Program Slot) :
    (interpreter.load program).2.context.registry.Keyed := by
  have filled := keyed.registerAll program.functions
  unfold load
  split
  next registry result registered =>
    rw [registered] at filled
    split <;> exact filled

/-- Whatever an interpreter has been through, each function stands under its own signature. -/
theorem Reachable.keyed (reachable : interpreter.Reachable) : interpreter.context.registry.Keyed := by
  induction reachable with
  | start console maxCallDepth => exact Registry.keyed_empty
  | restart console maxCallDepth _ _ => exact Registry.keyed_empty
  | placeProgram program _ ih => exact ih
  | placeNode node _ ih => exact ih
  | step _ step ih =>
    cases step with
    | load program => exact load_keyed ih program
    | run fuel program =>
      rw [run_context]
      exact load_keyed ih program
    | call fuel name args =>
      rw [call, perform_context]
      exact ih
    | evalExpr fuel node =>
      rw [evalExpr, perform_context]
      exact ih
    | evaluate fuel node =>
      rw [evaluate, perform_context]
      exact ih
  | create _ _ ih => exact ih
  | assign _ _ ih => exact ih

/-- Nor does it matter which functions are in force while it does something. -/
theorem PassesOn.keyed (passes : interpreter.PassesOn P context moment)
    (keyed : interpreter.context.registry.Keyed) : context.registry.Keyed := by
  cases passes with
  | idle => exact keyed
  | evaluate => exact keyed
  | call => exact keyed
  | @run _ program _ _ _ _ _ _ loads _ _ _ =>
    have filled := load_keyed keyed program
    rwa [loads] at filled

theorem PassesOn.typed (passes : interpreter.PassesOn P context moment) (reachable : interpreter.Reachable) :
    moment.state.heap.Typed :=
  have tidy : moment.state.heap.Tidy moment.named :=
    Watch.storage.holds_of_interpreter_passes reachable.tidy passes.passes
  tidy.typed

end Interpreter

/-! ### Calls -/

/-- Declares a parameter and gives it its argument. -/
def Eval.bindParam (below : Evaluator) (pair : Declaration Slot × Value) : Exec Unit := do
  declare below pair.1
  let ref ← Exec.lookup pair.1.name
  Exec.assign ref pair.2

theorem Eval.bindParams_eq_forM (below : Evaluator) (params : List (Declaration Slot)) (args : List Value) :
    bindParams below params args = (params.zip args).forM (bindParam below) := by
  induction params generalizing args with
  | nil => cases args <;> rfl
  | cons param params ih =>
    cases args with
    | nil => rfl
    | cons arg args =>
      rw [bindParams, ih args, List.zip_cons_cons, List.forM]
      simp only [bindParam, bind_assoc]

/-- A function that is found under its own name has the tags of the arguments. -/
theorem Interpreter.PassesOn.tags_of_resolve {interpreter : Interpreter} {P : Declaration Slot → Prop}
    {context : Context} {moment : Moment} (passes : interpreter.PassesOn P context moment)
    (reachable : interpreter.Reachable) {name : String} {args : List Value} {function : FunctionDef Slot}
    (resolved : context.registry.resolve (signature name (args.map moment.state.heap.tag)) = .ok function)
    (named : function.name = name) :
    args.map moment.state.heap.tag = function.params.map (·.ty.tag) := by
  obtain ⟨same, admissible⟩ := (passes.keyed reachable.keyed).of_get? (Registry.resolve_ok_iff.mp resolved)
  have given : AllStorable (args.map moment.state.heap.tag) := by
    intro tag member
    obtain ⟨arg, -, rfl⟩ := List.mem_map.mp member
    exact (passes.typed reachable).storable_tag arg
  rw [FunctionDef.signature, named] at same
  exact (signature_inj given admissible.storable).mp same

/-- Signatures of one name are equal exactly for types that are pairwise equal but for lengths. -/
theorem signature_eq_iff_sameShape {δ : Type} {name : String} {specs others : List (TypeSpec δ)}
    (storable : ∀ spec ∈ specs, spec.tag.Storable) (storables : ∀ spec ∈ others, spec.tag.Storable) :
    signature name (specs.map TypeSpec.tag) = signature name (others.map TypeSpec.tag) ↔
      List.Forall₂ TypeSpec.SameShape specs others := by
  have first : AllStorable (specs.map TypeSpec.tag) := List.forall_mem_map.mpr storable
  have second : AllStorable (others.map TypeSpec.tag) := List.forall_mem_map.mpr storables
  rw [signature_inj first second, TypeSpec.sameShapes_iff]

/-- Signatures of one name are equal exactly for types that are pairwise equal but for lengths. So, at
whatever moment, a call that finds a function of the name it calls has an argument of the right tag
for each parameter, and binding them in pairs leaves none out. -/
theorem overloads_told_apart (name : String) :
    (∀ (δ : Type) (specs others : List (TypeSpec δ)),
      (∀ spec ∈ specs, spec.tag.Storable) → (∀ spec ∈ others, spec.tag.Storable) →
      (signature name (specs.map TypeSpec.tag) = signature name (others.map TypeSpec.tag) ↔
        List.Forall₂ TypeSpec.SameShape specs others)) ∧
    ∀ (interpreter : Interpreter) (context : Context) (moment : Moment), interpreter.Reachable →
      interpreter.PassesOn (fun _ => True) context moment →
      ∀ (args : List Value) (function : FunctionDef Slot),
        context.registry.resolve (signature name (args.map moment.state.heap.tag)) = .ok function →
        function.name = name →
        args.length = function.params.length ∧
        args.map moment.state.heap.tag = function.params.map (·.ty.tag) ∧
        (function.params.zip args).unzip = (function.params, args) ∧
        ∀ below, Eval.bindParams below function.params args =
          (function.params.zip args).forM (Eval.bindParam below) := by
  constructor
  · intro δ specs others storable storables
    exact signature_eq_iff_sameShape storable storables
  · intro interpreter context moment reachable passes args function resolved named
    have tagged := passes.tags_of_resolve reachable resolved named
    have count : args.length = function.params.length := by simpa using congrArg List.length tagged
    exact ⟨count, tagged, List.unzip_zip count.symm, fun below => Eval.bindParams_eq_forM below _ args⟩

/-- Arrays of different lengths do not make another overload, and an element reaches a function of
one number. -/
theorem overloads_told_apart_twins :
    List.Forall₂ TypeSpec.SameShape [.array .int (.int 1), .bool] [(.array .int (.int 2) : TypeSpec Slot), .bool] ∧
    Interpreter.twins.context.registry.resolve
      (signature "get" ([.cell ⟨1⟩].map Interpreter.twins.state.heap.tag)) = .ok Interpreter.getter ∧
    (Interpreter.getter.params.zip [Value.cell ⟨1⟩]).unzip = (Interpreter.getter.params, [.cell ⟨1⟩]) := by
  obtain ⟨shapes, calls⟩ := overloads_told_apart "get"
  have alike := shapes Slot [.array .int (.int 1), .bool] [.array .int (.int 2), .bool]
    (by simp [TypeSpec.tag, Tag.Storable]) (by simp [TypeSpec.tag, Tag.Storable])
  have resolved : Interpreter.twins.context.registry.resolve
      (signature "get" ([.cell ⟨1⟩].map Interpreter.twins.state.heap.tag)) = .ok Interpreter.getter := rfl
  have paired := calls _ _ _ Interpreter.twins_reachable .idle [.cell ⟨1⟩] Interpreter.getter resolved rfl
  exact ⟨alike.mp rfl, resolved, paired.2.2.1⟩

end TreeLang
