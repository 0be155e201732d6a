import TreeLang.Proofs.EchoingRuns
import TreeLang.Proofs.Operations

/-! Lists of statements. A list that is split in two is run in two parts: the second is run where
the first completes, and a return or a failure of the first is that of the whole. A list that
stands as one statement in another leaves nothing on the stack, so that its level can be taken
away. Both laws speak of evaluations that come to an end, whatever fuel this takes. -/
namespace TreeLang

/-- The evaluation of the node comes to an end, and this is its outcome. -/
def ComesTo (context : Context) (node : Node Slot) (s : State) (outcome : Outcome Flow) : Prop :=
  outcome ≠ .outOfFuel ∧ ∃ fuel, eval context fuel node s = outcome

/-- All statements of a list have been run, and the one that comes next may be. -/
def Outcome.Completes (outcome : Outcome Flow) : Prop := ∃ t, outcome = .ok .completed t

section lists

open Exec

variable {context : Context} {fuel : Nat} {node : Node Slot} {first second body : List (Node Slot)}
  {s t : State} {outcome : Outcome Flow}

theorem ComesTo.of_eval (ended : outcome ≠ .outOfFuel) (evaluated : eval context fuel node s = outcome) :
    ComesTo context node s outcome := ⟨ended, fuel, evaluated⟩

/-- With some fuel and with all greater amounts a list is run to its end. -/
theorem ComesTo.statements (comes : ComesTo context (.group body) s outcome) :
    ∃ enough, ∀ fuel, enough ≤ fuel → Eval.statements (eval context fuel) body s = outcome := by
  obtain ⟨ended, fuel, evaluated⟩ := comes
  refine ⟨fuel, fun more enough => ?_⟩
  have again : eval context (more + 1) (.group body) s = eval context fuel (.group body) s :=
    eval_of_le context (by omega) (by rwa [evaluated])
  exact again.trans evaluated

theorem comesTo_group_iff :
    ComesTo context (.group body) s outcome ↔
      outcome ≠ .outOfFuel ∧ ∃ fuel, Eval.statements (eval context fuel) body s = outcome := by
  constructor
  · intro comes
    obtain ⟨enough, runs⟩ := comes.statements
    exact ⟨comes.1, enough, runs enough (Nat.le_refl _)⟩
  · rintro ⟨ended, fuel, runs⟩
    have evaluated : eval context (fuel + 1) (.group body) s = outcome := runs
    exact .of_eval ended evaluated

namespace Eval

theorem statements_append (below : Evaluator) (first second : List (Node Slot)) :
    statements below (first ++ second) = (do
      match ← statements below first with
      | .returned value => return .returned value
      | .completed => statements below second) := by
  induction first with
  | nil => rfl
  | cons node rest ih =>
    simp only [List.cons_append, statements, bind_assoc]
    congr 1
    funext flow
    cases flow with
    | completed => exact ih
    | returned value => rfl

theorem statements_append_of_completed {below : Evaluator} (runs : statements below first s = .ok .completed t) :
    statements below (first ++ second) s = statements below second t := by
  rw [statements_append, bind_of_ok runs]

theorem statements_append_of_not_completes {below : Evaluator} (runs : statements below first s = outcome)
    (stops : ¬ outcome.Completes) : statements below (first ++ second) s = outcome := by
  rw [statements_append]
  cases outcome with
  | ok flow t =>
    cases flow with
    | completed => exact absurd ⟨t, rfl⟩ stops
    | returned value => rw [bind_of_ok runs]; rfl
  | error failure t => exact bind_of_error runs
  | outOfFuel => exact bind_of_outOfFuel runs

end Eval

/-- The second part is run if the first completes, and from the state that it leaves. -/
theorem comesTo_append_iff : ComesTo context (.group (first ++ second)) s outcome ↔
    (∃ t, ComesTo context (.group first) s (.ok .completed t) ∧
      ComesTo context (.group second) t outcome) ∨
    (ComesTo context (.group first) s outcome ∧ ¬ outcome.Completes) := by
  constructor
  · intro comes
    obtain ⟨ended, fuel, runs⟩ := comesTo_group_iff.mp comes
    by_cases completes : (Eval.statements (eval context fuel) first s).Completes
    · obtain ⟨t, completed⟩ := completes
      rw [Eval.statements_append_of_completed completed] at runs
      exact .inl ⟨t, comesTo_group_iff.mpr ⟨by simp, fuel, completed⟩,
        comesTo_group_iff.mpr ⟨ended, fuel, runs⟩⟩
    · rw [Eval.statements_append_of_not_completes rfl completes] at runs
      rw [runs] at completes
      exact .inr ⟨comesTo_group_iff.mpr ⟨ended, fuel, runs⟩, completes⟩
  · rintro (⟨t, one, other⟩ | ⟨one, stops⟩)
    · obtain ⟨enough, runs⟩ := one.statements
      obtain ⟨enough', follows⟩ := other.statements
      -- Both parts have to be run with the same fuel.
      refine comesTo_group_iff.mpr ⟨other.1, max enough enough', ?_⟩
      rw [Eval.statements_append_of_completed (runs _ (Nat.le_max_left _ _))]
      exact follows _ (Nat.le_max_right _ _)
    · obtain ⟨enough, runs⟩ := one.statements
      refine comesTo_group_iff.mpr ⟨one.1, enough, ?_⟩
      exact Eval.statements_append_of_not_completes (runs enough (Nat.le_refl _)) stops

/-- A statement that has left nothing on the stack is as good as the list of it alone. -/
theorem Eval.statements_singleton {below : Evaluator} (evaluated : below node s = outcome)
    (level : ∀ flow t, outcome = .ok flow t → t.stack = s.stack) :
    Eval.statements below [node] s = outcome := by
  cases outcome with
  | ok flow t =>
    have unchanged : { t with stack := s.stack } = t := by rw [← level flow t rfl]
    have left : t.stack = s.stack.withResult none := level flow t rfl
    have run := statement_of_ok evaluated left
    rw [unchanged] at run
    rw [statements, bind_of_ok run]
    cases flow <;> rfl
  | error failure t =>
    have fails : statement below node s = .error failure t := by
      rw [statement, height_bind, bind_of_error evaluated]
    rw [statements, bind_of_error fails]
  | outOfFuel =>
    have lacks : statement below node s = .outOfFuel := by
      rw [statement, height_bind, bind_of_outOfFuel evaluated]
    rw [statements, bind_of_outOfFuel lacks]

theorem eval_group_level {flow : Flow} (evaluated : eval context fuel (.group body) s = .ok flow t) :
    t.stack = s.stack := by
  have ends := Law.bare_sound context fuel (.group body) s (Node.every_of_forall (fun _ => trivial) _) trivial
  cases flow with
  | returned value => exact (ends.ok_of_eq evaluated).1.stack
  | completed =>
    obtain ⟨result, leaves, count⟩ := ends.ok_of_eq evaluated
    cases result with
    | none => exact leaves.stack
    | some value => exact absurd (count false rfl) (by simp)

/-- A list inside a list, with nothing beside it, is just this list. -/
theorem comesTo_group_group_iff :
    ComesTo context (.group [.group body]) s outcome ↔ ComesTo context (.group body) s outcome := by
  have flat (fuel : Nat) : Eval.statements (eval context fuel) [.group body] s =
      eval context fuel (.group body) s :=
    Eval.statements_singleton rfl fun _ _ => eval_group_level
  rw [comesTo_group_iff]
  simp only [flat, ComesTo]

/-- A statement that returns or fails ends the list in which it stands, with what it returns or
how it fails, and in the state where it does. -/
theorem ComesTo.stops (comes : ComesTo context node s outcome) (stops : ¬ outcome.Completes) :
    ComesTo context (.group (node :: second)) s outcome := by
  have alone : ComesTo context (.group [node]) s outcome := by
    obtain ⟨ended, fuel, evaluated⟩ := comes
    refine comesTo_group_iff.mpr ⟨ended, fuel, Eval.statements_singleton evaluated ?_⟩
    rintro flow t rfl
    have ends := Law.bare_sound context fuel node s (node.every_of_forall fun _ => trivial) trivial
    cases flow with
    | completed => exact absurd ⟨t, rfl⟩ stops
    | returned value => exact (ends.ok_of_eq evaluated).1.stack
  exact comesTo_append_iff.mpr (.inr ⟨alone, stops⟩)

/-- It makes no difference whether some statements of a list stand in a list of their own. -/
theorem comesTo_flat_iff (before inner after : List (Node Slot)) :
    ComesTo context (.group (before ++ [.group inner] ++ after)) s outcome ↔
      ComesTo context (.group (before ++ inner ++ after)) s outcome := by
  simp only [comesTo_append_iff, comesTo_group_group_iff]

end lists

namespace Interpreter

variable {interpreter middle later : Interpreter} {node : Node Slot} {answer : Answer Flow}

/-- The evaluation of the node comes to an end, with this answer and in this interpreter. -/
def Evaluates (interpreter : Interpreter) (node : Node Slot) (answer : Answer Flow) (later : Interpreter) : Prop :=
  answer ≠ .unfinished ∧ ∃ fuel, interpreter.evaluate fuel node = (answer, later)

/-- Evaluation performs nothing but the outcome. -/
theorem evaluate_eq (fuel : Nat) : interpreter.evaluate fuel node =
    interpreter.perform fun _ => eval interpreter.context fuel node interpreter.state := rfl

theorem evaluates_iff : interpreter.Evaluates node answer later ↔
    ∃ outcome, ComesTo interpreter.context node interpreter.state outcome ∧
      interpreter.perform (fun _ => outcome) = (answer, later) := by
  constructor
  · rintro ⟨ended, fuel, evaluated⟩
    rw [evaluate_eq] at evaluated
    refine ⟨_, .of_eval (fun lacks => ?_) rfl, evaluated⟩
    rw [lacks] at evaluated
    cases evaluated
    exact ended rfl
  · rintro ⟨outcome, ⟨ended, fuel, evaluated⟩, performed⟩
    refine ⟨?_, fuel, by rw [evaluate_eq, evaluated, performed]⟩
    rintro rfl
    cases outcome with
    | ok flow t => cases performed
    | error failure t => cases performed
    | outOfFuel => exact ended rfl

theorem unfinished_iff : (∀ fuel, (interpreter.evaluate fuel node).1 = .unfinished) ↔
    ∀ answer later, ¬ interpreter.Evaluates node answer later := by
  constructor
  · rintro never answer later ⟨ended, fuel, evaluated⟩
    exact ended (by rw [← never fuel, evaluated])
  · intro never fuel
    exact Classical.not_not.mp fun ended => never _ _ ⟨ended, fuel, rfl⟩

theorem Evaluates.completes (evaluates : interpreter.Evaluates node (.value .completed) later) :
    later.context = interpreter.context ∧
      ComesTo interpreter.context node interpreter.state (.ok .completed later.state) := by
  obtain ⟨outcome, comes, performed⟩ := evaluates_iff.mp evaluates
  have context := interpreter.perform_context fun _ => outcome
  have same := outcome_of_perform performed
  rw [performed] at context
  exact ⟨context, same ▸ comes⟩

/-- Where some statements of a list stand in a list of their own, evaluation ends as it does
without this level, or in neither case; a statement among them that returns or fails, once
those before it are completed, gives its answer and its state to the whole, whatever comes after. -/
theorem evaluate_flattened (interpreter : Interpreter) (a b c : List (Node Slot)) :
    (∀ answer later, interpreter.Evaluates (.group (a ++ [.group b] ++ c)) answer later ↔
      interpreter.Evaluates (.group (a ++ b ++ c)) answer later) ∧
    ((∀ fuel, (interpreter.evaluate fuel (.group (a ++ [.group b] ++ c))).1 = .unfinished) ↔
      ∀ fuel, (interpreter.evaluate fuel (.group (a ++ b ++ c))).1 = .unfinished) ∧
    ∀ front node rest, a ++ b = front ++ node :: rest →
      ∀ middle, interpreter.Evaluates (.group front) (.value .completed) middle →
      ∀ answer later, answer ≠ .value .completed → middle.Evaluates node answer later →
        interpreter.Evaluates (.group (a ++ [.group b] ++ c)) answer later ∧
        interpreter.Evaluates (.group (a ++ b ++ c)) answer later := by
  have flat (answer : Answer Flow) (later : Interpreter) :
      interpreter.Evaluates (.group (a ++ [.group b] ++ c)) answer later ↔
        interpreter.Evaluates (.group (a ++ b ++ c)) answer later := by
    simp only [evaluates_iff, comesTo_flat_iff]
  refine ⟨flat, by simp only [unfinished_iff, flat], ?_⟩
  intro front node rest split middle completed answer later other evaluates
  rw [flat, and_self_iff, split, List.append_assoc, List.cons_append]
  obtain ⟨context, comes⟩ := completed.completes
  obtain ⟨outcome, stops, performed⟩ := evaluates_iff.mp evaluates
  have final : ¬ outcome.Completes := by
    rintro ⟨t, rfl⟩
    cases performed
    exact other rfl
  rw [context] at stops
  refine evaluates_iff.mpr ⟨outcome, comesTo_append_iff.mpr (.inl ⟨_, comes, stops.stops final⟩), ?_⟩
  rw [← performed]
  cases outcome with
  | outOfFuel => exact absurd rfl stops.1
  | _ => simp only [perform, context]

/-- A number is declared, and in a list of its own it is set and returned. -/
theorem evaluate_flattened_returning :
    let start : Interpreter := { state := { stack := { values := [.bool true] } } }
    let a : List (Node Slot) := [.declare ⟨"n", .int, ⟨0⟩⟩]
    let b : List (Node Slot) := [.assign (.var "n") (.int 7), .ret (some (.var "n")), .call "print" [.var "n"]]
    let c : List (Node Slot) := [.loop (.bool true) (.group [])]
    let later : Interpreter := { start with state := { start.state with
      heap := ⟨#[.int 7]⟩, env := { inner := { bindings := [("n", ⟨0⟩)] } } } }
    start.Evaluates (.group (a ++ [.group b] ++ c)) (.value (.returned (some (.cell ⟨0⟩)))) later ∧
    start.Evaluates (.group (a ++ b ++ c)) (.value (.returned (some (.cell ⟨0⟩)))) later := by
  intro start a b c later
  have front : start.Evaluates (.group [.declare ⟨"n", .int, ⟨0⟩⟩, .assign (.var "n") (.int 7)])
      (.value .completed) later := ⟨by nofun, 3, rfl⟩
  have returns : later.Evaluates (.ret (some (.var "n"))) (.value (.returned (some (.cell ⟨0⟩)))) later :=
    ⟨by nofun, 2, rfl⟩
  have split : a ++ b = [.declare ⟨"n", .int, ⟨0⟩⟩, .assign (.var "n") (.int 7)] ++
      .ret (some (.var "n")) :: [.call "print" [.var "n"]] := rfl
  exact (evaluate_flattened start a b c).2.2 _ _ _ split _ front _ _ (by nofun) returns

end Interpreter

end TreeLang
