import TreeLang.Proofs.StackDiscipline

/-! Two actions over two operand stacks. The second starts in the same state as the first but
over a stack of its own; it echoes the first if it ends in the same way, in the same state
but for the stack, which it has back as it was. Most actions of the machine take no notice of
the stack at all. -/
namespace TreeLang

namespace Exec

variable {α β : Type} {lax : Prop} {s t : State}

instance : LawfulMonad Exec := LawfulMonad.mk' Exec
  (by
    intro α action
    funext s
    change action.bind _ s = action s
    unfold Exec.bind
    cases action s <;> rfl)
  (fun _ _ => rfl)
  (by
    intro α β γ first second third
    funext s
    change (first.bind second).bind third s = first.bind (fun value => (second value).bind third) s
    unfold Exec.bind
    cases first s <;> rfl)

theorem bind_of_ok {first : Exec α} {next : α → Exec β} {value : α} (outcome : first s = .ok value t) :
    (first >>= next) s = next value t := by
  change first.bind next s = _
  simp only [Exec.bind, outcome]

theorem bind_of_error {first : Exec α} {next : α → Exec β} {failure : Failure}
    (outcome : first s = .error failure t) : (first >>= next) s = .error failure t := by
  change first.bind next s = _
  simp only [Exec.bind, outcome]

theorem bind_of_outOfFuel {first : Exec α} {next : α → Exec β} (outcome : first s = .outOfFuel) :
    (first >>= next) s = .outOfFuel := by
  change first.bind next s = _
  simp only [Exec.bind, outcome]

/-- If two actions in a row end well, so does each. -/
theorem ok_of_bind {first : Exec α} {next : α → Exec β} {result : β} (ended : (first >>= next) s = .ok result t) :
    ∃ value u, first s = .ok value u ∧ next value u = .ok result t := by
  cases outcome : first s with
  | ok value u =>
    rw [bind_of_ok outcome] at ended
    exact ⟨value, u, rfl, ended⟩
  | error failure u =>
    rw [bind_of_error outcome] at ended
    contradiction
  | outOfFuel =>
    rw [bind_of_outOfFuel outcome] at ended
    contradiction

theorem height_bind (next : Nat → Exec α) (s : State) : (height >>= next) s = next s.stack.size s := rfl

theorem modify_bind (change : State → State) (next : Unit → Exec α) (s : State) :
    (modify change >>= next) s = next () (change s) := rfl

/-- Over any other stack the second action does what the first does here, and leaves that
stack as it is. Where the first runs out of fuel so does the second, unless `lax` holds. -/
def Echoes (lax : Prop) (first second : Exec α) (s : State) : Prop :=
  ∀ stack, match first s with
    | .ok value t => second { s with stack } = .ok value { t with stack }
    | .error failure t => second { s with stack } = .error failure { t with stack }
    | .outOfFuel => lax ∨ second { s with stack } = .outOfFuel

/-- The same for actions that may leave a result, which both runs then have on their stacks. -/
def Replays (lax : Prop) (first second : Exec α) (s : State) : Prop :=
  ∀ stack, match first s with
    | .ok value t => ∀ result, t.stack = s.stack.withResult result →
        second { s with stack } = .ok value { t with stack := stack.withResult result }
    | .error failure t => second { s with stack } = .error failure { t with stack }
    | .outOfFuel => lax ∨ second { s with stack } = .outOfFuel

section outcomes

variable {first second : Exec α} {value : α} {failure : Failure}

theorem Echoes.of_ok (echoes : Echoes lax first second s) (outcome : first s = .ok value t)
    (stack : OperandStack) : second { s with stack } = .ok value { t with stack } := by
  simpa only [outcome] using echoes stack

theorem Echoes.of_error (echoes : Echoes lax first second s) (outcome : first s = .error failure t)
    (stack : OperandStack) : second { s with stack } = .error failure { t with stack } := by
  simpa only [outcome] using echoes stack

theorem Echoes.of_outOfFuel (echoes : Echoes lax first second s) (outcome : first s = .outOfFuel)
    (stack : OperandStack) : lax ∨ second { s with stack } = .outOfFuel := by
  simpa only [outcome] using echoes stack

theorem Replays.of_ok (replays : Replays lax first second s) (outcome : first s = .ok value t)
    {result : Option Value} (left : t.stack = s.stack.withResult result) (stack : OperandStack) :
    second { s with stack } = .ok value { t with stack := stack.withResult result } := by
  have both := replays stack
  simp only [outcome] at both
  exact both result left

theorem Replays.of_error (replays : Replays lax first second s) (outcome : first s = .error failure t)
    (stack : OperandStack) : second { s with stack } = .error failure { t with stack } := by
  simpa only [outcome] using replays stack

theorem Replays.of_outOfFuel (replays : Replays lax first second s) (outcome : first s = .outOfFuel)
    (stack : OperandStack) : lax ∨ second { s with stack } = .outOfFuel := by
  simpa only [outcome] using replays stack

end outcomes

section rules

variable {first second : Exec α} {next next' : α → Exec β} {ok : α → State → Prop} {bad : State → Prop}

theorem Echoes.bind (echoes : Echoes lax first second s) (ends : first.Ends s ok bad)
    (after : ∀ value t, ok value t → Echoes lax (next value) (next' value) t) :
    Echoes lax (first >>= next) (second >>= next') s := by
  intro stack
  cases outcome : first s with
  | ok value t =>
    rw [bind_of_ok outcome, bind_of_ok (echoes.of_ok outcome stack)]
    exact after value t (ends.ok_of_eq outcome) stack
  | error failure t =>
    rw [bind_of_error outcome]
    exact bind_of_error (echoes.of_error outcome stack)
  | outOfFuel =>
    rw [bind_of_outOfFuel outcome]
    exact (echoes.of_outOfFuel outcome stack).imp_right bind_of_outOfFuel

/-- A result can only be left by what comes last. -/
theorem Echoes.bindReplays (echoes : Echoes lax first second s) (ends : first.Ends s ok bad)
    (level : ∀ value t, ok value t → t.stack = s.stack)
    (after : ∀ value t, ok value t → Replays lax (next value) (next' value) t) :
    Replays lax (first >>= next) (second >>= next') s := by
  intro stack
  cases outcome : first s with
  | ok value t =>
    have reached := ends.ok_of_eq outcome
    rw [bind_of_ok outcome, bind_of_ok (echoes.of_ok outcome stack), ← level value t reached]
    exact after value t reached stack
  | error failure t =>
    rw [bind_of_error outcome]
    exact bind_of_error (echoes.of_error outcome stack)
  | outOfFuel =>
    rw [bind_of_outOfFuel outcome]
    exact (echoes.of_outOfFuel outcome stack).imp_right bind_of_outOfFuel

theorem Replays.bindPure (replays : Replays lax first second s) (value : β) :
    Replays lax (first >>= fun _ => pure value) (second >>= fun _ => pure value) s := by
  intro stack
  cases outcome : first s with
  | ok done t =>
    rw [bind_of_ok outcome]
    intro result left
    rw [bind_of_ok (replays.of_ok outcome left stack)]
    rfl
  | error failure t =>
    rw [bind_of_error outcome]
    exact bind_of_error (replays.of_error outcome stack)
  | outOfFuel =>
    rw [bind_of_outOfFuel outcome]
    exact (replays.of_outOfFuel outcome stack).imp_right bind_of_outOfFuel

theorem withResult_eq_self {stack : OperandStack} {result : Option Value}
    (same : stack = stack.withResult result) : result = none := by
  have both : stack.withResult none = stack.withResult result := same
  exact (OperandStack.withResult_injective both).symm

theorem withResult_eq_push {stack : OperandStack} {value : Value} {result : Option Value}
    (same : stack.push value = stack.withResult result) : result = some value := by
  have both : stack.withResult (some value) = stack.withResult result := same
  exact (OperandStack.withResult_injective both).symm

theorem Echoes.replays (echoes : Echoes lax first second s) (ends : first.Ends s ok bad)
    (level : ∀ value t, ok value t → t.stack = s.stack) : Replays lax first second s := by
  intro stack
  cases outcome : first s with
  | ok value t =>
    intro result left
    rw [level value t (ends.ok_of_eq outcome)] at left
    rw [withResult_eq_self left]
    exact echoes.of_ok outcome stack
  | error failure t => exact echoes.of_error outcome stack
  | outOfFuel => exact echoes.of_outOfFuel outcome stack

theorem Echoes.thenAlways {change change' : State → State} (echoes : Echoes lax first second s)
    (alike : ∀ t stack, change' { t with stack } = { change t with stack }) :
    Echoes lax (first.thenAlways change) (second.thenAlways change') s := by
  intro stack
  unfold Exec.thenAlways
  cases outcome : first s with
  | ok value t => simp only [echoes.of_ok outcome stack, alike]
  | error failure t => simp only [echoes.of_error outcome stack, alike]
  | outOfFuel =>
    rcases echoes.of_outOfFuel outcome stack with free | same
    · exact .inl free
    · simp only [same, or_true]

end rules

/-- Over the very stack of the first run, and with no leeway, the second is the same run. -/
theorem Echoes.eq {first second : Exec α} (echoes : Echoes False first second s)
    (level : first.EndsIn s fun t => t.stack = s.stack) : second s = first s := by
  cases outcome : first s with
  | ok value t =>
    have same := echoes.of_ok outcome s.stack
    have unchanged : { t with stack := s.stack } = t := by rw [← level.ok_of_eq outcome]
    rwa [unchanged] at same
  | error failure t =>
    have same := echoes.of_error outcome s.stack
    have unchanged : { t with stack := s.stack } = t := by rw [← level.bad_of_eq outcome]
    rwa [unchanged] at same
  | outOfFuel => exact (echoes.of_outOfFuel outcome s.stack).resolve_left id

/-! ### Actions that take no notice of the stack -/

def Portable (action : Exec α) : Prop := ∀ s, Echoes False action action s

theorem Portable.echoes {action : Exec α} (portable : action.Portable) : Echoes lax action action s := by
  intro stack
  cases outcome : action s with
  | ok value t => exact (portable s).of_ok outcome stack
  | error failure t => exact (portable s).of_error outcome stack
  | outOfFuel => exact ((portable s).of_outOfFuel outcome stack).imp_left False.elim

theorem ends_anyhow (action : Exec α) (s : State) : action.Ends s (fun _ _ => True) fun _ => True := by
  unfold Exec.Ends
  split <;> trivial

theorem Portable.bind {first : Exec α} {next : α → Exec β} (portable : first.Portable)
    (after : ∀ value, (next value).Portable) : (first >>= next).Portable :=
  fun s => (portable s).bind (ends_anyhow first s) fun value t _ => after value t

theorem portable_pure (value : α) : (pure value : Exec α).Portable := fun _ _ => rfl

theorem portable_fail (failure : Failure) : (fail failure : Exec α).Portable := fun _ _ => rfl

theorem portable_reading {query : State → Except Failure α}
    (blind : ∀ s stack, query { s with stack } = query s) : (reading query).Portable := by
  intro s stack
  simp only [reading, blind]
  cases query s <;> rfl

theorem portable_assign (target : Ref) (value : Value) : (assign target value).Portable := by
  intro s stack
  simp only [assign]
  cases s.heap.written target value <;> rfl

theorem portable_newCell (ty : Ty) : (newCell ty).Portable := by
  intro s stack
  simp only [newCell]
  cases ty.fault? <;> rfl

theorem portable_bindName (name : String) (ref : Ref) : (bindName name ref).Portable := by
  intro s stack
  simp only [bindName]
  cases s.env.declare name ref <;> rfl

theorem portable_readToken : readToken.Portable := by
  intro s stack
  simp only [readToken]
  rcases s.console.readToken with ⟨_ | _, _⟩ <;> rfl

theorem portable_readAt (tag : Tag) (cell : Ref) : (readAt tag cell).Portable := by
  induction tag generalizing cell with
  | int =>
    refine portable_readToken.bind fun token => ?_
    exact (portable_reading fun _ _ => rfl).bind fun n => portable_assign cell (.int n)
  | bool =>
    refine portable_readToken.bind fun token => ?_
    exact (portable_reading fun _ _ => rfl).bind fun b => portable_assign cell (.bool b)
  | void => exact portable_pure ()
  | array element ih =>
    refine (portable_reading fun _ _ => rfl).bind fun elements => ?_
    induction elements.toList with
    | nil => exact portable_pure PUnit.unit
    | cons ref rest walk => exact (ih ref).bind fun _ => walk

theorem portable_readInto (cell : Ref) : (readInto cell).Portable :=
  (portable_reading fun _ _ => rfl).bind fun tag => portable_readAt tag cell

end Exec

namespace Eval

open Exec

variable {eval : Evaluator} {node : Node Slot} {s t : State} {result : Option Value}

theorem value_of_completed (outcome : eval node s = .ok .completed t)
    (left : t.stack = s.stack.withResult result) :
    value eval node s = match result with
      | some value => .ok value { t with stack := s.stack }
      | none => .error .missingValue t := by
  rw [value, height_bind, bind_of_ok outcome]
  simp only [height_bind, left]
  cases result with
  | none => simp [OperandStack.withResult, fail]
  | some value =>
    simp [OperandStack.withResult, OperandStack.push, OperandStack.size, pop, OperandStack.pop, left]

theorem value_of_returned {returned : Option Value} (outcome : eval node s = .ok (.returned returned) t) :
    value eval node s = .error .returnInExpression t := by
  rw [value, height_bind, bind_of_ok outcome]
  rfl

theorem statement_of_ok {flow : Flow} (outcome : eval node s = .ok flow t)
    (left : t.stack = s.stack.withResult result) :
    statement eval node s = .ok flow { t with stack := s.stack } := by
  rw [statement, height_bind, bind_of_ok outcome]
  have dropped : t.stack.truncate s.stack.size = s.stack := by
    cases result <;>
      simp [left, OperandStack.withResult, OperandStack.truncate, OperandStack.push, OperandStack.size]
  change Outcome.ok flow { t with stack := t.stack.truncate s.stack.size } = _
  rw [dropped]

theorem portable_finish (function : FunctionDef Slot) (flow : Flow) : (finish function flow).Portable := by
  cases flow with
  | returned value => exact portable_reading fun _ _ => rfl
  | completed =>
    by_cases void : function.returns.isVoid
    · simp only [finish, if_pos void]
      exact portable_pure none
    · simp only [finish, if_neg void]
      exact portable_fail (.missingReturn function.name)

end Eval

end TreeLang
