import TreeLang.Eval

/-! How actions end. `action.Ends s ok bad` says that from `s` the action can only end with
a result and a state as in `ok`, or with a failure and a state as in `bad`. Running out of
fuel is not an ending, so nothing is said about termination. -/
namespace TreeLang.Exec

variable {α β : Type}

def Ends (action : Exec α) (s : State) (ok : α → State → Prop) (bad : State → Prop) : Prop :=
  match action s with
  | .ok value t => ok value t
  | .error _ t => bad t
  | .outOfFuel => True

/-- However the action ends, the state is as in `post`. -/
abbrev EndsIn (action : Exec α) (s : State) (post : State → Prop) : Prop :=
  action.Ends s (fun _ t => post t) post

variable {s : State} {ok ok' : α → State → Prop} {bad bad' : State → Prop}

theorem Ends.mono {action : Exec α} (ends : action.Ends s ok bad)
    (onOk : ∀ value t, ok value t → ok' value t) (onBad : ∀ t, bad t → bad' t) :
    action.Ends s ok' bad' := by
  unfold Ends at *
  split <;> simp_all

theorem Ends.bind {first : Exec α} {next : α → Exec β} {post : β → State → Prop}
    (ends : first.Ends s ok bad) (after : ∀ value t, ok value t → (next value).Ends t post bad) :
    (first >>= next).Ends s post bad := by
  change (first.bind next).Ends s post bad
  unfold Ends Exec.bind at *
  cases outcome : first s with
  | ok value t => simpa [outcome] using after value t (by simpa [outcome] using ends)
  | error failure t => simpa [outcome] using ends
  | outOfFuel => simp

theorem Ends.bind_of_eq {first : Exec α} {next : α → Exec β} {value : α} {t : State}
    {post : β → State → Prop} (outcome : first s = .ok value t) (ends : (next value).Ends t post bad) :
    (first >>= next).Ends s post bad := by
  change (first.bind next).Ends s post bad
  unfold Ends Exec.bind at *
  rw [outcome]
  exact ends

theorem Ends.and {action : Exec α} (first : action.Ends s ok bad) (second : action.Ends s ok' bad') :
    action.Ends s (fun value t => ok value t ∧ ok' value t) fun t => bad t ∧ bad' t := by
  unfold Ends at *
  split <;> simp_all

/-- The outcome itself may be remembered. -/
theorem Ends.recall {action : Exec α} (ends : action.Ends s ok bad) :
    action.Ends s (fun value t => ok value t ∧ action s = .ok value t) bad := by
  unfold Ends at *
  cases outcome : action s <;> simp_all

theorem Ends.ok_of_eq {action : Exec α} {value : α} {t : State} (ends : action.Ends s ok bad)
    (outcome : action s = .ok value t) : ok value t := by
  simpa [Ends, outcome] using ends

theorem Ends.bad_of_eq {action : Exec α} {failure : Failure} {t : State}
    (ends : action.Ends s ok bad) (outcome : action s = .error failure t) : bad t := by
  simpa [Ends, outcome] using ends

theorem ends_pure {value : α} (here : ok value s) : (pure value : Exec α).Ends s ok bad := here

theorem ends_fail {failure : Failure} (here : bad s) : (fail failure : Exec α).Ends s ok bad := here

theorem ends_reading {query : State → Except Failure α}
    (onOk : ∀ value, query s = .ok value → ok value s) (onBad : bad s) :
    (reading query).Ends s ok bad := by
  unfold Ends reading
  cases answer : query s with
  | ok value => exact onOk value answer
  | error failure => exact onBad

theorem ends_reading_bind {query : State → Except Failure β} {next : β → Exec α}
    (onOk : ∀ value, query s = .ok value → (next value).Ends s ok bad) (onBad : bad s) :
    (reading query >>= next).Ends s ok bad := by
  have read : (reading query).Ends s (fun value t => t = s ∧ query s = .ok value) bad :=
    ends_reading (fun _ answer => ⟨rfl, answer⟩) onBad
  refine read.bind ?_
  rintro value _ ⟨rfl, answer⟩
  exact onOk value answer

theorem ends_height_bind {next : Nat → Exec α} (ends : (next s.stack.size).Ends s ok bad) :
    (height >>= next).Ends s ok bad := ends

theorem ends_modify_bind {change : State → State} {next : Unit → Exec α}
    (ends : (next ()).Ends (change s) ok bad) : (modify change >>= next).Ends s ok bad := ends

/-- What is always done after an action is done after each of its endings. -/
theorem Ends.thenAlways {action : Exec α} {change : State → State}
    (ends : action.Ends s (fun value t => ok value (change t)) (fun t => bad (change t))) :
    (action.thenAlways change).Ends s ok bad := by
  unfold Ends Exec.thenAlways at *
  cases outcome : action s <;> simp_all

end TreeLang.Exec

namespace TreeLang.Eval

/-- A call is refused where it is made, or its function is run in an environment of its own. -/
theorem enter_ends {eval : Evaluator} {context : Context} {function : FunctionDef Slot}
    {args : List Value} {s : State} {ok : Option Value → State → Prop} {bad : State → Prop}
    (refused : bad s)
    (body : ((activate eval function args).thenAlways fun t =>
      { t with env := s.env, depth := t.depth - 1 }).Ends
        { s with env := .empty, depth := s.depth + 1 } ok bad) :
    (enter eval context function args).Ends s ok bad := by
  unfold Exec.Ends enter
  by_cases room : s.depth < context.maxCallDepth
  · simp only [if_pos room]
    exact body
  · simp only [if_neg room]
    exact refused

/-- Which function is called is found out where the call is made. -/
theorem invoke_ends {eval : Evaluator} {context : Context} {name : String} {args : List Value} {s : State}
    {ok : Option Value → State → Prop} {bad : State → Prop} (refused : bad s)
    (entered : ∀ function, (enter eval context function args).Ends s ok bad) :
    (invoke eval context name args).Ends s ok bad := by
  have resolved : (Exec.reading fun s =>
      context.registry.resolve (signature name (args.map s.heap.tag))).Ends s (fun _ t => t = s) bad :=
    Exec.ends_reading (fun _ _ => rfl) refused
  refine Exec.Ends.bind resolved fun function t same => ?_
  subst same
  exact entered function

end TreeLang.Eval
