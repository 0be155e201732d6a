import TreeLang.Proofs.Ending
import TreeLang.Proofs.Declarations
import TreeLang.Proofs.HeapCells

/-! Laws of evaluation. A law says what holds of every state that is met, how a later state
may differ from an earlier one, and which values expressions yield. Its proof fields speak
about single changes of the state only: no law mentions the operand stack, whose discipline
is the same under every law and is part of the two judgments below. -/
namespace TreeLang

/-- No array level of the type is empty. -/
def Ty.Sized : Ty → Prop
  | int => True
  | bool => True
  | void => True
  | array element size => 0 < size ∧ element.Sized

structure Law where
  inv : State → Prop
  /-- How an earlier state and a later one are related. -/
  rel : State → State → Prop
  /-- The values that expressions yield. -/
  val : Heap → Value → Prop
  /-- The values that parameters may be given. -/
  arg : Heap → Value → Prop
  declared : Declaration Slot → Prop
  refl : ∀ s, rel s s
  trans : ∀ {s t u}, rel s t → rel t u → rel s u
  val_later : ∀ {s t v}, inv t → rel s t → val s.heap v → val t.heap v
  arg_later : ∀ {s t v}, inv t → rel s t → arg s.heap v → arg t.heap v
  arg_of_val : ∀ {s v}, inv s → val s.heap v → arg s.heap v
  val_int : ∀ heap n, val heap (.int n)
  val_bool : ∀ heap b, val heap (.bool b)
  stack : ∀ {s} stack, inv s → inv { s with stack } ∧ rel s { s with stack }
  console : ∀ {s} console, inv s → inv { s with console } ∧ rel s { s with console }
  settle : ∀ {s ty declaration}, inv s → declared declaration → ty.tag = declaration.ty.tag →
    ty.Sized → inv { s with resolved := s.resolved.settle declaration.note ty } ∧
      rel s { s with resolved := s.resolved.settle declaration.note ty }
  lookup : ∀ {s name ref}, inv s → s.env.lookup name = .ok ref → val s.heap (.cell ref)
  element : ∀ {s array ref}, inv s → val s.heap (.cell array) → ref ∈ s.heap.elements array →
    val s.heap (.cell ref)
  assign : ∀ {s target v cell}, inv s → val s.heap (.cell target) → arg s.heap v →
    s.heap.written target v = .ok cell →
    inv { s with heap := s.heap.put target cell } ∧ rel s { s with heap := s.heap.put target cell }
  alloc : ∀ {s ty}, inv s → ty.fault? = none →
    inv { s with heap := (s.heap.alloc ty).2 } ∧ rel s { s with heap := (s.heap.alloc ty).2 }
  /-- A name is only ever bound to a cell that has just been made. -/
  bind : ∀ {s ty name env}, inv s → ty.fault? = none →
    s.env.declare name (s.heap.alloc ty).1 = .ok env →
    inv { s with heap := (s.heap.alloc ty).2, env } ∧
      rel s { s with heap := (s.heap.alloc ty).2, env }
  openBlock : ∀ {s}, inv s → inv { s with env := s.env.pushScope }
  closeBlock : ∀ {s t}, inv s → inv t → rel { s with env := s.env.pushScope } t →
    inv { t with env := t.env.popScope } ∧ rel s { t with env := t.env.popScope }
  enterCall : ∀ {s}, inv s → inv { s with env := .empty, depth := s.depth + 1 }
  /-- The depth is counted down from what the function has left, whatever that is. -/
  leaveCall : ∀ {s t}, inv s → inv t → rel { s with env := .empty, depth := s.depth + 1 } t →
    inv { t with env := s.env, depth := t.depth - 1 } ∧
      rel s { t with env := s.env, depth := t.depth - 1 }

namespace Law

variable {law : Law} {α β : Type} {s t u : State}

/-- What two laws ask for together. -/
def both (first second : Law) : Law where
  inv s := first.inv s ∧ second.inv s
  rel s t := first.rel s t ∧ second.rel s t
  val heap v := first.val heap v ∧ second.val heap v
  arg heap v := first.arg heap v ∧ second.arg heap v
  declared declaration := first.declared declaration ∧ second.declared declaration
  refl s := ⟨first.refl s, second.refl s⟩
  trans one two := ⟨first.trans one.1 two.1, second.trans one.2 two.2⟩
  val_later inv rel good := ⟨first.val_later inv.1 rel.1 good.1, second.val_later inv.2 rel.2 good.2⟩
  arg_later inv rel good := ⟨first.arg_later inv.1 rel.1 good.1, second.arg_later inv.2 rel.2 good.2⟩
  arg_of_val inv good := ⟨first.arg_of_val inv.1 good.1, second.arg_of_val inv.2 good.2⟩
  val_int heap n := ⟨first.val_int heap n, second.val_int heap n⟩
  val_bool heap b := ⟨first.val_bool heap b, second.val_bool heap b⟩
  stack values inv := and_and_and_comm.mp ⟨first.stack values inv.1, second.stack values inv.2⟩
  console lines inv := and_and_and_comm.mp ⟨first.console lines inv.1, second.console lines inv.2⟩
  settle inv declared tagged sized := and_and_and_comm.mp
    ⟨first.settle inv.1 declared.1 tagged sized, second.settle inv.2 declared.2 tagged sized⟩
  lookup inv found := ⟨first.lookup inv.1 found, second.lookup inv.2 found⟩
  element inv place member := ⟨first.element inv.1 place.1 member, second.element inv.2 place.2 member⟩
  assign inv place source written := and_and_and_comm.mp
    ⟨first.assign inv.1 place.1 source.1 written, second.assign inv.2 place.2 source.2 written⟩
  alloc inv sound := and_and_and_comm.mp ⟨first.alloc inv.1 sound, second.alloc inv.2 sound⟩
  bind inv sound bound := and_and_and_comm.mp ⟨first.bind inv.1 sound bound, second.bind inv.2 sound bound⟩
  openBlock inv := ⟨first.openBlock inv.1, second.openBlock inv.2⟩
  closeBlock before inv rel := and_and_and_comm.mp
    ⟨first.closeBlock before.1 inv.1 rel.1, second.closeBlock before.2 inv.2 rel.2⟩
  enterCall inv := ⟨first.enterCall inv.1, second.enterCall inv.2⟩
  leaveCall before inv rel := and_and_and_comm.mp
    ⟨first.leaveCall before.1 inv.1 rel.1, second.leaveCall before.2 inv.2 rel.2⟩

/-- The law is kept and the operand stack is as it was. -/
structure Level (law : Law) (s t : State) : Prop where
  inv : law.inv t
  rel : law.rel s t
  stack : t.stack = s.stack

/-- Moreover no name has been bound. -/
structure Steady (law : Law) (s t : State) : Prop extends law.Level s t where
  env : t.env = s.env

theorem Level.refl (inv : law.inv s) : law.Level s s := ⟨inv, law.refl s, rfl⟩

theorem Level.trans (first : law.Level s t) (second : law.Level t u) : law.Level s u :=
  ⟨second.inv, law.trans first.rel second.rel, second.stack.trans first.stack⟩

theorem Steady.refl (inv : law.inv s) : law.Steady s s := ⟨Level.refl inv, rfl⟩

theorem Steady.trans (first : law.Steady s t) (second : law.Steady t u) : law.Steady s u :=
  ⟨first.toLevel.trans second.toLevel, second.env.trans first.env⟩

/-- The judgment for expressions and what they are made of: success leaves stack and names
alone, failure leaves the stack alone. -/
def Yields (law : Law) (action : Exec α) (s : State) (good : α → State → Prop) : Prop :=
  action.Ends s (fun value t => law.Steady s t ∧ good value t) (law.Level s)

/-- The judgment for statements, which may bind names. -/
def Runs (law : Law) (action : Exec α) (s : State) (good : α → State → Prop) : Prop :=
  action.Ends s (fun value t => law.Level s t ∧ good value t) (law.Level s)

variable {action : Exec α} {next : α → Exec β} {good good' : α → State → Prop}
  {post : β → State → Prop}

theorem Yields.mono (yields : law.Yields action s good)
    (weaken : ∀ value t, good value t → good' value t) : law.Yields action s good' :=
  Exec.Ends.mono yields (fun value t ended => ⟨ended.1, weaken value t ended.2⟩) fun _ level => level

theorem Yields.runs (yields : law.Yields action s good) : law.Runs action s good :=
  Exec.Ends.mono yields (fun _ _ ended => ⟨ended.1.toLevel, ended.2⟩) fun _ level => level

theorem Yields.bind (yields : law.Yields action s good)
    (after : ∀ value t, law.Steady s t → good value t → law.Yields (next value) t post) :
    law.Yields (action >>= next) s post := by
  refine Exec.Ends.bind yields fun value t ⟨steady, holds⟩ => ?_
  refine Exec.Ends.mono (after value t steady holds) ?_ fun u level => steady.toLevel.trans level
  exact fun result u ended => ⟨steady.trans ended.1, ended.2⟩

theorem Runs.bind (runs : law.Runs action s good)
    (after : ∀ value t, law.Level s t → good value t → law.Runs (next value) t post) :
    law.Runs (action >>= next) s post := by
  refine Exec.Ends.bind runs fun value t ⟨level, holds⟩ => ?_
  refine Exec.Ends.mono (after value t level holds) ?_ fun u later => level.trans later
  exact fun result u ended => ⟨level.trans ended.1, ended.2⟩

theorem yields_pure {value : α} (inv : law.inv s) (holds : good value s) :
    law.Yields (pure value) s good :=
  Exec.ends_pure ⟨Steady.refl inv, holds⟩

theorem yields_fail {failure : Failure} (inv : law.inv s) :
    law.Yields (Exec.fail failure) s good :=
  Exec.ends_fail (Level.refl inv)

theorem yields_reading {query : State → Except Failure α} (inv : law.inv s)
    (holds : ∀ value, query s = .ok value → good value s) :
    law.Yields (Exec.reading query) s good :=
  Exec.ends_reading (fun value answer => ⟨Steady.refl inv, holds value answer⟩) (Level.refl inv)

/-! ### What the machine does to a law -/

theorem yields_toInt (value : Value) (inv : law.inv s) :
    law.Yields (Exec.toInt value) s fun _ _ => True :=
  yields_reading inv fun _ _ => trivial

theorem yields_truth (value : Value) (inv : law.inv s) :
    law.Yields (Exec.truth value) s fun _ _ => True :=
  yields_reading inv fun _ _ => trivial

theorem yields_lookup (name : String) (inv : law.inv s) :
    law.Yields (Exec.lookup name) s fun ref t => law.val t.heap (.cell ref) :=
  yields_reading inv fun _ found => law.lookup inv found

theorem yields_toArray {value : Value} (inv : law.inv s) (good : law.val s.heap value) :
    law.Yields (Exec.reading (·.heap.toArray value)) s fun ref t => law.val t.heap (.cell ref) := by
  refine yields_reading inv fun ref viewed => ?_
  rw [(Heap.toArray_ok viewed).1] at good
  exact good

theorem yields_element {array : Ref} {index : Int64} (inv : law.inv s)
    (place : law.val s.heap (.cell array)) :
    law.Yields (Exec.reading (·.heap.element array index)) s fun ref t => law.val t.heap (.cell ref) :=
  yields_reading inv fun _ found => law.element inv place (Heap.mem_of_element found)

theorem yields_assign {target : Ref} {value : Value} (inv : law.inv s)
    (place : law.val s.heap (.cell target)) (source : law.arg s.heap value) :
    law.Yields (Exec.assign target value) s fun _ _ => True := by
  unfold Yields Exec.Ends Exec.assign
  cases written : s.heap.written target value with
  | error failure => exact Level.refl inv
  | ok cell =>
    obtain ⟨kept, related⟩ := law.assign inv place source written
    exact ⟨⟨⟨kept, related, rfl⟩, rfl⟩, trivial⟩

theorem yields_settle {declaration : Declaration Slot} {ty : Ty} (inv : law.inv s)
    (declared : law.declared declaration) (tagged : ty.tag = declaration.ty.tag) (sized : ty.Sized) :
    law.Yields (Exec.settle declaration.note ty) s fun _ _ => True := by
  obtain ⟨kept, related⟩ := law.settle inv declared tagged sized
  exact ⟨⟨⟨kept, related, rfl⟩, rfl⟩, trivial⟩

theorem yields_readToken (inv : law.inv s) : law.Yields Exec.readToken s fun _ _ => True := by
  have kept := law.console s.console.readToken.2 inv
  unfold Yields Exec.Ends Exec.readToken
  split
  next value t outcome =>
    split at outcome
    next token console read =>
      cases outcome
      rw [read] at kept
      exact ⟨⟨⟨kept.1, kept.2, rfl⟩, rfl⟩, trivial⟩
    next => contradiction
  next failure t outcome =>
    split at outcome
    next => contradiction
    next problem console read =>
      cases outcome
      rw [read] at kept
      exact ⟨kept.1, kept.2, rfl⟩
  next => trivial

theorem yields_print (value : Value) (inv : law.inv s) :
    law.Yields (Exec.print value) s fun _ _ => True := by
  obtain ⟨kept, related⟩ := law.console (s.console.writeLine (s.heap.text value)) inv
  exact ⟨⟨⟨kept, related, rfl⟩, rfl⟩, trivial⟩

/-- A cell is made and a name bound to it in one go: whether the name is free is found out
only after the cell has been made. -/
theorem runs_newCell_bindName (ty : Ty) (name : String) (inv : law.inv s) :
    law.Runs (Exec.newCell ty >>= Exec.bindName name) s fun _ _ => True := by
  change (Exec.bind (Exec.newCell ty) (Exec.bindName name)).Ends s _ _
  unfold Exec.Ends Exec.bind Exec.newCell Exec.bindName
  cases fault : ty.fault? with
  | some failure => exact Level.refl inv
  | none =>
    simp only
    cases declared : s.env.declare name (s.heap.alloc ty).1 with
    | error failure =>
      obtain ⟨kept, related⟩ := law.alloc inv fault
      exact ⟨kept, related, rfl⟩
    | ok env =>
      obtain ⟨kept, related⟩ := law.bind inv fault declared
      exact ⟨⟨kept, related, rfl⟩, trivial⟩

theorem yields_intOfToken (token : String) (inv : law.inv s) :
    law.Yields (Exec.ofExcept (intOfToken token)) s fun _ _ => True :=
  yields_reading inv fun _ _ => trivial

theorem yields_boolOfToken (token : String) (inv : law.inv s) :
    law.Yields (Exec.ofExcept (boolOfToken token)) s fun _ _ => True :=
  yields_reading inv fun _ _ => trivial

/-- An action on each of some cells, which stay good while the ones before are dealt with. -/
theorem yields_forM {act : Ref → Exec Unit} {cells : List Ref} (inv : law.inv s)
    (places : ∀ cell ∈ cells, law.val s.heap (.cell cell))
    (each : ∀ cell t, law.inv t → law.val t.heap (.cell cell) → law.Yields (act cell) t fun _ _ => True) :
    law.Yields (cells.forM act) s fun _ _ => True := by
  induction cells generalizing s with
  | nil => exact yields_pure inv trivial
  | cons cell rest ih =>
    refine (each cell s inv (places cell (by simp))).bind fun _ t steady _ => ?_
    refine ih steady.inv fun other member => ?_
    exact law.val_later steady.inv steady.rel (places other (by simp [member]))

theorem yields_readAt (tag : Tag) (cell : Ref) (inv : law.inv s)
    (place : law.val s.heap (.cell cell)) : law.Yields (Exec.readAt tag cell) s fun _ _ => True := by
  induction tag generalizing s cell with
  | int =>
    refine (yields_readToken inv).bind fun token t read _ => ?_
    refine (yields_intOfToken token read.inv).bind fun n u parsed _ => ?_
    have steady := read.trans parsed
    exact yields_assign steady.inv (law.val_later steady.inv steady.rel place)
      (law.arg_of_val steady.inv (law.val_int _ n))
  | bool =>
    refine (yields_readToken inv).bind fun token t read _ => ?_
    refine (yields_boolOfToken token read.inv).bind fun b u parsed _ => ?_
    have steady := read.trans parsed
    exact yields_assign steady.inv (law.val_later steady.inv steady.rel place)
      (law.arg_of_val steady.inv (law.val_bool _ b))
  | void => exact yields_pure inv trivial
  | array element ih =>
    -- The walk goes over the elements as they were when the array was reached.
    have seen : law.Yields (Exec.reading fun s => .ok (s.heap.elements cell)) s fun elements t =>
        ∀ ref ∈ elements.toList, law.val t.heap (.cell ref) := by
      refine yields_reading inv fun elements read ref member => ?_
      cases read
      exact law.element inv place (by simpa using member)
    exact seen.bind fun elements t steady places =>
      yields_forM steady.inv places fun ref u later good => ih ref later good

theorem yields_readInto (cell : Ref) (inv : law.inv s) (place : law.val s.heap (.cell cell)) :
    law.Yields (Exec.readInto cell) s fun _ _ => True := by
  have known : law.Yields (Exec.reading fun s => .ok (s.heap.get cell).tag) s fun _ _ => True :=
    yields_reading inv fun _ _ => trivial
  exact known.bind fun tag t steady _ =>
    yields_readAt tag cell steady.inv (law.val_later steady.inv steady.rel place)

end Law

end TreeLang
