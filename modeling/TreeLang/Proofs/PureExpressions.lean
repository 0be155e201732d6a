import TreeLang.Interpreter
import TreeLang.Proofs.Echo
import TreeLang.Proofs.Parts

/-! Expressions that neither assign nor call. Their meaning is said without the machine, by
recursion on the expression, from the names and the cells there are: numbers are exact integers
that are brought back into 64 bits at the end of each operation. Evaluation gives just this value
or this failure, and nothing else of the interpreter is touched. -/
namespace TreeLang

/-! ### What is meant -/

inductive Expression where
  | int (value : Int64)
  | bool (value : Bool)
  | var (name : String)
  | index (base position : Expression)
  | arith (op : ArithOp) (left right : Expression)
  | logic (op : LogicOp) (left right : Expression)
  | compare (op : CmpOp) (left right : Expression)
  | not (operand : Expression)

/-- The expression as part of a tree. -/
def Expression.node {δ : Type} : Expression → Node δ
  | int n => .int n
  | bool b => .bool b
  | var name => .var name
  | index base position => .index base.node position.node
  | arith op left right => .arith op left.node right.node
  | logic op left right => .logic op left.node right.node
  | compare op left right => .compare op left.node right.node
  | not operand => .not operand.node

namespace Cell

/-- Truth counts as zero or one, and an array is no number. -/
def number : Cell → Except Failure Int64
  | int n => .ok n
  | bool b => .ok (if b then 1 else 0)
  | array element _ => .error (.typeMismatch "int" (Tag.array element.tag).text)

/-- All numbers but zero count as true, and so does every array. -/
def isTrue : Cell → Bool
  | int n => n.toInt ≠ 0
  | bool b => b
  | array .. => true

def sequence : Cell → Except Failure (Array Ref)
  | int _ => .error (.typeMismatch "array" "int")
  | bool _ => .error (.typeMismatch "array" "bool")
  | array _ elements => .ok elements

end Cell

/-- The exact result, which may need more than 64 bits. Quotients are cut off toward zero. -/
def ArithOp.onIntegers? (op : ArithOp) (left right : Int) : Option Int :=
  match op with
  | add => some (left + right)
  | sub => some (left - right)
  | mul => some (left * right)
  | div => if right = 0 then none else some (left.tdiv right)
  | rem => if right = 0 then none else some (left.tmod right)

def CmpOp.onIntegers (op : CmpOp) (left right : Int) : Bool :=
  match op with
  | lt => left < right
  | le => left ≤ right
  | gt => left > right
  | ge => left ≥ right
  | eq => left = right
  | ne => left ≠ right

namespace Expression

/-- Operands are taken from left to right, and the first failure counts. -/
def meaning (env : Env) (heap : Heap) : Expression → Except Failure Value
  | int n => .ok (.int n)
  | bool b => .ok (.bool b)
  | var name =>
    match env.find? name with
    | some ref => .ok (.cell ref)
    | none => .error (.undefinedVariable name)
  | index base position => do
    let elements ← (heap.held (← base.meaning env heap)).sequence
    let i ← (heap.held (← position.meaning env heap)).number
    if inside : 0 ≤ i.toInt ∧ i.toInt < elements.size then
      return .cell elements[i.toInt.toNat]
    else
      throw (.indexOutOfBounds i elements.size)
  | arith op left right => do
    let l ← (heap.held (← left.meaning env heap)).number
    let r ← (heap.held (← right.meaning env heap)).number
    match op.onIntegers? l.toInt r.toInt with
    | some n => return .int (Int64.ofInt n)
    | none => throw .divisionByZero
  | logic op left right => do
    match op, (heap.held (← left.meaning env heap)).isTrue with
    | .and, false => return .bool false
    | .or, true => return .bool true
    | _, _ => return .bool (heap.held (← right.meaning env heap)).isTrue
  | compare op left right => do
    let l ← (heap.held (← left.meaning env heap)).number
    let r ← (heap.held (← right.meaning env heap)).number
    return .bool (op.onIntegers l.toInt r.toInt)
  | not operand => return .bool (!(heap.held (← operand.meaning env heap)).isTrue)

end Expression

/-! ### The operations on 64 bits -/

theorem ArithOp.result?_eq_onIntegers? (op : ArithOp) (left right : Int64) :
    op.result? left right = (op.onIntegers? left.toInt right.toInt).map Int64.ofInt := by
  have zero : right = 0 ↔ right.toInt = 0 := by
    rw [← Int64.toInt_inj]
    rfl
  cases op with
  | add => simp [result?, onIntegers?, Int64.ofInt_add]
  | sub => simp [result?, onIntegers?, Int64.ofInt_sub]
  | mul => simp [result?, onIntegers?, Int64.ofInt_mul]
  | div =>
    have quotient : Int64.ofInt (left.toInt.tdiv right.toInt) = left / right := by
      rw [← Int64.toInt_inj, Int64.toInt_div, Int64.toInt_ofInt]
    simp only [result?, onIntegers?, zero]
    split <;> simp [quotient]
  | rem =>
    have remainder : Int64.ofInt (left.toInt.tmod right.toInt) = left % right := by
      rw [← Int64.toInt_mod, Int64.ofInt_toInt]
    simp only [result?, onIntegers?, zero]
    split <;> simp [remainder]

example : (ArithOp.div.onIntegers? Int64.minValue.toInt (-1)).map Int64.ofInt = some Int64.minValue := by decide

example : (ArithOp.rem.onIntegers? Int64.minValue.toInt (-1)).map Int64.ofInt = some 0 := by decide

theorem CmpOp.holds_eq_onIntegers (op : CmpOp) (left right : Int64) :
    op.holds left right = op.onIntegers left.toInt right.toInt := by
  cases op <;>
    simp [holds, onIntegers, Int64.lt_iff_toInt_lt, Int64.le_iff_toInt_le, ← Int64.toInt_inj, bne, BEq.beq]

/-! ### The views of a value -/

namespace Heap

theorem toInt_eq_number (heap : Heap) (value : Value) : heap.toInt value = (heap.held value).number := by
  cases value with
  | int n => rfl
  | bool b => cases b <;> rfl
  | cell ref =>
    simp only [toInt, held]
    cases heap.get ref with
    | int n => rfl
    | bool b => cases b <;> rfl
    | array element elements => rfl

theorem truth_eq_isTrue (heap : Heap) (value : Value) : heap.truth value = (heap.held value).isTrue := by
  have zero (n : Int64) : (n != 0) = decide (n.toInt ≠ 0) := by
    rw [Bool.eq_iff_iff, bne_iff_ne, decide_eq_true_iff, ne_eq, ← Int64.toInt_inj]
    rfl
  cases value with
  | int n => exact zero n
  | bool b => rfl
  | cell ref =>
    simp only [truth, held]
    cases heap.get ref with
    | int n => exact zero n
    | bool b => rfl
    | array element elements => rfl

theorem sequence_eq (heap : Heap) (value : Value) :
    (heap.held value).sequence = heap.toArray value >>= fun array => pure (heap.elements array) := by
  cases value with
  | int n => rfl
  | bool b => rfl
  | cell ref =>
    simp only [held, toArray]
    cases content : heap.get ref with
    | int n => rfl
    | bool b => rfl
    | array element elements =>
      simp [Cell.sequence, Heap.elements, content, bind, Except.bind, pure, Except.pure]

theorem element_eq (heap : Heap) (array : Ref) (index : Int64) :
    heap.element array index =
      if inside : 0 ≤ index.toInt ∧ index.toInt < (heap.elements array).size then
        .ok (heap.elements array)[index.toInt.toNat]
      else .error (.indexOutOfBounds index (heap.elements array).size) := by
  have sign : index < 0 ↔ index.toInt < 0 := Int64.lt_iff_toInt_lt
  unfold element
  by_cases negative : index.toInt < 0
  · have outside : ¬ (0 ≤ index.toInt ∧ index.toInt < (heap.elements array).size) := by omega
    simp only [sign, if_pos negative, dif_neg outside]
  · by_cases inside : index.toInt < (heap.elements array).size
    · have within : index.toInt.toNat < (heap.elements array).size := by omega
      have both : 0 ≤ index.toInt ∧ index.toInt < (heap.elements array).size := by omega
      simp only [sign, if_neg negative, Array.getElem?_eq_getElem within, dif_pos both]
    · have beyond : (heap.elements array).size ≤ index.toInt.toNat := by omega
      have outside : ¬ (0 ≤ index.toInt ∧ index.toInt < (heap.elements array).size) := by omega
      simp only [sign, if_neg negative, Array.getElem?_eq_none beyond, dif_neg outside]

end Heap

/-! ### Evaluation -/

namespace Exec

variable {α β : Type}

theorem reading_bind (query : State → Except Failure α) (next : α → Exec β) (s : State) :
    (reading query >>= next) s = match query s with
      | .ok value => next value s
      | .error failure => .error failure s := by
  cases outcome : query s with
  | ok value => exact bind_of_ok (by simp only [reading, outcome])
  | error failure => exact bind_of_error (by simp only [reading, outcome])

end Exec

namespace Eval

open Exec

variable {below : Evaluator} {context : Context} {turns : Nat} {node : Node Slot} {s : State}

/-- An expression that only reads and leaves what it found is as good as what it reads. -/
theorem value_of_produces {query : State → Except Failure Value}
    (produces : below node = reading query >>= produce) : value below node = reading query := by
  funext s
  have outcome := congrFun produces s
  rw [reading_bind] at outcome
  cases found : query s with
  | ok v =>
    rw [found] at outcome
    have left : s.stack.push v = s.stack.withResult (some v) := rfl
    rw [value_of_completed outcome left]
    simp only [reading, found]
  | error failure =>
    rw [found] at outcome
    rw [value, height_bind, bind_of_error outcome]
    simp only [reading, found]

/-- The actions of a rule, one after the other, against the steps of the meaning. -/
theorem reading_bind_produces {α : Type} {query : State → Except Failure α} {next : α → Exec Flow}
    {result : α → Except Failure Value}
    (after : ∀ found, next found s = (reading (fun _ => result found) >>= produce) s) :
    (reading query >>= next) s = (reading (fun _ => query s >>= result) >>= produce) s := by
  rw [reading_bind]
  cases query s with
  | ok found => exact after found
  | error failure => rfl

/-- Where the operands come out as they are meant, so does the expression. -/
theorem step_expression (e : Expression)
    (operands : ∀ operand : Expression, operand.node ∈ (e.node : Node Slot).parts →
      value below operand.node = reading fun s => operand.meaning s.env s.heap) :
    step below context turns e.node = reading (fun s => e.meaning s.env s.heap) >>= produce := by
  funext s
  change _ = (reading (fun _ => e.meaning s.env s.heap) >>= produce) s
  cases e with
  | int n => rfl
  | bool b => rfl
  | var name =>
    simp only [Expression.node, step, lookup, Expression.meaning, reading_bind, Env.lookup]
    cases s.env.find? name <;> rfl
  | index base position =>
    simp only [Expression.node, Node.parts] at operands
    simp only [Expression.node, step, int, operands base (by simp), operands position (by simp),
      toInt, Heap.toInt_eq_number, Expression.meaning, Heap.sequence_eq, bind_assoc, pure_bind]
    refine reading_bind_produces fun v => ?_
    refine reading_bind_produces fun array => ?_
    refine reading_bind_produces fun w => ?_
    refine reading_bind_produces fun i => ?_
    rw [reading_bind, Heap.element_eq]
    by_cases inside : 0 ≤ i.toInt ∧ i.toInt < (s.heap.elements array).size
    · simp only [dif_pos inside]
      rfl
    · simp only [dif_neg inside]
      rfl
  | arith op left right =>
    simp only [Expression.node, Node.parts] at operands
    simp only [Expression.node, step, int, operands left (by simp), operands right (by simp),
      toInt, Heap.toInt_eq_number, Expression.meaning, bind_assoc]
    refine reading_bind_produces fun v => ?_
    refine reading_bind_produces fun l => ?_
    refine reading_bind_produces fun w => ?_
    refine reading_bind_produces fun r => ?_
    rw [ArithOp.result?_eq_onIntegers?]
    cases op.onIntegers? l.toInt r.toInt <;> rfl
  | logic op left right =>
    simp only [Expression.node, Node.parts] at operands
    simp only [Expression.node, step, truth, operands left (by simp), operands right (by simp),
      Exec.truth, Heap.truth_eq_isTrue, Expression.meaning, bind_assoc]
    refine reading_bind_produces fun v => ?_
    rw [reading_bind]
    simp only
    -- the right operand is asked for in two of the four cases
    cases op <;> cases (s.heap.held v).isTrue
    case and.false => rfl
    case or.true => rfl
    all_goals exact reading_bind_produces fun w => rfl
  | compare op left right =>
    simp only [Expression.node, Node.parts] at operands
    simp only [Expression.node, step, int, operands left (by simp), operands right (by simp),
      toInt, Heap.toInt_eq_number, Expression.meaning, bind_assoc]
    refine reading_bind_produces fun v => ?_
    refine reading_bind_produces fun l => ?_
    refine reading_bind_produces fun w => ?_
    refine reading_bind_produces fun r => ?_
    rw [CmpOp.holds_eq_onIntegers]
    rfl
  | not operand =>
    simp only [Expression.node, Node.parts] at operands
    simp only [Expression.node, step, truth, operands operand (by simp), Exec.truth,
      Heap.truth_eq_isTrue, Expression.meaning, bind_assoc]
    exact reading_bind_produces fun v => rfl

/-- The induction is on the fuel, which the height of the expression bounds from below. -/
theorem value_expression {fuel : Nat} (e : Expression) (enough : (e.node : Node Slot).height ≤ fuel) :
    value (eval context fuel) e.node = reading fun s => e.meaning s.env s.heap := by
  induction fuel generalizing e with
  | zero =>
    have pos := (e.node : Node Slot).height_pos
    omega
  | succ fuel ih =>
    refine value_of_produces (step_expression e fun operand part => ih operand ?_)
    have lower := Node.height_part_lt part
    omega

end Eval

def Answer.ofExcept {α : Type} : Except Failure α → Answer α
  | .ok result => .value result
  | .error failed => .failure failed

/-- Evaluation reports what an expression means in the environment and the heap, be it a value or a
failure, and leaves the interpreter as it was. -/
theorem Interpreter.evalExpr_expression (interpreter : Interpreter) (e : Expression) (extra : Nat) :
    interpreter.evalExpr ((e.node : Node Slot).height + extra) e.node =
      (.ofExcept (e.meaning interpreter.state.env interpreter.state.heap), interpreter) := by
  rw [evalExpr, Eval.value_expression e (Nat.le_add_right _ _), perform, Exec.reading]
  cases e.meaning interpreter.state.env interpreter.state.heap <;> rfl

/-! ### Sums, differences and products -/

/-- Integer literals under sums, differences and products, which have a result at all operands. -/
inductive Calculation where
  | literal (value : Int64)
  | add (left right : Calculation)
  | sub (left right : Calculation)
  | mul (left right : Calculation)

namespace Calculation

def expression : Calculation → Expression
  | literal n => .int n
  | add left right => .arith .add left.expression right.expression
  | sub left right => .arith .sub left.expression right.expression
  | mul left right => .arith .mul left.expression right.expression

/-- The value without any bound on the numbers that occur on the way. -/
def exact : Calculation → Int
  | literal n => n.toInt
  | add left right => left.exact + right.exact
  | sub left right => left.exact - right.exact
  | mul left right => left.exact * right.exact

variable {env : Env} {heap : Heap} {op : ArithOp} {left right : Expression} {l r n : Int}

/-- Numbers may be brought back into 64 bits before an operation as well as after it. -/
theorem meaning_arith (lefted : left.meaning env heap = .ok (.int (Int64.ofInt l)))
    (righted : right.meaning env heap = .ok (.int (Int64.ofInt r)))
    (wraps : op.onIntegers? (Int64.ofInt l).toInt (Int64.ofInt r).toInt = some n) :
    (Expression.arith op left right).meaning env heap = .ok (.int (Int64.ofInt n)) := by
  rw [Expression.meaning, lefted, righted]
  simp only [bind, Except.bind, Heap.held, Cell.number, wraps]
  rfl

theorem meaning_expression (c : Calculation) :
    c.expression.meaning env heap = .ok (.int (Int64.ofInt c.exact)) := by
  induction c with
  | literal n => simp only [expression, Expression.meaning, exact, Int64.ofInt_toInt]
  | add left right lefted righted =>
    rw [expression, meaning_arith lefted righted rfl, exact]
    simp only [Int64.ofInt_add, Int64.ofInt_toInt]
  | sub left right lefted righted =>
    rw [expression, meaning_arith lefted righted rfl, exact]
    simp only [Int64.ofInt_sub, Int64.ofInt_toInt]
  | mul left right lefted righted =>
    rw [expression, meaning_arith lefted righted rfl, exact]
    simp only [Int64.ofInt_mul, Int64.ofInt_toInt]

end Calculation

/-- Sums, differences and products of any depth succeed, and their value is the exact one, reduced
modulo `2 ^ 64` to the signed numbers of 64 bits, however often that range is left on the way. -/
theorem Interpreter.evalExpr_calculation (interpreter : Interpreter) (c : Calculation) (extra : Nat) :
    ∃ n : Int64, interpreter.evalExpr ((c.expression.node : Node Slot).height + extra) c.expression.node =
        (.value (.int n), interpreter) ∧ n.toInt = c.exact.bmod (Nat.pow 2 64) := by
  refine ⟨Int64.ofInt c.exact, ?_, Int64.toInt_ofInt⟩
  rw [evalExpr, Eval.value_expression c.expression (Nat.le_add_right _ _), perform, Exec.reading,
    Calculation.meaning_expression]

/-- The square of the least number is zero, and taking one from the least number gives the greatest. -/
example :
    let least : Calculation := .literal Int64.minValue
    (Calculation.mul least least).exact.bmod (Nat.pow 2 64) = 0 ∧
    (Calculation.sub least (.literal 1)).exact.bmod (Nat.pow 2 64) = Int64.maxValue.toInt := by decide

end TreeLang
