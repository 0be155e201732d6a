import TreeLang.Form.Reader
import TreeLang.Form.Writer
import TreeLang.Proofs.JsonText
import TreeLang.Proofs.Numerals
import TreeLang.Proofs.Visiting

/-! Programs read back from their written form. The reader gives back every tree that was
written, without what its declarations carried, as long as the arrays and objects of the
written form nest within the limit, and refuses the others. -/
namespace TreeLang

open Json (Document)
open Json.Document (kind? list? optional? ofText ofWord)

/-! ### Reading within a limit -/

namespace Json.Document

/-- The value, if arrays and objects may nest so deep. -/
def within {α : Type} (depth limit : Nat) (value : α) : Option α :=
  if depth ≤ limit then some value else none

section Within

variable {α β γ : Type} {d e n : Nat} {a : α} {b : β} {x : Option α} {y : Option β}

theorem some_within : some a = within 0 n a := (if_pos (Nat.zero_le n)).symm

theorem within_succ : within (d + 1) (n + 1) a = within d n a := by
  simp [within]

theorem map_within (f : α → β) (first : x = within d n a) : x.map f = within d n (f a) := by
  subst first
  unfold within
  split <;> rfl

/-- What is read in two steps nests as deep as the deeper of them. -/
theorem bind_within {f : α → Option β} (first : x = within d n a) (next : f a = within e n b) :
    x >>= f = within (max d e) n b := by
  subst first
  by_cases fits : d ≤ n
  · simp only [within, fits, Nat.max_le, true_and] at next ⊢
    exact next
  · have exceeds : ¬ max d e ≤ n := by omega
    simp [within, fits, exceeds]

theorem pair_within {f : α → β → γ} (first : x = within d n a) (second : y = within e n b) :
    (do return f (← x) (← y)) = within (max d (max e 0)) n (f a b) :=
  bind_within first (bind_within second some_within)

/-- Opening an array or an object uses up one level. -/
theorem opened_within {read? : Nat → Option α} (shut : read? 0 = none)
    (opened : ∀ n, read? (n + 1) = within d n a) : ∀ n, read? n = within (d + 1) n a
  | 0 => shut
  | n + 1 => by rw [opened, within_succ]

end Within

section Yields

variable {α : Type} {read? : Nat → Document → Option α} {document : Document}
  {documents : List Document} {value : α} {values : List α}

/-- The reader finds the value in the document whenever arrays and objects may nest as deep
as they do there, and nothing otherwise. -/
def Yields (document : Document) (read? : Nat → Document → Option α) (value : α) : Prop :=
  ∀ limit, read? limit document = within document.depth limit value

/-- The same for the elements of an array. -/
def YieldsAll (documents : List Document) (read? : Nat → Document → Option α)
    (values : List α) : Prop :=
  ∀ limit, list? (read? limit) (.array documents) = within (depths documents) limit values

theorem Yields.tagged {kind : String} (shut : read? 0 (tagged kind document) = none)
    (opened : ∀ n, read? (n + 1) (Document.tagged kind document) = within document.depth n value) :
    (Document.tagged kind document).Yields read? value := by
  have deep : (Document.tagged kind document).depth = document.depth + 1 :=
    congrArg (· + 1) (Nat.max_zero document.depth)
  rw [Yields, deep]
  exact opened_within shut opened

theorem YieldsAll.nil : YieldsAll [] read? [] := fun _ => rfl

theorem YieldsAll.cons (first : document.Yields read? value)
    (rest : YieldsAll documents read? values) :
    YieldsAll (document :: documents) read? (value :: values) := by
  intro limit
  rw [list?, List.mapM_cons]
  apply bind_within (first limit)
  rw [bind_pure_comp]
  exact map_within (value :: ·) (rest limit)

/-- The array around the elements is one level more. -/
theorem YieldsAll.array (elements : YieldsAll documents read? values) (n : Nat) :
    list? (read? n) (.array documents) = within (Document.array documents).depth (n + 1) values :=
  (elements n).trans within_succ.symm

theorem YieldsAll.map {β : Type} {write : β → Document} {keep : β → α} (items : List β)
    (each : ∀ item, (write item).Yields read? (keep item)) :
    YieldsAll (items.map write) read? (items.map keep) := by
  induction items with
  | nil => exact .nil
  | cons item others rec => exact .cons (each item) rec

end Yields

theorem word?_ofWord (n : Int64) : (ofWord n).word? = some n := by
  have signed : Decimal.wordText n ≠ "-0" := Decimal.text_ne_negative_zero n.toInt
  rw [ofWord, word?, if_neg signed, Decimal.readWord?_wordText]

end Json.Document

open Json.Document

variable {δ : Type}

/-- A written node is not null. -/
theorem Node.optional?_toDocument {α : Type} (node : Node δ) (read? : Document → Option α) :
    optional? read? (some node.toDocument) = (read? node.toDocument).map some := by
  cases node <;> rfl

mutual
theorem TypeSpec.toDocument_yields : ∀ spec : TypeSpec δ,
    spec.toDocument.Yields TypeSpec.ofDocument? (spec.map fun _ => ())
  | .int | .bool | .void => fun | 0 | 1 | _ + 2 => rfl
  | .array element size => by
    apply opened_within rfl
    apply opened_within rfl
    intro n
    show (do
      return TypeSpec.array (← TypeSpec.ofDocument? n element.toDocument)
        (← Node.ofDocument? n size.toDocument)) = _
    exact pair_within (element.toDocument_yields n) (size.toDocument_yields n)
termination_by structural spec => spec

theorem Declaration.toDocument_yields : ∀ declaration : Declaration δ,
    declaration.toDocument.Yields Declaration.ofDocument? (declaration.map fun _ => ())
  | ⟨name, ty, _⟩ => by
    apply opened_within rfl
    intro n
    show (do
      return Declaration.mk (← some name) (← TypeSpec.ofDocument? n ty.toDocument) ()) = _
    exact pair_within some_within (ty.toDocument_yields n)
termination_by structural declaration => declaration

theorem Node.toDocument_yields : ∀ node : Node δ,
    node.toDocument.Yields Node.ofDocument? (node.map fun _ => ())
  | .int value => by
    apply Yields.tagged rfl
    intro n
    exact map_within Node.int ((word?_ofWord value).trans some_within)
  | .bool _ | .var _ => by
    apply Yields.tagged rfl
    intro n
    rfl
  | .index base position => by
    apply Yields.tagged rfl
    apply opened_within rfl
    intro n
    -- The tag and the record are open, and the reader comes down to the fields.
    show (do
      return Node.index (← Node.ofDocument? n base.toDocument)
        (← Node.ofDocument? n position.toDocument)) = _
    exact pair_within (base.toDocument_yields n) (position.toDocument_yields n)
  | .arith op left right => by
    apply Yields.tagged rfl
    apply opened_within rfl
    intro n
    show (do
      return Node.arith (← ArithOp.ofText? op.text) (← Node.ofDocument? n left.toDocument)
        (← Node.ofDocument? n right.toDocument)) = _
    rw [op.ofText?_text]
    exact bind_within some_within
      (pair_within (left.toDocument_yields n) (right.toDocument_yields n))
  | .logic op left right => by
    apply Yields.tagged rfl
    apply opened_within rfl
    intro n
    show (do
      return Node.logic (← LogicOp.ofText? op.text) (← Node.ofDocument? n left.toDocument)
        (← Node.ofDocument? n right.toDocument)) = _
    rw [op.ofText?_text]
    exact bind_within some_within
      (pair_within (left.toDocument_yields n) (right.toDocument_yields n))
  | .compare op left right => by
    apply Yields.tagged rfl
    apply opened_within rfl
    intro n
    show (do
      return Node.compare (← CmpOp.ofText? op.text) (← Node.ofDocument? n left.toDocument)
        (← Node.ofDocument? n right.toDocument)) = _
    rw [op.ofText?_text]
    exact bind_within some_within
      (pair_within (left.toDocument_yields n) (right.toDocument_yields n))
  | .not operand => by
    apply Yields.tagged rfl
    intro n
    exact map_within Node.not (operand.toDocument_yields n)
  | .assign target value => by
    apply Yields.tagged rfl
    apply opened_within rfl
    intro n
    show (do
      return Node.assign (← Node.ofDocument? n target.toDocument)
        (← Node.ofDocument? n value.toDocument)) = _
    exact pair_within (target.toDocument_yields n) (value.toDocument_yields n)
  | .call name args => by
    apply Yields.tagged rfl
    apply opened_within rfl
    intro n
    cases n with
    | zero => rfl
    | succ n =>
      show (do
        return Node.call (← some name)
          (← list? (Node.ofDocument? n) (.array (Node.toDocuments args)))) = _
      exact pair_within some_within ((Node.toDocuments_yields args).array n)
  | .declare declaration => by
    apply Yields.tagged rfl
    intro n
    exact map_within Node.declare (declaration.toDocument_yields n)
  | .block body => by
    apply Yields.tagged rfl
    apply opened_within rfl
    intro n
    exact map_within Node.block (Node.toDocuments_yields body n)
  | .group body => by
    apply Yields.tagged rfl
    apply opened_within rfl
    intro n
    exact map_within Node.group (Node.toDocuments_yields body n)
  | .branch condition yes no => by
    apply Yields.tagged rfl
    apply opened_within rfl
    intro n
    show (do
      return Node.branch (← Node.ofDocument? n condition.toDocument)
        (← Node.ofDocument? n yes.toDocument)
        (← optional? (Node.ofDocument? n) (some (Node.toOptional no)))) = _
    exact bind_within (condition.toDocument_yields n)
      (pair_within (yes.toDocument_yields n) (Node.toOptional_yields no n))
  | .loop condition body => by
    apply Yields.tagged rfl
    apply opened_within rfl
    intro n
    show (do
      return Node.loop (← Node.ofDocument? n condition.toDocument)
        (← Node.ofDocument? n body.toDocument)) = _
    exact pair_within (condition.toDocument_yields n) (body.toDocument_yields n)
  | .ret value => by
    apply Yields.tagged rfl
    intro n
    exact map_within Node.ret (Node.toOptional_yields value n)
termination_by structural node => node

theorem Node.toOptional_yields : ∀ (node : Option (Node δ)) (limit : Nat),
    optional? (Node.ofDocument? limit) (some (Node.toOptional node)) =
      within (Node.toOptional node).depth limit
        (Id.run (Node.traverseOptional (fun _ => pure ()) node))
  | none, _ => rfl
  | some node, limit =>
    (node.optional?_toDocument (Node.ofDocument? limit)).trans
      (map_within some (node.toDocument_yields limit))
termination_by structural node => node

theorem Node.toDocuments_yields : ∀ nodes : List (Node δ),
    YieldsAll (Node.toDocuments nodes) Node.ofDocument?
      (Id.run (Node.traverseAll (fun _ => pure ()) nodes))
  | [] => .nil
  | node :: rest => .cons node.toDocument_yields (Node.toDocuments_yields rest)
termination_by structural nodes => nodes
end

theorem FunctionDef.toDocument_yields (function : FunctionDef δ) :
    function.toDocument.Yields FunctionDef.ofDocument? (function.map fun _ => ()) := by
  obtain ⟨name, params, body, returns⟩ := function
  have read := YieldsAll.map params Declaration.toDocument_yields
  apply opened_within rfl
  intro n
  cases n with
  -- The lists of parameters and statements are a second level even where they are empty.
  | zero => exact (if_neg (by simp [memberDepths, depth])).symm
  | succ n =>
    rw [FunctionDef.map_eq, ← Node.traverseAll_pure]
    show (do
      return FunctionDef.mk (← some name)
        (← list? (Declaration.ofDocument? n) (.array (params.map Declaration.toDocument)))
        (← list? (Node.ofDocument? n) (.array (Node.toDocuments body)))
        (← TypeSpec.ofDocument? (n + 1) returns.toDocument)) = _
    exact bind_within some_within (bind_within (read.array n)
      (pair_within ((Node.toDocuments_yields body).array n) (returns.toDocument_yields (n + 1))))

theorem Program.toDocument_yields (program : Program δ) :
    program.toDocument.Yields Program.ofDocument? (program.map fun _ => ()) := by
  obtain ⟨functions⟩ := program
  have read := YieldsAll.map functions FunctionDef.toDocument_yields
  apply opened_within rfl
  intro n
  cases n with
  | zero => rfl
  | succ n =>
    rw [Program.map_eq]
    show (do
      return Program.mk
        (← list? (FunctionDef.ofDocument? n) (.array (functions.map FunctionDef.toDocument)))) = _
    exact bind_within (read.array n) some_within

/-! ### Numbers of the written form -/

theorem Json.Document.ofWord_numeric (n : Int64) : (ofWord n).Numeric := Json.isNumber_text n.toInt

mutual
theorem TypeSpec.toDocument_numeric : ∀ spec : TypeSpec δ, spec.toDocument.Numeric
  | .int | .bool | .void => trivial
  | .array element size =>
    ⟨⟨element.toDocument_numeric, size.toDocument_numeric, trivial⟩, trivial⟩
termination_by structural spec => spec

theorem Declaration.toDocument_numeric : ∀ declaration : Declaration δ,
    declaration.toDocument.Numeric
  | ⟨_, ty, _⟩ => ⟨trivial, ty.toDocument_numeric, trivial⟩
termination_by structural declaration => declaration

theorem Node.toDocument_numeric : ∀ node : Node δ, node.toDocument.Numeric
  | .int n => ⟨ofWord_numeric n, trivial⟩
  | .bool _ | .var _ => ⟨trivial, trivial⟩
  | .index base position =>
    ⟨⟨base.toDocument_numeric, position.toDocument_numeric, trivial⟩, trivial⟩
  | .arith _ left right | .logic _ left right | .compare _ left right =>
    ⟨⟨trivial, left.toDocument_numeric, right.toDocument_numeric, trivial⟩, trivial⟩
  | .not operand => ⟨operand.toDocument_numeric, trivial⟩
  | .assign target value =>
    ⟨⟨target.toDocument_numeric, value.toDocument_numeric, trivial⟩, trivial⟩
  | .call _ args => ⟨⟨trivial, Node.toDocuments_numeric args, trivial⟩, trivial⟩
  | .declare declaration => ⟨declaration.toDocument_numeric, trivial⟩
  | .block body | .group body => ⟨Node.toDocuments_numeric body, trivial⟩
  | .branch condition yes no =>
    ⟨⟨condition.toDocument_numeric, yes.toDocument_numeric, Node.toOptional_numeric no, trivial⟩,
      trivial⟩
  | .loop condition body =>
    ⟨⟨condition.toDocument_numeric, body.toDocument_numeric, trivial⟩, trivial⟩
  | .ret value => ⟨Node.toOptional_numeric value, trivial⟩
termination_by structural node => node

theorem Node.toOptional_numeric : ∀ node : Option (Node δ), (Node.toOptional node).Numeric
  | none => trivial
  | some node => node.toDocument_numeric
termination_by structural node => node

theorem Node.toDocuments_numeric : ∀ nodes : List (Node δ), NumericElements (Node.toDocuments nodes)
  | [] => trivial
  | node :: rest => ⟨node.toDocument_numeric, Node.toDocuments_numeric rest⟩
termination_by structural nodes => nodes
end

theorem Json.Document.numericElements_map {β : Type} {write : β → Document} (items : List β)
    (each : ∀ item, (write item).Numeric) : NumericElements (items.map write) :=
  numericElements_iff.mpr (List.forall_mem_map.mpr fun item _ => each item)

theorem FunctionDef.toDocument_numeric (function : FunctionDef δ) : function.toDocument.Numeric :=
  ⟨trivial, numericElements_map function.params Declaration.toDocument_numeric,
    Node.toDocuments_numeric function.body, function.returns.toDocument_numeric, trivial⟩

theorem Program.toDocument_numeric (program : Program δ) : program.toDocument.Numeric :=
  ⟨numericElements_map program.functions FunctionDef.toDocument_numeric, trivial⟩

/-! ### Programs as text -/

theorem Program.read?_of_document {program : Program δ} {text : String}
    (document : Document.read? text = some program.toDocument) :
    Program.read? text =
      if program.toDocument.depth ≤ nestingLimit then some (program.map fun _ => ()) else none := by
  rw [Program.read?, document, Option.bind_some]
  exact program.toDocument_yields nestingLimit

/-- The text of a program, laid out or compact, is loaded exactly if its arrays and objects
nest at most 127 deep, and then gives the program with nothing left in its declarations. -/
theorem Program.text_round_trip (program : Program δ) :
    let document := program.toDocument
    let loaded := if document.depth ≤ 127 then some (program.map fun _ => ()) else none
    (Document.read? document.pretty = some document ∧ Program.read? document.pretty = loaded) ∧
      (Document.read? document.compact = some document ∧
        Program.read? document.compact = loaded) := by
  have pretty := read?_pretty program.toDocument_numeric
  have compact := read?_compact program.toDocument_numeric
  exact ⟨⟨pretty, Program.read?_of_document pretty⟩, ⟨compact, Program.read?_of_document compact⟩⟩

/-- A hundred and twenty-two negations reach the limit. -/
example :
    let negated := (List.replicate 122 ()).foldl (fun node _ => Node.not node) (.bool true)
    (Program.mk (δ := Unit) [⟨"main", [], [negated], .void⟩]).toDocument.depth = 127 := by
  decide +kernel

end TreeLang
