import Mathlib.Data.List.Forall2
import TreeLang.Proofs.WrittenForm

/-! How the parts of a program may be spelt as JSON. There are two spellings of a structure, an
object and an array, and two of a value without parts, a string and an object with one member.
Whether a document spells a tree is said without the readers; what the readers do with single
values and with the fields of a structure is then said in these terms. -/
namespace TreeLang

open Json (Document Text isNumber)
open Json.Document (fields? field? kind? list? valuesAt ofText tagged)

/-! ### How parts of a tree are spelt -/

/-- An integer is spelt by its digits, with a minus sign in front if it is negative. -/
def Decimal.Denotes (spelling : List Char) (n : Int) : Prop :=
  ∃ digits, digits ≠ [] ∧ digits.all isDigit ∧
    (spelling = digits ∧ n = value digits ∨ spelling = '-' :: digits ∧ n = -value digits)

namespace Json.Document

/-- A number without fraction and exponent, and other than negative zero. -/
def IsWord (n : Int64) (document : Document) : Prop :=
  ∃ literal, document = .number literal ∧ literal ≠ "-0" ∧ Decimal.Denotes literal.toList n.toInt

/-- A value of a sum type without parts. -/
def IsKind (name : String) (document : Document) : Prop :=
  document = ofText name ∨ document = tagged name .null

/-- The member of a name: there is one and no other, or there is none. -/
def HasField (members : List (Text × Document)) (name : String) : Option Document → Prop
  | none => ∀ value, (some name, value) ∉ members
  | some value => ∃ front rest, members = front ++ (some name, value) :: rest ∧
      ∀ other, (some name, other) ∉ front ∧ (some name, other) ∉ rest

/-- The fields of a structure: all of them in order and nothing else, or members of an object in
any order and among others. -/
def Fields (names : List String) (values : List (Option Document)) : Document → Prop
  | .array elements => elements.length = names.length ∧ values = elements.map some
  | .object members =>
    (∀ member ∈ members, member.1.isSome) ∧ List.Forall₂ (HasField members) names values
  | _ => False

end Json.Document

open Json.Document (IsWord IsKind Fields)

variable {δ : Type}

mutual
/-- The documents that spell a declared type. -/
def TypeSpec.SpeltBy : TypeSpec δ → Document → Prop
  | .int, document => document.IsKind "Int"
  | .bool, document => document.IsKind "Bool"
  | .void, document => document.IsKind "Void"
  | .array element size, document =>
    ∃ parts first second, document = tagged "Array" parts ∧
      parts.Fields ["element", "size"] [some first, some second] ∧
      element.SpeltBy first ∧ size.SpeltBy second
termination_by structural spec => spec

def Declaration.SpeltBy : Declaration δ → Document → Prop
  | ⟨name, ty, _⟩, document =>
    ∃ second, document.Fields ["name", "ty"] [some (ofText name), some second] ∧ ty.SpeltBy second
termination_by structural declaration => declaration

/-- A node is spelt by its kind and its parts. -/
def Node.SpeltBy (node : Node δ) (document : Document) : Prop :=
  ∃ parts, document = tagged node.kind.name parts ∧ match node with
    | .int n => parts.IsWord n
    | .bool b => parts = .bool b
    | .var name => parts = ofText name
    | .index base position => ∃ first second,
      parts.Fields ["base", "index"] [some first, some second] ∧
      base.SpeltBy first ∧ position.SpeltBy second
    | .arith op left right => ∃ sign first second,
      parts.Fields ["op", "left", "right"] [some sign, some first, some second] ∧
      sign.IsKind op.text ∧ left.SpeltBy first ∧ right.SpeltBy second
    | .logic op left right => ∃ sign first second,
      parts.Fields ["op", "left", "right"] [some sign, some first, some second] ∧
      sign.IsKind op.text ∧ left.SpeltBy first ∧ right.SpeltBy second
    | .compare op left right => ∃ sign first second,
      parts.Fields ["op", "left", "right"] [some sign, some first, some second] ∧
      sign.IsKind op.text ∧ left.SpeltBy first ∧ right.SpeltBy second
    | .not operand => operand.SpeltBy parts
    | .assign target value => ∃ first second,
      parts.Fields ["target", "value"] [some first, some second] ∧
      target.SpeltBy first ∧ value.SpeltBy second
    | .call name args => ∃ elements,
      parts.Fields ["name", "args"] [some (ofText name), some (.array elements)] ∧
      Node.SpeltByAll args elements
    | .declare declaration => declaration.SpeltBy parts
    | .block body | .group body => ∃ elements, parts = .array elements ∧
      Node.SpeltByAll body elements
    | .branch condition yes no => ∃ first second third,
      parts.Fields ["cond", "then_branch", "else_branch"] [some first, some second, third] ∧
      condition.SpeltBy first ∧ yes.SpeltBy second ∧ Node.SpeltByOptional no third
    | .loop condition body => ∃ first second,
      parts.Fields ["cond", "body"] [some first, some second] ∧
      condition.SpeltBy first ∧ body.SpeltBy second
    | .ret value => Node.SpeltByOptional value (some parts)
termination_by structural node

/-- A node that may be missing or null. -/
def Node.SpeltByOptional : Option (Node δ) → Option Document → Prop
  | none, document => document = none ∨ document = some .null
  | some node, document => ∃ there, document = some there ∧ node.SpeltBy there
termination_by structural node => node

def Node.SpeltByAll : List (Node δ) → List Document → Prop
  | [], documents => documents = []
  | node :: rest, documents => ∃ first others, documents = first :: others ∧
    node.SpeltBy first ∧ Node.SpeltByAll rest others
termination_by structural nodes => nodes
end

def FunctionDef.SpeltBy (function : FunctionDef δ) (document : Document) : Prop :=
  ∃ params body returns,
    document.Fields ["name", "params", "body", "return_type"]
      [some (ofText function.name), some (.array params), some (.array body), some returns] ∧
    List.Forall₂ Declaration.SpeltBy function.params params ∧
    Node.SpeltByAll function.body body ∧ function.returns.SpeltBy returns

def Program.SpeltBy (program : Program δ) (document : Document) : Prop :=
  ∃ functions, document.Fields ["functions"] [some (.array functions)] ∧
    List.Forall₂ FunctionDef.SpeltBy program.functions functions

/-! ### Reading single values -/

namespace Decimal

theorem word?_eq_some_iff {k : Int} {n : Int64} : word? k = some n ↔ k = n.toInt := by
  constructor
  · intro read
    obtain ⟨⟨low, high⟩, same⟩ := Option.ite_none_right_eq_some.mp read
    cases same
    exact (Int64.toInt_ofInt_of_le low (Int.lt_add_one_of_le high)).symm
  · rintro rfl
    exact word?_toInt n

theorem natural?_eq_some_iff {spelling : List Char} {n : Nat} :
    natural? spelling = some n ↔ spelling ≠ [] ∧ spelling.all isDigit ∧ n = value spelling := by
  rw [natural?, Option.ite_none_right_eq_some, and_assoc, Option.some.injEq, eq_comm (a := n)]

theorem integer?_of_denotes {spelling : List Char} {k : Int} (denotes : Denotes spelling k) :
    integer? spelling = some k := by
  obtain ⟨digits, some, all, ⟨rfl, rfl⟩ | ⟨rfl, rfl⟩⟩ := denotes
  · rw [integer?_of_digits all, natural?_eq_some_iff.mpr ⟨some, all, rfl⟩]
    rfl
  · rw [integer?, natural?_eq_some_iff.mpr ⟨some, all, rfl⟩]
    rfl

/-- In a number of the grammar the sign is a minus or there is none. -/
theorem denotes_of_integer? {spelling : List Char} {k : Int} (number : isNumber spelling)
    (read : integer? spelling = some k) : Denotes spelling k := by
  unfold integer? at read
  split at read
  · contradiction
  · obtain ⟨n, digits, rfl⟩ := Option.map_eq_some_iff.mp read
    obtain ⟨some, all, rfl⟩ := natural?_eq_some_iff.mp digits
    exact ⟨_, some, all, .inr ⟨rfl, rfl⟩⟩
  · obtain ⟨n, digits, rfl⟩ := Option.map_eq_some_iff.mp read
    obtain ⟨some, all, rfl⟩ := natural?_eq_some_iff.mp digits
    exact ⟨_, some, all, .inl ⟨rfl, rfl⟩⟩

end Decimal

namespace Json.Document

variable {α β : Type} {document : Document} {members : List (Text × Document)} {name : String}
  {names : List String} {values : List (Option Document)} {limit : Nat}

theorem mem_valuesAt {value : Document} :
    value ∈ valuesAt name members ↔ (some name, value) ∈ members := by
  simp [valuesAt]

theorem valuesAt_eq_nil : valuesAt name members = [] ↔ HasField members name none := by
  simp [List.eq_nil_iff_forall_not_mem, mem_valuesAt, HasField]

theorem valuesAt_eq_singleton {value : Document} :
    valuesAt name members = [value] ↔ HasField members name (some value) := by
  constructor
  · intro one
    obtain ⟨⟨key, there⟩, only, rfl⟩ := List.map_eq_singleton_iff.mp one
    obtain ⟨front, rest, whole, before, named, after⟩ := List.filter_eq_cons_iff.mp only
    cases eq_of_beq named
    refine ⟨front, rest, whole, fun other => ⟨fun inFront => ?_, fun inRest => ?_⟩⟩
    · exact before _ inFront (beq_self_eq_true _)
    · exact List.filter_eq_nil_iff.mp after _ inRest (beq_self_eq_true _)
  · rintro ⟨front, rest, rfl, alone⟩
    have before : valuesAt name front = [] := valuesAt_eq_nil.mpr fun other => (alone other).1
    have after : valuesAt name rest = [] := valuesAt_eq_nil.mpr fun other => (alone other).2
    simp only [valuesAt] at before after
    simp [valuesAt, before, after]

theorem field?_eq_some_iff {value : Option Document} :
    field? members name = some value ↔ HasField members name value := by
  cases value with
  | none =>
    rw [← valuesAt_eq_nil, field?]
    split <;> simp_all
  | some value =>
    rw [← valuesAt_eq_singleton, field?]
    split <;> simp_all

theorem mapM_eq_some_iff {read? : α → Option β} {xs : List α} {ys : List β} :
    xs.mapM read? = some ys ↔ List.Forall₂ (fun x y => read? x = some y) xs ys := by
  induction xs generalizing ys with
  | nil => simp [eq_comm]
  | cons x xs ih =>
    simp only [List.mapM_cons, Option.bind_eq_bind, Option.bind_eq_some_iff, ih,
      List.forall₂_cons_left_iff, Option.pure_def, Option.some.injEq]
    simp only [eq_comm, exists_and_left]

theorem fields?_eq_some_iff :
    fields? names document = some values ↔ document.Fields names values := by
  cases document with
  | array elements =>
    rw [fields?, Fields, Option.ite_none_right_eq_some, Option.some.injEq, eq_comm (a := values)]
  | object members =>
    rw [fields?, Fields, Option.ite_none_right_eq_some, mapM_eq_some_iff, List.all_eq_true]
    simp only [field?_eq_some_iff]
  | null | bool | number | string => simp [fields?, Fields]

theorem kind?_eq_some_iff :
    kind? limit document = some name ↔ document.IsKind name ∧ document.depth ≤ limit := by
  constructor
  · intro read
    unfold kind? at read
    split at read
    · exact ⟨.inl (congrArg Document.string read), Nat.zero_le _⟩
    · subst read
      exact ⟨.inr rfl, Nat.le_add_left 1 _⟩
    · contradiction
  · rintro ⟨rfl | rfl, fits⟩
    · rfl
    · cases limit with
      | zero => exact absurd fits (Nat.not_succ_le_zero _)
      | succ limit => rfl

theorem text?_eq_some_iff {text : String} :
    document.text? = some text ↔ document = ofText text := by
  cases document <;> simp [text?, ofText]

theorem bool?_eq_some_iff {b : Bool} : document.bool? = some b ↔ document = .bool b := by
  cases document <;> simp [bool?]

theorem list?_eq_some_iff {read? : Document → Option α} {xs : List α} :
    list? read? document = some xs ↔ ∃ elements, document = .array elements ∧
      List.Forall₂ (fun element x => read? element = some x) elements xs := by
  cases document <;> simp [list?, mapM_eq_some_iff]

theorem IsWord.word?_eq {n : Int64} (spelt : document.IsWord n) : document.word? = some n := by
  obtain ⟨literal, rfl, signed, denotes⟩ := spelt
  rw [word?, if_neg signed, Decimal.readWord?, Decimal.integer?_of_denotes denotes]
  exact Decimal.word?_toInt n

theorem isWord_of_word? {n : Int64} (numeric : document.Numeric) (read : document.word? = some n) :
    document.IsWord n := by
  cases document with
  | number literal =>
    obtain ⟨signed, read⟩ := Option.ite_none_left_eq_some.mp read
    obtain ⟨k, integer, word⟩ := Option.bind_eq_some_iff.mp read
    cases Decimal.word?_eq_some_iff.mp word
    exact ⟨literal, rfl, signed, Decimal.denotes_of_integer? numeric integer⟩
  | null | bool | string | array | object => contradiction

/-! ### Parts of a document -/

theorem depth_le_depths {elements : List Document} (there : document ∈ elements) :
    document.depth ≤ depths elements := by
  induction there with
  | head => exact Nat.le_max_left _ _
  | tail _ _ ih => exact ih.trans (Nat.le_max_right _ _)

theorem depth_le_memberDepths {key : Text} (there : (key, document) ∈ members) :
    document.depth ≤ memberDepths members := by
  induction members with
  | nil => contradiction
  | cons member others ih =>
    rcases List.mem_cons.mp there with rfl | there
    · exact Nat.le_max_left _ _
    · exact (ih there).trans (Nat.le_max_right _ _)

theorem exists_of_mem {R : α → β → Prop} {xs : List α} {ys : List β} {y : β}
    (related : List.Forall₂ R xs ys) (there : y ∈ ys) : ∃ x, R x y := by
  induction related with
  | nil => contradiction
  | cons head tail ih =>
    rcases List.mem_cons.mp there with rfl | there
    · exact ⟨_, head⟩
    · exact ih there

namespace Fields

variable {whole : Document} (fields : whole.Fields names values)
include fields

/-- A field is an element of an array or a member of an object. -/
theorem part (there : some document ∈ values) :
    (∃ elements, whole = .array elements ∧ document ∈ elements) ∨
      ∃ members key, whole = .object members ∧ (key, document) ∈ members := by
  cases whole with
  | array elements =>
    rw [fields.2] at there
    exact .inl ⟨elements, rfl, by simpa using there⟩
  | object members =>
    obtain ⟨name, front, rest, rfl, -⟩ := exists_of_mem fields.2 there
    exact .inr ⟨_, name, rfl, by simp⟩
  | null | bool | number | string => exact fields.elim

theorem depth_lt (there : some document ∈ values) : document.depth < whole.depth := by
  rcases fields.part there with ⟨elements, rfl, inside⟩ | ⟨members, key, rfl, inside⟩
  · exact Nat.lt_succ_of_le (depth_le_depths inside)
  · exact Nat.lt_succ_of_le (depth_le_memberDepths inside)

/-- The fields are one level further in. -/
theorem opened (fits : whole.depth ≤ limit) :
    ∃ n, limit = n + 1 ∧ ∀ document, some document ∈ values → document.depth ≤ n := by
  have opens : 0 < whole.depth := by
    cases whole with
    | array | object => exact Nat.succ_pos _
    | null | bool | number | string => exact fields.elim
  refine ⟨limit - 1, by omega, fun document there => ?_⟩
  have deeper := fields.depth_lt there
  omega

theorem numeric (there : some document ∈ values) (numeric : whole.Numeric) : document.Numeric := by
  rcases fields.part there with ⟨elements, rfl, inside⟩ | ⟨members, key, rfl, inside⟩
  · exact numericElements_iff.mp numeric _ inside
  · exact numericMembers_iff.mp numeric _ inside

end Fields

end Json.Document

/-! ### Structures -/

namespace Json.Document

variable {α β γ ζ : Type} {document : Document} {names : List String}

theorem fields_of_bind {next : List (Option Document) → Option α} {value : α}
    (read : (fields? names document >>= next) = some value) :
    ∃ values, document.Fields names values ∧ next values = some value := by
  obtain ⟨values, fields, read⟩ := Option.bind_eq_some_iff.mp read
  exact ⟨values, fields?_eq_some_iff.mp fields, read⟩

theorem bind_of_fields {values : List (Option Document)} (fields : document.Fields names values)
    (next : List (Option Document) → Option α) :
    (fields? names document >>= next) = next values := by
  rw [fields?_eq_some_iff.mpr fields]
  rfl

theorem read_pair_iff {first? : Document → Option α} {second? : Document → Option β}
    (build : α → β → γ) {value : γ} :
    (do
      let [some first, some second] ← fields? names document | none
      return build (← first? first) (← second? second)) = some value ↔
    ∃ first second x y, document.Fields names [some first, some second] ∧
      first? first = some x ∧ second? second = some y ∧ build x y = value := by
  constructor
  · intro read
    obtain ⟨values, fields, read⟩ := fields_of_bind read
    split at read
    · simp only [Option.bind_eq_bind, Option.bind_eq_some_iff, Option.pure_def,
        Option.some.injEq] at read
      obtain ⟨x, first, y, second, same⟩ := read
      exact ⟨_, _, x, y, fields, first, second, same⟩
    · contradiction
  · rintro ⟨first, second, x, y, fields, here, there, rfl⟩
    rw [fields?_eq_some_iff.mpr fields]
    simp [here, there]

theorem read_triple_iff {first? : Document → Option α} {second? : Document → Option β}
    {third? : Document → Option γ} {build : α → β → γ → ζ} {value : ζ} :
    (do
      let [some first, some second, some third] ← fields? names document | none
      return build (← first? first) (← second? second) (← third? third)) = some value ↔
    ∃ first second third x y z,
      document.Fields names [some first, some second, some third] ∧ first? first = some x ∧
      second? second = some y ∧ third? third = some z ∧ build x y z = value := by
  constructor
  · intro read
    obtain ⟨values, fields, read⟩ := fields_of_bind read
    split at read
    · simp only [Option.bind_eq_bind, Option.bind_eq_some_iff, Option.pure_def,
        Option.some.injEq] at read
      obtain ⟨x, first, y, second, z, third, same⟩ := read
      exact ⟨_, _, _, x, y, z, fields, first, second, third, same⟩
    · contradiction
  · rintro ⟨first, second, third, x, y, z, fields, here, there, last, rfl⟩
    rw [fields?_eq_some_iff.mpr fields]
    simp [here, there, last]

/-- A record whose last field may be missing. -/
theorem read_optional_iff {first? : Document → Option α} {second? : Document → Option β}
    {third? : Option Document → Option γ} {build : α → β → γ → ζ} {value : ζ} :
    (do
      let [some first, some second, third] ← fields? names document | none
      return build (← first? first) (← second? second) (← third? third)) = some value ↔
    ∃ first second third x y z,
      document.Fields names [some first, some second, third] ∧ first? first = some x ∧
      second? second = some y ∧ third? third = some z ∧ build x y z = value := by
  constructor
  · intro read
    obtain ⟨values, fields, read⟩ := fields_of_bind read
    split at read
    · simp only [Option.bind_eq_bind, Option.bind_eq_some_iff, Option.pure_def,
        Option.some.injEq] at read
      obtain ⟨x, first, y, second, z, third, same⟩ := read
      exact ⟨_, _, _, x, y, z, fields, first, second, third, same⟩
    · contradiction
  · rintro ⟨first, second, third, x, y, z, fields, here, there, last, rfl⟩
    rw [fields?_eq_some_iff.mpr fields]
    simp [here, there, last]

end Json.Document

end TreeLang
