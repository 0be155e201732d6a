import TreeLang.Proofs.Spelling

/-! Loading a program from text. What the readers accept is spelt by the document, and what is spelt
is accepted if arrays and objects do not nest too deep. Of all spellings of a program none nests
less deep than its written form, so the written form of what was loaded can be loaded again. -/
namespace TreeLang

open Json (Document)
open Json.Document (fields? kind? list? optional? ofText record tagged)

variable {δ : Type}

/-! ### What is read is spelt -/

namespace Json.Document

variable {α : Type} {read? : Document → Option α} {spelt : α → Document → Prop}
  {write : α → Document} {document : Document} {limit : Nat}

/-- What is read from a document is spelt by it, and its written form nests within the limit. -/
def Sound (read? : Document → Option α) (spelt : α → Document → Prop) (write : α → Document)
    (limit : Nat) : Prop :=
  ∀ {document value}, document.Numeric → read? document = some value →
    spelt value document ∧ (write value).depth ≤ limit

theorem Sound.list {values : List α} (sound : Sound read? spelt write limit)
    (numeric : document.Numeric) (read : list? read? document = some values) :
    ∃ elements, document = .array elements ∧ List.Forall₂ spelt values elements ∧
      depths (values.map write) ≤ limit := by
  obtain ⟨elements, rfl, each⟩ := list?_eq_some_iff.mp read
  refine ⟨elements, rfl, ?_⟩
  clear read
  induction each with
  | nil => exact ⟨.nil, Nat.zero_le _⟩
  | cons head tail ih =>
    obtain ⟨first, fits⟩ := sound numeric.1 head
    obtain ⟨others, fit⟩ := ih numeric.2
    exact ⟨.cons first others, Nat.max_le.mpr ⟨fits, fit⟩⟩

/-- A record is one level around its fields, and its tag another. -/
theorem record_fits {fields : List (String × Document)}
    (fits : ∀ field ∈ fields, field.2.depth ≤ limit) : (record fields).depth ≤ limit + 1 := by
  refine Nat.succ_le_succ ?_
  induction fields with
  | nil => exact Nat.zero_le _
  | cons field others ih =>
    obtain ⟨first, rest⟩ := List.forall_mem_cons.mp fits
    exact Nat.max_le.mpr ⟨first, ih rest⟩

theorem tagged_fits {kind : String} (fits : document.depth ≤ limit) :
    (tagged kind document).depth ≤ limit + 1 :=
  Nat.succ_le_succ (Nat.max_le.mpr ⟨fits, Nat.zero_le _⟩)

end Json.Document

open Json.Document

/-- What is found by its name has that name. -/
theorem name_of_find? {α : Type} {nameOf : α → String} {items : List α} {name : String} {item : α}
    (found : items.find? (fun item => nameOf item == name) = some item) : name = nameOf item := by
  have same := List.find?_some found
  exact (eq_of_beq same).symm

theorem Kind.name_of_ofName? {name : String} {kind : Kind} (found : Kind.ofName? name = some kind) :
    name = kind.name :=
  name_of_find? found

theorem ArithOp.text_of_ofText? {text : String} {op : ArithOp} (found : ofText? text = some op) :
    text = op.text :=
  name_of_find? found

theorem LogicOp.text_of_ofText? {text : String} {op : LogicOp} (found : ofText? text = some op) :
    text = op.text :=
  name_of_find? found

theorem CmpOp.text_of_ofText? {text : String} {op : CmpOp} (found : ofText? text = some op) :
    text = op.text :=
  name_of_find? found

theorem Node.speltByAll_iff {nodes : List (Node δ)} {documents : List Document} :
    Node.SpeltByAll nodes documents ↔ List.Forall₂ Node.SpeltBy nodes documents := by
  induction nodes generalizing documents with
  | nil => simp [Node.SpeltByAll]
  | cons node rest ih =>
    simp only [Node.SpeltByAll, List.forall₂_cons_left_iff, ih]
    grind

theorem Node.toDocuments_eq_map (nodes : List (Node δ)) :
    Node.toDocuments nodes = nodes.map Node.toDocument := by
  induction nodes with
  | nil => rfl
  | cons node rest ih => rw [Node.toDocuments, ih, List.map_cons]

theorem Node.ofDocument?_shape {limit : Nat} {document : Document} {node : Node Unit}
    (read : Node.ofDocument? limit document = some node) :
    ∃ n kind parts, limit = n + 1 ∧ document = tagged (Kind.name kind) parts := by
  unfold Node.ofDocument? at read
  split at read
  next n name parts =>
    cases found : Kind.ofName? name with
    | none => simp only [found, reduceCtorEq] at read
    | some kind =>
      cases Kind.name_of_ofName? found
      exact ⟨n, kind, parts, rfl, rfl⟩
  · contradiction

theorem Node.optional?_sound {limit : Nat} {there : Option Document} {value : Option (Node Unit)}
    (sound : Sound (Node.ofDocument? limit) Node.SpeltBy Node.toDocument limit)
    (numeric : ∀ document, there = some document → document.Numeric)
    (read : optional? (Node.ofDocument? limit) there = some value) :
    Node.SpeltByOptional value there ∧ (Node.toOptional value).depth ≤ limit := by
  unfold optional? at read
  split at read
  · cases read
    exact ⟨.inl rfl, Nat.zero_le _⟩
  · cases read
    exact ⟨.inr rfl, Nat.zero_le _⟩
  · obtain ⟨node, inner, rfl⟩ := Option.map_eq_some_iff.mp read
    obtain ⟨spelt, fits⟩ := sound (numeric _ rfl) inner
    exact ⟨⟨_, rfl, spelt⟩, fits⟩

theorem Node.list?_sound {limit : Nat} {document : Document} {nodes : List (Node Unit)}
    (sound : Sound (Node.ofDocument? limit) Node.SpeltBy Node.toDocument limit)
    (numeric : document.Numeric) (read : list? (Node.ofDocument? limit) document = some nodes) :
    ∃ elements, document = .array elements ∧ Node.SpeltByAll nodes elements ∧
      (Document.array (Node.toDocuments nodes)).depth ≤ limit + 1 := by
  obtain ⟨elements, rfl, spelt, fits⟩ := sound.list numeric read
  rw [← Node.toDocuments_eq_map] at fits
  exact ⟨elements, rfl, Node.speltByAll_iff.mpr spelt, Nat.succ_le_succ fits⟩

/-- Two nodes in a record. -/
theorem Node.pair_sound {limit : Nat} {document : Document} {names : List String}
    {build : Node Unit → Node Unit → Node Unit} {node : Node Unit}
    (sound : Sound (Node.ofDocument? limit) Node.SpeltBy Node.toDocument limit)
    (numeric : document.Numeric) (read : (do
      let [some first, some second] ← fields? names document | none
      return build (← Node.ofDocument? limit first) (← Node.ofDocument? limit second)) =
        some node) :
    ∃ first second left right, document.Fields names [some first, some second] ∧
      left.SpeltBy first ∧ right.SpeltBy second ∧
      left.toDocument.depth ≤ limit ∧ right.toDocument.depth ≤ limit ∧ build left right = node := by
  obtain ⟨first, second, left, right, fields, here, there, same⟩ := (read_pair_iff _).mp read
  obtain ⟨here, fits⟩ := sound (fields.numeric (by simp) numeric) here
  obtain ⟨there, fit⟩ := sound (fields.numeric (by simp) numeric) there
  exact ⟨first, second, left, right, fields, here, there, fits, fit, same⟩

/-- An operator and its operands in a record. -/
theorem Node.operation_sound {α : Type} {limit : Nat} {document : Document} {names : List String}
    {ofText? : String → Option α} {text : α → String}
    {build : α → Node Unit → Node Unit → Node Unit} {node : Node Unit}
    (sound : Sound (Node.ofDocument? limit) Node.SpeltBy Node.toDocument limit)
    (inverse : ∀ {spelling op}, ofText? spelling = some op → spelling = text op)
    (numeric : document.Numeric) (read : (do
      let [some sign, some first, some second] ← fields? names document | none
      return build (← (kind? limit sign).bind ofText?) (← Node.ofDocument? limit first)
        (← Node.ofDocument? limit second)) = some node) :
    ∃ sign first second op left right,
      document.Fields names [some sign, some first, some second] ∧ sign.IsKind (text op) ∧
      left.SpeltBy first ∧ right.SpeltBy second ∧
      left.toDocument.depth ≤ limit ∧ right.toDocument.depth ≤ limit ∧
      build op left right = node := by
  obtain ⟨sign, first, second, op, left, right, fields, signed, here, there, same⟩ :=
    read_triple_iff.mp read
  obtain ⟨spelling, kind, found⟩ := Option.bind_eq_some_iff.mp signed
  cases inverse found
  obtain ⟨here, fits⟩ := sound (fields.numeric (by simp) numeric) here
  obtain ⟨there, fit⟩ := sound (fields.numeric (by simp) numeric) there
  exact ⟨sign, first, second, op, left, right, fields, (kind?_eq_some_iff.mp kind).1, here, there,
    fits, fit, same⟩

/-- Every reader is sound at a limit. -/
structure ReadersSound (limit : Nat) : Prop where
  typeSpec : Sound (TypeSpec.ofDocument? limit) TypeSpec.SpeltBy TypeSpec.toDocument limit
  declaration :
    Sound (Declaration.ofDocument? limit) Declaration.SpeltBy Declaration.toDocument limit
  node : Sound (Node.ofDocument? limit) Node.SpeltBy Node.toDocument limit

section Step

variable {limit : Nat} (below : ∀ n < limit, ReadersSound n)
include below

theorem TypeSpec.ofDocument?_sound :
    Sound (TypeSpec.ofDocument? limit) TypeSpec.SpeltBy TypeSpec.toDocument limit := by
  intro document spec numeric read
  unfold TypeSpec.ofDocument? at read
  split at read
  next n parts =>
    obtain ⟨element, size, x, y, fields, first, second, rfl⟩ := (read_pair_iff _).mp read
    have first := (below n (by omega)).typeSpec (fields.numeric (by simp) numeric.1) first
    have second := (below n (by omega)).node (fields.numeric (by simp) numeric.1) second
    refine ⟨⟨parts, element, size, rfl, fields, first.1, second.1⟩, ?_⟩
    exact tagged_fits (record_fits (by simp [first.2, second.2]))
  next =>
    split at read
    all_goals first | contradiction | cases read
    all_goals exact ⟨(kind?_eq_some_iff.mp ‹_›).1, Nat.zero_le _⟩

theorem Declaration.ofDocument?_sound :
    Sound (Declaration.ofDocument? limit) Declaration.SpeltBy Declaration.toDocument limit := by
  intro document declaration numeric read
  cases limit with
  | zero => contradiction
  | succ n =>
    obtain ⟨name, ty, x, y, fields, first, second, rfl⟩ :=
      (read_pair_iff fun name ty => Declaration.mk name ty ()).mp read
    have second := (below n (by omega)).typeSpec (fields.numeric (by simp) numeric) second
    cases text?_eq_some_iff.mp first
    refine ⟨⟨ty, fields, second.1⟩, ?_⟩
    exact record_fits (by simp [ofText, depth, second.2])

theorem Node.ofDocument?_sound :
    Sound (Node.ofDocument? limit) Node.SpeltBy Node.toDocument limit := by
  intro document node numeric read
  obtain ⟨n, kind, parts, rfl, rfl⟩ := Node.ofDocument?_shape read
  -- The tag takes one level. Where the parts are a record or a list, they take another.
  cases kind with
  | int =>
    obtain ⟨value, word, rfl⟩ := Option.map_eq_some_iff.mp read
    exact ⟨⟨parts, rfl, isWord_of_word? numeric.1 word⟩, tagged_fits (Nat.zero_le _)⟩
  | bool =>
    obtain ⟨value, bool, rfl⟩ := Option.map_eq_some_iff.mp read
    exact ⟨⟨parts, rfl, bool?_eq_some_iff.mp bool⟩, tagged_fits (Nat.zero_le _)⟩
  | var =>
    obtain ⟨value, text, rfl⟩ := Option.map_eq_some_iff.mp read
    exact ⟨⟨parts, rfl, text?_eq_some_iff.mp text⟩, tagged_fits (Nat.zero_le _)⟩
  | index =>
    cases n with
    | zero => contradiction
    | succ n =>
      obtain ⟨base, position, _, _, fields, first, second, fits, fit, rfl⟩ :=
        Node.pair_sound (below n (by omega)).node numeric.1 read
      refine ⟨⟨parts, rfl, base, position, fields, first, second⟩, ?_⟩
      exact tagged_fits (record_fits (by simp [fits, fit]))
  | arith =>
    cases n with
    | zero => contradiction
    | succ n =>
      obtain ⟨sign, left, right, _, _, _, fields, signed, first, second, fits, fit, rfl⟩ :=
        Node.operation_sound (below n (by omega)).node ArithOp.text_of_ofText? numeric.1 read
      refine ⟨⟨parts, rfl, sign, left, right, fields, signed, first, second⟩, ?_⟩
      exact tagged_fits (record_fits (by simp [ofText, depth, fits, fit]))
  | logic =>
    cases n with
    | zero => contradiction
    | succ n =>
      obtain ⟨sign, left, right, _, _, _, fields, signed, first, second, fits, fit, rfl⟩ :=
        Node.operation_sound (below n (by omega)).node LogicOp.text_of_ofText? numeric.1 read
      refine ⟨⟨parts, rfl, sign, left, right, fields, signed, first, second⟩, ?_⟩
      exact tagged_fits (record_fits (by simp [ofText, depth, fits, fit]))
  | compare =>
    cases n with
    | zero => contradiction
    | succ n =>
      obtain ⟨sign, left, right, _, _, _, fields, signed, first, second, fits, fit, rfl⟩ :=
        Node.operation_sound (below n (by omega)).node CmpOp.text_of_ofText? numeric.1 read
      refine ⟨⟨parts, rfl, sign, left, right, fields, signed, first, second⟩, ?_⟩
      exact tagged_fits (record_fits (by simp [ofText, depth, fits, fit]))
  | not =>
    obtain ⟨operand, inner, rfl⟩ := Option.map_eq_some_iff.mp read
    have inner := (below n (by omega)).node numeric.1 inner
    exact ⟨⟨parts, rfl, inner.1⟩, tagged_fits inner.2⟩
  | assign =>
    cases n with
    | zero => contradiction
    | succ n =>
      obtain ⟨target, source, _, _, fields, first, second, fits, fit, rfl⟩ :=
        Node.pair_sound (below n (by omega)).node numeric.1 read
      refine ⟨⟨parts, rfl, target, source, fields, first, second⟩, ?_⟩
      exact tagged_fits (record_fits (by simp [fits, fit]))
  | call =>
    rcases n with _ | _ | n
    · contradiction
    · contradiction
    · obtain ⟨name, args, x, y, fields, first, second, rfl⟩ := (read_pair_iff _).mp read
      cases text?_eq_some_iff.mp first
      obtain ⟨elements, rfl, spelt, fits⟩ := Node.list?_sound (below n (by omega)).node
        (fields.numeric (by simp) numeric.1) second
      refine ⟨⟨parts, rfl, elements, fields, spelt⟩, ?_⟩
      refine tagged_fits (record_fits (List.forall_mem_cons.mpr ⟨Nat.zero_le _, ?_⟩))
      exact List.forall_mem_singleton.mpr fits
  | declare =>
    obtain ⟨declaration, inner, rfl⟩ := Option.map_eq_some_iff.mp read
    have inner := (below n (by omega)).declaration numeric.1 inner
    exact ⟨⟨parts, rfl, inner.1⟩, tagged_fits inner.2⟩
  | block =>
    cases n with
    | zero => contradiction
    | succ n =>
      obtain ⟨body, listed, rfl⟩ := Option.map_eq_some_iff.mp read
      obtain ⟨elements, same, spelt, fits⟩ :=
        Node.list?_sound (below n (by omega)).node numeric.1 listed
      exact ⟨⟨parts, rfl, elements, same, spelt⟩, tagged_fits fits⟩
  | group =>
    cases n with
    | zero => contradiction
    | succ n =>
      obtain ⟨body, listed, rfl⟩ := Option.map_eq_some_iff.mp read
      obtain ⟨elements, same, spelt, fits⟩ :=
        Node.list?_sound (below n (by omega)).node numeric.1 listed
      exact ⟨⟨parts, rfl, elements, same, spelt⟩, tagged_fits fits⟩
  | branch =>
    cases n with
    | zero => contradiction
    | succ n =>
      obtain ⟨condition, yes, no, x, y, z, fields, first, second, third, rfl⟩ :=
        read_optional_iff.mp read
      have first := (below n (by omega)).node (fields.numeric (by simp) numeric.1) first
      have second := (below n (by omega)).node (fields.numeric (by simp) numeric.1) second
      have third := Node.optional?_sound (below n (by omega)).node
        (fun there same => fields.numeric (by simp [same]) numeric.1) third
      refine ⟨⟨parts, rfl, condition, yes, no, fields, first.1, second.1, third.1⟩, ?_⟩
      exact tagged_fits (record_fits (by simp [first.2, second.2, third.2]))
  | loop =>
    cases n with
    | zero => contradiction
    | succ n =>
      obtain ⟨condition, body, _, _, fields, first, second, fits, fit, rfl⟩ :=
        Node.pair_sound (below n (by omega)).node numeric.1 read
      refine ⟨⟨parts, rfl, condition, body, fields, first, second⟩, ?_⟩
      exact tagged_fits (record_fits (by simp [fits, fit]))
  | ret =>
    obtain ⟨value, inner, rfl⟩ := Option.map_eq_some_iff.mp read
    have inner := Node.optional?_sound (below n (by omega)).node
      (fun there same => Option.some.inj same ▸ numeric.1) inner
    exact ⟨⟨parts, rfl, inner.1⟩, tagged_fits inner.2⟩

end Step

theorem readers_sound (limit : Nat) : ReadersSound limit := by
  induction limit using Nat.strongRecOn with
  | ind limit below =>
    exact ⟨TypeSpec.ofDocument?_sound below, Declaration.ofDocument?_sound below,
      Node.ofDocument?_sound below⟩

theorem FunctionDef.ofDocument?_sound (limit : Nat) :
    Sound (FunctionDef.ofDocument? limit) FunctionDef.SpeltBy FunctionDef.toDocument limit := by
  intro document function numeric read
  rcases limit with _ | _ | n
  · contradiction
  · contradiction
  · obtain ⟨values, fields, read⟩ := fields_of_bind read
    split at read
    next name params body returns =>
      simp only [Option.bind_eq_bind, Option.bind_eq_some_iff, Option.pure_def,
        Option.some.injEq] at read
      obtain ⟨_, named, _, given, _, runs, _, yields, rfl⟩ := read
      cases text?_eq_some_iff.mp named
      obtain ⟨params, rfl, spelt, fits⟩ :=
        Sound.list (readers_sound n).declaration (fields.numeric (by simp) numeric) given
      obtain ⟨body, rfl, spelt', fits'⟩ :=
        Node.list?_sound (readers_sound n).node (fields.numeric (by simp) numeric) runs
      obtain ⟨spelt'', fits''⟩ :=
        (readers_sound (n + 1)).typeSpec (fields.numeric (by simp) numeric) yields
      refine ⟨⟨params, body, returns, fields, spelt, spelt', spelt''⟩, ?_⟩
      refine record_fits (List.forall_mem_cons.mpr ⟨Nat.zero_le _, ?_⟩)
      simp only [List.forall_mem_cons]
      exact ⟨Nat.succ_le_succ fits, fits', fits'', nofun⟩
    next => contradiction

theorem Program.ofDocument?_sound (limit : Nat) :
    Sound (Program.ofDocument? limit) Program.SpeltBy Program.toDocument limit := by
  intro document program numeric read
  rcases limit with _ | _ | n
  · contradiction
  · contradiction
  · obtain ⟨values, fields, read⟩ := fields_of_bind read
    split at read
    next functions =>
      simp only [Option.bind_eq_bind, Option.bind_eq_some_iff, Option.pure_def,
        Option.some.injEq] at read
      obtain ⟨_, listed, rfl⟩ := read
      obtain ⟨elements, rfl, spelt, fits⟩ :=
        Sound.list (FunctionDef.ofDocument?_sound n) (fields.numeric (by simp) numeric) listed
      refine ⟨⟨elements, fields, spelt⟩, ?_⟩
      exact record_fits (List.forall_mem_singleton.mpr (Nat.succ_le_succ fits))
    next => contradiction

/-! ### What is spelt is read -/

namespace Json.Document

theorem tagged_opened {kind : String} {document : Document} {limit : Nat}
    (fits : (tagged kind document).depth ≤ limit) : ∃ n, limit = n + 1 ∧ document.depth ≤ n := by
  have deep : (tagged kind document).depth = document.depth + 1 :=
    congrArg (· + 1) (Nat.max_zero document.depth)
  exact ⟨limit - 1, by omega, by omega⟩

theorem array_opened {elements : List Document} {limit : Nat}
    (fits : (Document.array elements).depth ≤ limit) :
    ∃ n, limit = n + 1 ∧ depths elements ≤ n :=
  ⟨limit - 1, by simp only [depth] at fits; omega, by simp only [depth] at fits; omega⟩

end Json.Document

theorem Json.Document.list?_complete {α : Type} {read? : Document → Option α}
    {spelt : α → Document → Prop} {limit : Nat} (complete : ∀ (value : α) {document : Document},
      spelt value document → document.depth ≤ limit → read? document = some value)
    {values : List α} {elements : List Document} (each : List.Forall₂ spelt values elements)
    (fits : depths elements ≤ limit) : list? read? (.array elements) = some values := by
  refine list?_eq_some_iff.mpr ⟨elements, rfl, ?_⟩
  induction each with
  | nil => exact .nil
  | cons head tail ih =>
    obtain ⟨here, there⟩ := Nat.max_le.mp fits
    exact .cons (complete _ head here) (ih there)

theorem Node.list?_complete {limit : Nat} {nodes : List (Node Unit)} {elements : List Document}
    (each : List.Forall₂ (fun element node => Node.ofDocument? limit element = some node)
      elements nodes) : list? (Node.ofDocument? limit) (.array elements) = some nodes :=
  list?_eq_some_iff.mpr ⟨elements, rfl, each⟩

mutual
theorem TypeSpec.ofDocument?_complete : ∀ (spec : TypeSpec Unit) {document : Document}
    {limit : Nat}, spec.SpeltBy document → document.depth ≤ limit →
      TypeSpec.ofDocument? limit document = some spec
  | .int, _, limit, spelt, nests
  | .bool, _, limit, spelt, nests
  | .void, _, limit, spelt, nests => by
    -- The string fits within every limit, the object within all but the lowest.
    rcases spelt with rfl | rfl
    · rcases limit with _ | _ | n <;> rfl
    · rcases limit with _ | _ | n
      · contradiction
      · rfl
      · rfl
  | .array element size, _, limit, ⟨parts, first, second, rfl, fields, here, there⟩, nests => by
    obtain ⟨n, rfl, inside⟩ := tagged_opened nests
    obtain ⟨n, rfl, fits⟩ := fields.opened inside
    exact (read_pair_iff _).mpr ⟨first, second, element, size, fields,
      element.ofDocument?_complete here (fits first (by simp)),
      size.ofDocument?_complete there (fits second (by simp)), rfl⟩
termination_by structural spec => spec

theorem Declaration.ofDocument?_complete : ∀ (declaration : Declaration Unit) {document : Document}
    {limit : Nat}, declaration.SpeltBy document → document.depth ≤ limit →
      Declaration.ofDocument? limit document = some declaration
  | ⟨name, ty, ()⟩, _, limit, ⟨second, fields, there⟩, nests => by
    obtain ⟨n, rfl, fits⟩ := fields.opened nests
    exact (read_pair_iff fun name ty => Declaration.mk name ty ()).mpr
      ⟨ofText name, second, name, ty, fields, rfl,
        ty.ofDocument?_complete there (fits second (by simp)), rfl⟩
termination_by structural declaration => declaration

theorem Node.ofDocument?_complete : ∀ (node : Node Unit) {document : Document} {limit : Nat},
    node.SpeltBy document → document.depth ≤ limit → Node.ofDocument? limit document = some node
  | .int n, _, limit, ⟨parts, rfl, spelt⟩, nests => by
    obtain ⟨n, rfl, fits⟩ := tagged_opened nests
    exact congrArg (Option.map Node.int) spelt.word?_eq
  | .bool b, _, limit, ⟨parts, rfl, spelt⟩, nests => by
    obtain ⟨n, rfl, fits⟩ := tagged_opened nests
    exact congrArg (Option.map Node.bool) (bool?_eq_some_iff.mpr spelt)
  | .var name, _, limit, ⟨parts, rfl, spelt⟩, nests => by
    obtain ⟨n, rfl, fits⟩ := tagged_opened nests
    exact congrArg (Option.map Node.var) (text?_eq_some_iff.mpr spelt)
  | .index base position, _, limit, ⟨parts, rfl, first, second, fields, here, there⟩, nests => by
    obtain ⟨n, rfl, inside⟩ := tagged_opened nests
    obtain ⟨n, rfl, fits⟩ := fields.opened inside
    exact (read_pair_iff _).mpr ⟨first, second, base, position, fields,
      base.ofDocument?_complete here (fits first (by simp)),
      position.ofDocument?_complete there (fits second (by simp)), rfl⟩
  | .arith op left right, _, limit,
      ⟨parts, rfl, sign, first, second, fields, signed, here, there⟩, nests => by
    obtain ⟨n, rfl, inside⟩ := tagged_opened nests
    obtain ⟨n, rfl, fits⟩ := fields.opened inside
    have kind := kind?_eq_some_iff.mpr ⟨signed, fits sign (by simp)⟩
    exact read_triple_iff.mpr ⟨sign, first, second, op, left, right, fields,
      Option.bind_eq_some_iff.mpr ⟨_, kind, op.ofText?_text⟩,
      left.ofDocument?_complete here (fits first (by simp)),
      right.ofDocument?_complete there (fits second (by simp)), rfl⟩
  | .logic op left right, _, limit,
      ⟨parts, rfl, sign, first, second, fields, signed, here, there⟩, nests => by
    obtain ⟨n, rfl, inside⟩ := tagged_opened nests
    obtain ⟨n, rfl, fits⟩ := fields.opened inside
    have kind := kind?_eq_some_iff.mpr ⟨signed, fits sign (by simp)⟩
    exact read_triple_iff.mpr ⟨sign, first, second, op, left, right, fields,
      Option.bind_eq_some_iff.mpr ⟨_, kind, op.ofText?_text⟩,
      left.ofDocument?_complete here (fits first (by simp)),
      right.ofDocument?_complete there (fits second (by simp)), rfl⟩
  | .compare op left right, _, limit,
      ⟨parts, rfl, sign, first, second, fields, signed, here, there⟩, nests => by
    obtain ⟨n, rfl, inside⟩ := tagged_opened nests
    obtain ⟨n, rfl, fits⟩ := fields.opened inside
    have kind := kind?_eq_some_iff.mpr ⟨signed, fits sign (by simp)⟩
    exact read_triple_iff.mpr ⟨sign, first, second, op, left, right, fields,
      Option.bind_eq_some_iff.mpr ⟨_, kind, op.ofText?_text⟩,
      left.ofDocument?_complete here (fits first (by simp)),
      right.ofDocument?_complete there (fits second (by simp)), rfl⟩
  | .not operand, _, limit, ⟨parts, rfl, inner⟩, nests => by
    obtain ⟨n, rfl, fits⟩ := tagged_opened nests
    exact congrArg (Option.map Node.not) (operand.ofDocument?_complete inner fits)
  | .assign target value, _, limit, ⟨parts, rfl, first, second, fields, here, there⟩, nests => by
    obtain ⟨n, rfl, inside⟩ := tagged_opened nests
    obtain ⟨n, rfl, fits⟩ := fields.opened inside
    exact (read_pair_iff _).mpr ⟨first, second, target, value, fields,
      target.ofDocument?_complete here (fits first (by simp)),
      value.ofDocument?_complete there (fits second (by simp)), rfl⟩
  | .call name args, _, limit, ⟨parts, rfl, elements, fields, each⟩, nests => by
    obtain ⟨n, rfl, inside⟩ := tagged_opened nests
    obtain ⟨n, rfl, fits⟩ := fields.opened inside
    obtain ⟨n, rfl, shallow⟩ := array_opened (fits (.array elements) (by simp))
    exact (read_pair_iff _).mpr ⟨ofText name, .array elements, name, args, fields, rfl,
      Node.list?_complete (Node.ofDocuments?_complete args each shallow), rfl⟩
  | .declare declaration, _, limit, ⟨parts, rfl, inner⟩, nests => by
    obtain ⟨n, rfl, fits⟩ := tagged_opened nests
    exact congrArg (Option.map Node.declare) (declaration.ofDocument?_complete inner fits)
  | .block body, _, limit, ⟨_, rfl, elements, rfl, each⟩, nests => by
    obtain ⟨n, rfl, inside⟩ := tagged_opened nests
    obtain ⟨n, rfl, fits⟩ := array_opened inside
    exact congrArg (Option.map Node.block)
      (Node.list?_complete (Node.ofDocuments?_complete body each fits))
  | .group body, _, limit, ⟨_, rfl, elements, rfl, each⟩, nests => by
    obtain ⟨n, rfl, inside⟩ := tagged_opened nests
    obtain ⟨n, rfl, fits⟩ := array_opened inside
    exact congrArg (Option.map Node.group)
      (Node.list?_complete (Node.ofDocuments?_complete body each fits))
  | .branch condition yes no, _, limit,
      ⟨parts, rfl, first, second, third, fields, here, there, last⟩, nests => by
    obtain ⟨n, rfl, inside⟩ := tagged_opened nests
    obtain ⟨n, rfl, fits⟩ := fields.opened inside
    exact read_optional_iff.mpr ⟨first, second, third, condition, yes, no, fields,
      condition.ofDocument?_complete here (fits first (by simp)),
      yes.ofDocument?_complete there (fits second (by simp)),
      Node.optional?_complete no last fun document same => fits document (by simp [same]), rfl⟩
  | .loop condition body, _, limit, ⟨parts, rfl, first, second, fields, here, there⟩, nests => by
    obtain ⟨n, rfl, inside⟩ := tagged_opened nests
    obtain ⟨n, rfl, fits⟩ := fields.opened inside
    exact (read_pair_iff _).mpr ⟨first, second, condition, body, fields,
      condition.ofDocument?_complete here (fits first (by simp)),
      body.ofDocument?_complete there (fits second (by simp)), rfl⟩
  | .ret value, _, limit, ⟨parts, rfl, inner⟩, nests => by
    obtain ⟨n, rfl, fits⟩ := tagged_opened nests
    exact congrArg (Option.map Node.ret)
      (Node.optional?_complete value inner fun document same => Option.some.inj same ▸ fits)
termination_by structural node => node

theorem Node.optional?_complete : ∀ (node : Option (Node Unit)) {there : Option Document}
    {limit : Nat}, Node.SpeltByOptional node there →
      (∀ document, there = some document → document.depth ≤ limit) →
      optional? (Node.ofDocument? limit) there = some node
  | none, _, _, .inl rfl, _ => rfl
  | none, _, _, .inr rfl, _ => rfl
  | some node, _, _, ⟨document, rfl, spelt⟩, nests => by
    have read := node.ofDocument?_complete spelt (nests document rfl)
    rw [Node.SpeltBy] at spelt
    obtain ⟨parts, rfl, -⟩ := spelt
    exact congrArg (Option.map some) read
termination_by structural node => node

theorem Node.ofDocuments?_complete : ∀ (nodes : List (Node Unit)) {documents : List Document}
    {limit : Nat}, Node.SpeltByAll nodes documents → Json.Document.depths documents ≤ limit →
      List.Forall₂ (fun document node => Node.ofDocument? limit document = some node)
        documents nodes
  | [], _, _, rfl, _ => .nil
  | node :: rest, _, _, ⟨first, others, rfl, here, there⟩, fits =>
    have fits := Nat.max_le.mp fits
    .cons (node.ofDocument?_complete here fits.1) (Node.ofDocuments?_complete rest there fits.2)
termination_by structural nodes => nodes
end

theorem FunctionDef.ofDocument?_complete (function : FunctionDef Unit) {document : Document}
    {limit : Nat} (spelt : function.SpeltBy document) (nests : document.depth ≤ limit) :
    FunctionDef.ofDocument? limit document = some function := by
  obtain ⟨params, body, returns, fields, given, runs, yields⟩ := spelt
  obtain ⟨n, rfl, fits⟩ := fields.opened nests
  obtain ⟨n, rfl, shallow⟩ := array_opened (fits (.array params) (by simp))
  have shallow' : depths body ≤ n := Nat.le_of_succ_le_succ (fits (.array body) (by simp))
  have given := list?_complete (fun param {_} => param.ofDocument?_complete) given shallow
  have runs := Node.list?_complete (Node.ofDocuments?_complete function.body runs shallow')
  have yields := function.returns.ofDocument?_complete yields (fits returns (by simp))
  refine (bind_of_fields fields _).trans ?_
  simp [text?, ofText, given, runs, yields]

theorem Program.ofDocument?_complete (program : Program Unit) {document : Document}
    {limit : Nat} (spelt : program.SpeltBy document) (nests : document.depth ≤ limit) :
    Program.ofDocument? limit document = some program := by
  obtain ⟨functions, fields, each⟩ := spelt
  obtain ⟨n, rfl, fits⟩ := fields.opened nests
  obtain ⟨n, rfl, shallow⟩ := array_opened (fits (.array functions) (by simp))
  have listed := list?_complete (fun function {_} => function.ofDocument?_complete) each shallow
  refine (bind_of_fields fields _).trans ?_
  simp [listed]

/-! ### The documents that can be loaded -/

theorem Program.ofDocument?_eq_some_iff {program : Program Unit} {document : Document}
    {limit : Nat} (numeric : document.Numeric) (nests : document.depth ≤ limit) :
    Program.ofDocument? limit document = some program ↔ program.SpeltBy document :=
  ⟨fun read => (Program.ofDocument?_sound limit numeric read).1,
    fun spelt => program.ofDocument?_complete spelt nests⟩

/-- No spelling of a program nests less deep than its written form. -/
theorem Program.SpeltBy.depth_le {program : Program Unit} {document : Document}
    (numeric : document.Numeric) (spelt : program.SpeltBy document) :
    program.toDocument.depth ≤ document.depth := by
  have read := program.ofDocument?_complete spelt (Nat.le_refl document.depth)
  exact (Program.ofDocument?_sound document.depth numeric read).2

/-- A text whose arrays and objects nest at most 127 deep is loaded as a program exactly if it
spells that program, and it spells one program at most. -/
theorem Program.read?_eq_some_iff_speltBy {text : String} {document : Document}
    (read : Document.read? text = some document) (nests : document.depth ≤ 127) :
    (∀ program, Program.read? text = some program ↔ program.SpeltBy document) ∧
    ∀ program program' : Program Unit, program.SpeltBy document → program'.SpeltBy document →
      program = program' := by
  have numeric := Document.read?_numeric read
  have loads (program : Program Unit) :
      Program.read? text = some program ↔ program.SpeltBy document := by
    rw [Program.read?, read, Option.bind_some]
    exact Program.ofDocument?_eq_some_iff numeric nests
  refine ⟨loads, fun program program' spelt spelt' => ?_⟩
  exact Option.some.inj (((loads program).mpr spelt).symm.trans ((loads program').mpr spelt'))

/-- A program in which most things are spelt in the less usual way. -/
def looseDocument : Document :=
  .object [
    (some "version", .array [.number "1.5"]),
    (some "functions", .array [.array [
      ofText "main", .array [], .array [tagged "If" (.object [
        (some "then_branch", tagged "Return" .null),
        (some "cond", tagged "Condition" (.array [tagged "<" .null,
          tagged "IntLiteral" (.number "-7"), tagged "Variable" (ofText "x")]))])],
      tagged "Void" .null]]),
    (some "version", .null)]

def looseProgram : Program Unit where
  functions := [
    ⟨"main", [], [.branch (.compare .lt (.int (-7)) (.var "x")) (.ret none) none], .void⟩]

theorem read?_looseDocument : Document.read? looseDocument.compact = some looseDocument := by
  apply Document.read?_compact
  simp [looseDocument, Document.Numeric, Document.NumericElements, Document.NumericMembers, tagged,
    ofText]
  decide

theorem read?_looseProgram : Program.read? looseDocument.compact = some looseProgram := by
  rw [Program.read?, read?_looseDocument]
  rfl

theorem Program.read?_eq_some_iff_speltBy_loose :
    Document.read? looseDocument.compact = some looseDocument ∧ looseDocument.depth ≤ 127 ∧
    Program.read? looseDocument.compact = some looseProgram ∧
    looseProgram.SpeltBy looseDocument := by
  have nests : looseDocument.depth ≤ 127 := by decide
  have spells := (Program.read?_eq_some_iff_speltBy read?_looseDocument nests).1 looseProgram
  exact ⟨read?_looseDocument, nests, read?_looseProgram, spells.mp read?_looseProgram⟩

/-- A text that is loaded, however it spells its program, is brought into a normal form by writing
the program out: the new text nests no deeper, it is loaded as the same program, and writing that
out again changes nothing. -/
theorem Program.read?_pretty_of_read? {source : String} {program : Program Unit}
    (loaded : Program.read? source = some program) :
    let text := program.toDocument.pretty
    (∃ document, Document.read? source = some document ∧
      program.toDocument.depth ≤ document.depth) ∧
    Document.read? text = some program.toDocument ∧ program.toDocument.depth ≤ 127 ∧
    Program.read? text = some program ∧
    ∀ again, Program.read? text = some again → again.toDocument.pretty = text := by
  obtain ⟨document, read, given⟩ := Option.bind_eq_some_iff.mp loaded
  have numeric := Document.read?_numeric read
  obtain ⟨spelt, nests⟩ := Program.ofDocument?_sound nestingLimit numeric given
  have written := Document.read?_pretty program.toDocument_numeric
  have again : Program.read? program.toDocument.pretty = some program := by
    rw [Program.read?_of_document written, if_pos nests]
    exact congrArg some program.map_id
  refine ⟨⟨document, read, spelt.depth_le numeric⟩, written, nests, again, fun other there => ?_⟩
  cases again.symm.trans there
  rfl

theorem Program.read?_pretty_of_read?_loose :
    Program.read? looseDocument.compact = some looseProgram ∧
    looseProgram.toDocument.depth ≤ 127 ∧
    Program.read? looseProgram.toDocument.pretty = some looseProgram := by
  obtain ⟨-, -, nests, again, -⟩ := Program.read?_pretty_of_read? read?_looseProgram
  exact ⟨read?_looseProgram, nests, again⟩

end TreeLang
