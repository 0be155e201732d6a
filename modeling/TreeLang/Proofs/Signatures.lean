import TreeLang.Proofs.HeapTyping
import Mathlib.Data.List.Induction

/-! Signatures read from the back. A signature is a name with words behind it, each after an
underscore. No two words end in the same character, so a signature can be taken apart word
by word from its end; but nothing marks where the words stop and the name begins. A name may
itself end in such words, and then a call can reach a function of another name. The main
result says for which two names this happens. -/
namespace TreeLang

/-- The words that signatures put behind a name. -/
inductive TypeWord where
  | int
  | bool
  | array
  | void
  deriving DecidableEq

namespace TypeWord

def text : TypeWord → String
  | int => "int"
  | bool => "bool"
  | array => "array"
  | void => "void"

/-- The words one after the other, an underscore before each. -/
def tail : List TypeWord → String
  | [] => ""
  | word :: rest => "_" ++ word.text ++ tail rest

def lastChar : TypeWord → Char
  | int => 't'
  | bool => 'l'
  | array => 'y'
  | void => 'd'

theorem tail_append (first second : List TypeWord) :
    tail (first ++ second) = tail first ++ tail second := by
  induction first with
  | nil => simp [tail]
  | cons word rest ih => simp [tail, ih, String.append_assoc]

theorem getLast?_tail (name : String) (words : List TypeWord) (word : TypeWord) :
    (name ++ tail (words ++ [word])).toList.getLast? = some word.lastChar := by
  rw [tail_append, String.toList_append, String.toList_append]
  cases word <;> simp [tail, text, lastChar]

theorem lastChar_injective {first second : TypeWord} (same : first.lastChar = second.lastChar) :
    first = second := by
  cases first <;> cases second <;> simp_all [lastChar]

/-- Of two texts that are equal, each a name with words behind it, the longer name is the
shorter with some of the other's words behind it. -/
theorem tail_cancel {first second : String} {words others : List TypeWord}
    (same : first ++ tail words = second ++ tail others) :
    ∃ between, (second = first ++ tail between ∧ words = between ++ others) ∨
      (first = second ++ tail between ∧ others = between ++ words) := by
  induction words using List.reverseRecOn generalizing others with
  | nil =>
    refine ⟨others, .inr ⟨?_, by simp⟩⟩
    simpa [tail] using same
  | append_singleton words word ih =>
    rcases List.eq_nil_or_concat others with rfl | ⟨others, other, rfl⟩
    · refine ⟨words ++ [word], .inl ⟨?_, by simp⟩⟩
      simpa [tail] using same.symm
    · rw [List.concat_eq_append] at same ⊢
      have last := getLast?_tail first words word
      rw [same, getLast?_tail, Option.some.injEq] at last
      obtain rfl := lastChar_injective last
      -- The last words agree, so they can be taken off.
      rw [tail_append, tail_append, ← String.append_assoc, ← String.append_assoc,
        String.append_left_inj] at same
      obtain ⟨between, ⟨longer, split⟩ | ⟨longer, split⟩⟩ := ih same
      · exact ⟨between, .inl ⟨longer, by simp [split]⟩⟩
      · exact ⟨between, .inr ⟨longer, by simp [split]⟩⟩

end TypeWord

namespace Tag

def words : Tag → List TypeWord
  | int => [.int]
  | bool => [.bool]
  | void => [.void]
  | array element => .array :: element.words

/-- There is no `void` at any depth. -/
def Storable : Tag → Prop
  | int => True
  | bool => True
  | void => False
  | array element => element.Storable

theorem tail_words (tag : Tag) : TypeWord.tail tag.words = "_" ++ tag.text := by
  induction tag with
  | array element ih =>
    simp only [words, TypeWord.tail, TypeWord.text, Tag.text, ih]
    rw [← String.append_assoc, ← String.append_assoc]
    rfl
  | _ => simp [words, TypeWord.tail, TypeWord.text, Tag.text]

theorem words_ne_nil (tag : Tag) : tag.words ≠ [] := by
  cases tag <;> simp [words]

theorem Storable.void_notMem {tag : Tag} (storable : tag.Storable) : .void ∉ tag.words := by
  induction tag with
  | int => simp [words]
  | bool => simp [words]
  | void => exact storable.elim
  | array element ih => simpa [words] using ih storable

end Tag

/-- The words of a signature: those of the tags, or `void` alone. -/
def signatureWords (tags : List Tag) : List TypeWord :=
  match tags with
  | [] => [.void]
  | tags => tags.flatMap Tag.words

theorem joinSignature_foldl (name : String) (tags : List Tag) :
    (tags.map Tag.text).foldl (fun text tag => text ++ "_" ++ tag) name =
      name ++ TypeWord.tail (tags.flatMap Tag.words) := by
  induction tags generalizing name with
  | nil => simp [TypeWord.tail]
  | cons tag rest ih =>
    simp only [List.map_cons, List.foldl_cons, List.flatMap_cons]
    rw [ih, TypeWord.tail_append, Tag.tail_words]
    simp [String.append_assoc]

theorem signature_eq (name : String) (tags : List Tag) :
    signature name tags = name ++ TypeWord.tail (signatureWords tags) := by
  cases tags with
  | nil => rfl
  | cons tag rest => exact joinSignature_foldl name (tag :: rest)

/-- All tags are ones that a parameter or an argument can have. -/
def AllStorable (tags : List Tag) : Prop := ∀ tag ∈ tags, tag.Storable

theorem signatureWords_ne_nil (tags : List Tag) : signatureWords tags ≠ [] := by
  cases tags with
  | nil => simp [signatureWords]
  | cons tag rest => simp [signatureWords, tag.words_ne_nil]

/-- The word `void` stands in the signature of a function without parameters only. -/
theorem signatureWords_of_void {tags : List Tag} (storable : AllStorable tags)
    (member : .void ∈ signatureWords tags) : signatureWords tags = [.void] := by
  cases tags with
  | nil => rfl
  | cons tag rest =>
    obtain ⟨found, listed, spelled⟩ := List.mem_flatMap.mp member
    exact absurd spelled (storable found listed).void_notMem

/-- The long name is the short one with the spellings of types behind it. -/
def NameExtends (long short : String) : Prop :=
  ∃ words, words ≠ [] ∧ .void ∉ words ∧ long = short ++ TypeWord.tail words

/-- Two names for which parameters can be found that make their signatures equal. -/
def Confusable (first second : String) : Prop :=
  ∃ tags others, AllStorable tags ∧ AllStorable others ∧ signature first tags = signature second others

theorem Confusable.symm {first second : String} (confusable : Confusable first second) :
    Confusable second first := by
  obtain ⟨tags, others, storable, storables, same⟩ := confusable
  exact ⟨others, tags, storables, storable, same.symm⟩

/-- Any words can be read as the spelling of parameters, once an `int` follows. -/
theorem exists_tags (words : List TypeWord) (void : .void ∉ words) :
    ∃ tag rest, AllStorable (tag :: rest) ∧ (tag :: rest).flatMap Tag.words = words ++ [.int] := by
  induction words with
  | nil => exact ⟨.int, [], by simp [AllStorable, Tag.Storable], rfl⟩
  | cons word words ih =>
    simp only [List.mem_cons, not_or] at void
    obtain ⟨tag, rest, storable, spelled⟩ := ih void.2
    cases word with
    | void => exact absurd rfl void.1
    | int =>
      refine ⟨.int, tag :: rest, ?_, by rw [List.flatMap_cons, spelled]; rfl⟩
      simpa [AllStorable, Tag.Storable] using storable
    | bool =>
      refine ⟨.bool, tag :: rest, ?_, by rw [List.flatMap_cons, spelled]; rfl⟩
      simpa [AllStorable, Tag.Storable] using storable
    | array =>
      -- An `array` belongs to the tag that follows it.
      refine ⟨.array tag, rest, ?_, ?_⟩
      · simpa [AllStorable, Tag.Storable] using storable
      · rw [List.flatMap_cons] at spelled ⊢
        simp [Tag.words, ← spelled]

theorem NameExtends.confusable {long short : String} (extended : NameExtends long short) :
    Confusable long short := by
  obtain ⟨words, -, void, rfl⟩ := extended
  obtain ⟨tag, rest, storable, spelled⟩ := exists_tags words void
  refine ⟨[.int], tag :: rest, by simp [AllStorable, Tag.Storable], storable, ?_⟩
  have others : signatureWords (tag :: rest) = words ++ [.int] := spelled
  rw [signature_eq, signature_eq, others, TypeWord.tail_append, String.append_assoc]
  rfl

theorem nameExtends_of_cancel {short long : String} {between : List TypeWord} {tags others : List Tag}
    (storable : AllStorable tags) (longer : long = short ++ TypeWord.tail between)
    (split : signatureWords tags = between ++ signatureWords others) :
    long = short ∨ NameExtends long short := by
  by_cases none : between = []
  · left
    simpa [none, TypeWord.tail] using longer
  · right
    refine ⟨between, none, fun member => ?_, longer⟩
    have void := signatureWords_of_void storable (by rw [split]; exact List.mem_append_left _ member)
    -- With `void` among the words between, there would be no word left for the other signature.
    have total := congrArg List.length split
    have left := List.length_pos_iff.mpr none
    have right := List.length_pos_iff.mpr (signatureWords_ne_nil others)
    simp only [void, List.length_singleton, List.length_append] at total
    omega

/-- Signatures of two names agree for some parameters exactly if the names are the same or
one is the other with spellings of types behind it. -/
theorem confusable_iff (first second : String) :
    Confusable first second ↔ first = second ∨ NameExtends first second ∨ NameExtends second first := by
  constructor
  · rintro ⟨tags, others, storable, storables, same⟩
    rw [signature_eq, signature_eq] at same
    obtain ⟨between, ⟨longer, split⟩ | ⟨longer, split⟩⟩ := TypeWord.tail_cancel same
    · rcases nameExtends_of_cancel storable longer split with equal | extended
      · exact .inl equal.symm
      · exact .inr (.inr extended)
    · rcases nameExtends_of_cancel storables longer split with equal | extended
      · exact .inl equal
      · exact .inr (.inl extended)
  · rintro (rfl | extended | extended)
    · exact ⟨[], [], by simp [AllStorable], by simp [AllStorable], rfl⟩
    · exact extended.confusable
    · exact extended.confusable.symm

/-! ### Registered functions -/

theorem TypeSpec.storable_tag {δ : Type} (spec : TypeSpec δ) :
    spec.isStorable = true ↔ spec.tag.Storable := by
  induction spec using TypeSpec.isStorable.induct with
  | case1 | case2 | case3 => simp [isStorable, TypeSpec.tag, Tag.Storable]
  | case4 element _ ih => simpa [isStorable, TypeSpec.tag, Tag.Storable] using ih

/-- What registration asks of a function by itself. -/
structure FunctionDef.Admissible {δ : Type} (function : FunctionDef δ) : Prop where
  own : Builtin.ofName? function.name = none
  storable : AllStorable (function.params.map (·.ty.tag))

namespace Registry

variable {δ : Type} {registry later : Registry δ} {function : FunctionDef δ} {functions : List (FunctionDef δ)}

/-- Only the signature is left to refuse an admissible function. -/
theorem refusal?_cases (registry : Registry δ) (function : FunctionDef δ) :
    (function.Admissible ∧ registry.refusal? function =
      if (registry.get? function.signature).isSome then some (.duplicateFunction function.signature) else none) ∨
    (¬ function.Admissible ∧ ∃ failure, registry.refusal? function = some failure ∧
      ∀ signature, failure ≠ .duplicateFunction signature) := by
  unfold Registry.refusal?
  cases own : Builtin.ofName? function.name with
  | some builtin =>
    refine .inr ⟨fun admissible => ?_, .builtinRedefined function.name, by simp, by simp⟩
    simp [admissible.own] at own
  | none =>
    cases found : function.params.find? fun param => !param.ty.isStorable with
    | some param =>
      refine .inr ⟨fun admissible => ?_, .voidParameter function.name param.name, by simp, by simp⟩
      have storable := admissible.storable param.ty.tag
        (List.mem_map_of_mem (List.mem_of_find?_eq_some found))
      have refused := List.find?_some found
      simp [(TypeSpec.storable_tag param.ty).mpr storable] at refused
    | none =>
      refine .inl ⟨⟨own, ?_⟩, by simp⟩
      intro tag member
      obtain ⟨param, listed, rfl⟩ := List.mem_map.mp member
      rw [← TypeSpec.storable_tag]
      simpa using List.find?_eq_none.mp found param listed

theorem register_ok (registered : registry.register function = .ok later) :
    function.Admissible ∧ registry.get? function.signature = none ∧
      later.entries = (function.signature, function) :: registry.entries := by
  unfold Registry.register at registered
  rcases registry.refusal?_cases function with ⟨admissible, refusal⟩ | ⟨-, failure, refusal, -⟩
  · rw [refusal] at registered
    cases taken : registry.get? function.signature with
    | some prior => simp [taken] at registered
    | none =>
      simp only [taken, Option.isSome_none, Bool.false_eq_true, if_false, Except.ok.injEq] at registered
      subst registered
      exact ⟨admissible, rfl, rfl⟩
  · simp [refusal] at registered

theorem register_duplicate_iff {signature : String} :
    registry.register function = .error (.duplicateFunction signature) ↔
      function.Admissible ∧ signature = function.signature ∧ ∃ prior, registry.get? function.signature = some prior := by
  unfold Registry.register
  rcases registry.refusal?_cases function with ⟨admissible, refusal⟩ | ⟨refused, failure, refusal, other⟩
  · rw [refusal]
    cases taken : registry.get? function.signature with
    | some prior => simp [admissible, eq_comm]
    | none => simp
  · simp [refusal, refused, other signature]

/-- Each function stands under its own signature. -/
def Keyed (registry : Registry δ) : Prop :=
  ∀ entry ∈ registry.entries, entry.1 = entry.2.signature ∧ entry.2.Admissible

theorem Keyed.register (keyed : registry.Keyed) (registered : registry.register function = .ok later) :
    later.Keyed := by
  obtain ⟨admissible, -, entries⟩ := register_ok registered
  intro entry member
  rw [entries] at member
  rcases List.mem_cons.mp member with rfl | old
  · exact ⟨rfl, admissible⟩
  · exact keyed entry old

theorem Keyed.registerAll (keyed : registry.Keyed) (functions : List (FunctionDef δ)) :
    (registry.registerAll functions).1.Keyed := by
  induction functions generalizing registry with
  | nil => exact keyed
  | cons function rest ih =>
    unfold Registry.registerAll
    cases registered : registry.register function with
    | error failure => exact keyed
    | ok later => exact ih (keyed.register registered)

theorem Keyed.of_get? {signature : String} (keyed : registry.Keyed)
    (found : registry.get? signature = some function) :
    signature = function.signature ∧ function.Admissible := by
  obtain ⟨front, back, split, -⟩ := List.lookup_eq_some_iff.mp found
  exact keyed (signature, function) (by simp [split])

theorem resolve_ok_iff {signature : String} :
    registry.resolve signature = .ok function ↔ registry.get? signature = some function := by
  unfold Registry.resolve
  cases registry.get? signature <;> simp

/-- One admissible function can always be registered. -/
theorem registerAll_singleton (admissible : function.Admissible) :
    (empty : Registry δ).registerAll [function] = ({ entries := [(function.signature, function)] }, .ok ()) := by
  have refusal : (empty : Registry δ).refusal? function = none := by
    rcases (empty : Registry δ).refusal?_cases function with ⟨-, refusal⟩ | ⟨refused, -⟩
    · simpa [empty, Registry.get?] using refusal
    · exact absurd admissible refused
  simp only [Registry.registerAll, Registry.register, refusal]
  rfl

end Registry

/-! ### Functions and arguments for given tags -/

namespace Tag

def spec : Tag → TypeSpec Slot
  | int => .int
  | bool => .bool
  | void => .void
  | array element => .array element.spec (.int 1)

def ty : Tag → Ty
  | int => .int
  | bool => .bool
  | void => .void
  | array element => .array element.ty 1

theorem tag_spec (tag : Tag) : tag.spec.tag = tag := by
  induction tag with
  | array element ih => simp [spec, TypeSpec.tag, ih]
  | _ => rfl

theorem tag_ty (tag : Tag) : tag.ty.tag = tag := by
  induction tag with
  | array element ih => simp [ty, Ty.tag, ih]
  | _ => rfl

theorem Storable.fault?_ty {tag : Tag} (storable : tag.Storable) : tag.ty.fault? = none := by
  induction tag with
  | int => rfl
  | bool => rfl
  | void => exact storable.elim
  | array element ih => simpa [ty, Ty.fault?] using ih storable

end Tag

/-- A function that does nothing. -/
def FunctionDef.idle (name : String) (tags : List Tag) : FunctionDef Slot where
  name
  params := tags.map fun tag => ⟨"p", tag.spec, ⟨0⟩⟩
  body := []
  returns := .void

theorem FunctionDef.tags_idle (name : String) (tags : List Tag) :
    (FunctionDef.idle name tags).params.map (·.ty.tag) = tags := by
  simp only [FunctionDef.idle, List.map_map]
  exact (List.map_congr_left fun tag _ => tag.tag_spec).trans (List.map_id tags)

theorem FunctionDef.signature_idle (name : String) (tags : List Tag) :
    (FunctionDef.idle name tags).signature = TreeLang.signature name tags := by
  rw [FunctionDef.signature, tags_idle]
  rfl

theorem FunctionDef.admissible_idle {name : String} {tags : List Tag} (own : Builtin.ofName? name = none)
    (storable : AllStorable tags) : (FunctionDef.idle name tags).Admissible :=
  ⟨own, by rwa [tags_idle]⟩

theorem Heap.Typed.storable_get {heap : Heap} (typed : heap.Typed) (tag : Tag) (ref : Ref)
    (tagged : (heap.get ref).tag = tag) : tag.Storable := by
  induction tag generalizing ref with
  | int => trivial
  | bool => trivial
  | void => exact absurd tagged Cell.tag_ne_void
  | array inner ih =>
    obtain ⟨element, elements, content, same⟩ := Cell.eq_array_of_tag tagged
    obtain ⟨first, member⟩ := Array.exists_mem_of_ne_empty elements (typed.nonempty content)
    exact ih first (by rw [typed.tagged content first member, same])

theorem Heap.Typed.storable_tag {heap : Heap} (typed : heap.Typed) (value : Value) :
    (heap.tag value).Storable := by
  cases value with
  | int n => trivial
  | bool b => trivial
  | cell ref => exact typed.storable_get _ ref rfl

/-- There are cells for all tags of a list in one heap. -/
theorem exists_args {tags : List Tag} (storable : AllStorable tags) :
    ∃ (heap : Heap) (refs : List Ref), Relation.ReflTransGen Heap.Step .empty heap ∧
      (∀ ref ∈ refs, ref.index < heap.size) ∧
      refs.map (fun ref => heap.tag (.cell ref)) = tags := by
  induction tags with
  | nil => exact ⟨.empty, [], .refl, by simp, rfl⟩
  | cons tag rest ih =>
    obtain ⟨heap, refs, history, inside, tagged⟩ := ih fun tag member => storable tag (by simp [member])
    have sound : tag.ty.fault? = none := (storable tag (by simp)).fault?_ty
    obtain ⟨grown, fresh⟩ := heap.alloc_grown tag.ty sound
    have created : heap.create tag.ty = .ok (heap.alloc tag.ty) := by simp [Heap.create, sound]
    refine ⟨(heap.alloc tag.ty).2, (heap.alloc tag.ty).1 :: refs, history.tail (.create created), ?_, ?_⟩
    · intro ref member
      rcases List.mem_cons.mp member with rfl | old
      · exact fresh.upper
      · exact Nat.lt_of_lt_of_le (inside ref old) grown.size
    · have kept : refs.map (fun ref => (heap.alloc tag.ty).2.tag (.cell ref)) = rest := by
        rw [← tagged]
        apply List.map_congr_left
        intro ref member
        simp only [Heap.tag, grown.old ref (inside ref member)]
      rw [List.map_cons, kept]
      simp only [Heap.tag, fresh.tag, Tag.tag_ty]

/-! ### Reaching a function of another name -/

/-- A call of the one name reaches a function of the other name, for some functions
registered one after the other and some arguments. -/
def CallReaches (called other : String) : Prop :=
  ∃ (functions : List (FunctionDef Slot)) (registry : Registry Slot) (heap : Heap) (args : List Value)
      (function : FunctionDef Slot),
    Registry.empty.registerAll functions = (registry, .ok ()) ∧
    Relation.ReflTransGen Heap.Step .empty heap ∧
    registry.resolve (signature called (args.map heap.tag)) = .ok function ∧ function.name = other

/-- A function of the one name is refused as a duplicate of a registered function that has
the other name. -/
def RefusedAsDuplicate (refused other : String) : Prop :=
  ∃ (functions : List (FunctionDef Slot)) (registry : Registry Slot) (function prior : FunctionDef Slot),
    Registry.empty.registerAll functions = (registry, .ok ()) ∧
    registry.register function = .error (.duplicateFunction function.signature) ∧
    function.name = refused ∧
    registry.get? function.signature = some prior ∧ prior.name = other

theorem Registry.keyed_empty {δ : Type} : (Registry.empty : Registry δ).Keyed := by
  intro entry member
  simp [Registry.empty] at member

theorem Registry.keyed_of_registerAll {functions : List (FunctionDef Slot)} {registry : Registry Slot}
    {result : Except Failure Unit}
    (registered : (Registry.empty : Registry Slot).registerAll functions = (registry, result)) : registry.Keyed := by
  have keyed := Registry.keyed_empty.registerAll functions
  rwa [registered] at keyed

theorem callReaches_iff_confusable (called other : String) :
    CallReaches called other ↔ Builtin.ofName? other = none ∧ Confusable called other := by
  constructor
  · rintro ⟨functions, registry, heap, args, function, registered, history, resolved, rfl⟩
    have typed := (Heap.typed_empty.steps history).1
    obtain ⟨same, admissible⟩ :=
      (Registry.keyed_of_registerAll registered).of_get? (Registry.resolve_ok_iff.mp resolved)
    refine ⟨admissible.own, args.map heap.tag, _, ?_, admissible.storable, same⟩
    intro tag member
    obtain ⟨arg, -, rfl⟩ := List.mem_map.mp member
    exact typed.storable_tag arg
  · rintro ⟨own, tags, others, storable, storables, same⟩
    obtain ⟨heap, refs, history, -, tagged⟩ := exists_args storable
    have admissible := FunctionDef.admissible_idle own storables
    refine ⟨[.idle other others], _, heap, refs.map .cell, .idle other others,
      Registry.registerAll_singleton admissible, history, ?_, rfl⟩
    have signed : signature called ((refs.map Value.cell).map heap.tag) =
        (FunctionDef.idle other others).signature := by
      rw [List.map_map, FunctionDef.signature_idle, ← same, ← tagged]
      rfl
    rw [Registry.resolve_ok_iff, signed]
    simp [Registry.get?]

theorem refusedAsDuplicate_iff_confusable (refused other : String) :
    RefusedAsDuplicate refused other ↔
      Builtin.ofName? refused = none ∧ Builtin.ofName? other = none ∧ Confusable refused other := by
  constructor
  · rintro ⟨functions, registry, function, prior, registered, duplicate, rfl, found, rfl⟩
    obtain ⟨admissible, -, -⟩ := Registry.register_duplicate_iff.mp duplicate
    obtain ⟨same, earlier⟩ := (Registry.keyed_of_registerAll registered).of_get? found
    exact ⟨admissible.own, earlier.own, _, _, admissible.storable, earlier.storable, same⟩
  · rintro ⟨own, others, tags, taken, storable, storables, same⟩
    have found : ({ entries := [((FunctionDef.idle other taken).signature, .idle other taken)] } : Registry Slot).get?
        (FunctionDef.idle refused tags).signature = some (.idle other taken) := by
      rw [FunctionDef.signature_idle, FunctionDef.signature_idle, same]
      simp [Registry.get?]
    refine ⟨[.idle other taken], _, .idle refused tags, .idle other taken,
      Registry.registerAll_singleton (FunctionDef.admissible_idle others storables), ?_, rfl, found, rfl⟩
    rw [Registry.register_duplicate_iff]
    exact ⟨FunctionDef.admissible_idle own storable, rfl, _, found⟩

/-- A call reaches a function of another name, and a function is refused as a duplicate of
one with another name, exactly where one of the two names is the other with the spellings of
types behind it. -/
theorem callReaches_and_refused_iff (name other : String) :
    (CallReaches name other ↔ Builtin.ofName? other = none ∧
      (name = other ∨ NameExtends name other ∨ NameExtends other name)) ∧
    (RefusedAsDuplicate name other ↔ Builtin.ofName? name = none ∧ Builtin.ofName? other = none ∧
      (name = other ∨ NameExtends name other ∨ NameExtends other name)) := by
  rw [callReaches_iff_confusable, refusedAsDuplicate_iff_confusable, confusable_iff]
  exact ⟨Iff.rfl, Iff.rfl⟩

/-- With `f` of two numbers registered, `f_int` of one number reaches it, with an argument
too few, and no function `f_int` of one number can be registered any more. -/
theorem f_int_reaches_f :
    ∃ registry, (Registry.empty : Registry Slot).registerAll [.idle "f" [.int, .int]] = (registry, .ok ()) ∧
      registry.resolve (signature "f_int" [Heap.empty.tag (.int 1)]) = .ok (.idle "f" [.int, .int]) ∧
      (FunctionDef.idle "f" [.int, .int]).name ≠ "f_int" ∧
      registry.register (.idle "f_int" [.int]) = .error (.duplicateFunction "f_int_int") :=
  ⟨_, rfl, rfl, by decide, rfl⟩

end TreeLang
