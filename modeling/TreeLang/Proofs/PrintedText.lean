import TreeLang.Proofs.HeapWalks
import TreeLang.Proofs.Numerals

/-! What is printed for a value. A text shows where each datum in it begins and ends: behind a scalar
stands a mark or nothing, and an array is closed by its bracket. So different data are printed
differently. As no array is empty, the tag of a value can be told from its datum, and hence from
its text. -/
namespace TreeLang

namespace Datum

/-! ### Texts of data -/

/-- The characters that stand around data, not in them. -/
def isMark (c : Char) : Bool := c == '[' || c == ']' || c == ','

def Scalar : Datum → Prop
  | array _ => False
  | _ => True

variable {datum other : Datum} {rest tail : List Char}

theorem scalar_or_array (datum : Datum) : datum.Scalar ∨ ∃ elements, datum = array elements := by
  cases datum with
  | int n => exact .inl trivial
  | bool b => exact .inl trivial
  | array elements => exact .inr ⟨elements, rfl⟩

theorem Scalar.text_ne_nil (scalar : datum.Scalar) : datum.text.toList ≠ [] := by
  cases datum with
  | int n =>
    rw [text, Decimal.wordText]
    cases n.toInt with
    | ofNat m =>
      rw [Decimal.toList_text_ofNat]
      exact Nat.toDigits_ne_nil
    | negSucc m => simp [Decimal.toList_text_negSucc]
  | bool b => cases b <;> simp [text]
  | array elements => exact scalar.elim

theorem not_isMark_of_isDigit {c : Char} (digit : Decimal.isDigit c) : isMark c = false := by
  by_contra mark
  rw [Bool.not_eq_false, isMark] at mark
  simp only [Bool.or_eq_true, beq_iff_eq] at mark
  rcases mark with (rfl | rfl) | rfl <;> contradiction

theorem Scalar.not_isMark (scalar : datum.Scalar) : ∀ c ∈ datum.text.toList, isMark c = false := by
  have digits (n : Nat) : ∀ c ∈ Nat.toDigits 10 n, isMark c = false := fun c member =>
    not_isMark_of_isDigit (List.all_eq_true.mp (Decimal.all_isDigit_toDigits n) c member)
  cases datum with
  | int n =>
    rw [text, Decimal.wordText]
    cases n.toInt with
    | ofNat m =>
      rw [Decimal.toList_text_ofNat]
      exact digits m
    | negSucc m =>
      rw [Decimal.toList_text_negSucc]
      exact List.forall_mem_cons.mpr ⟨by decide, digits (m + 1)⟩
  | bool b => cases b <;> simp [text, isMark]
  | array elements => exact scalar.elim

theorem Scalar.text_inj (scalar : datum.Scalar) (also : other.Scalar) (same : datum.text = other.text) :
    datum = other := by
  have number (n : Int64) : Decimal.readWord? (int n).text = some n := Decimal.readWord?_wordText n
  have word (b : Bool) : Decimal.readWord? (bool b).text = none := by cases b <;> decide
  have truth : ∀ b c : Bool, (bool b).text = (bool c).text → b = c := by decide
  have read := congrArg Decimal.readWord? same
  cases datum with
  | int n =>
    cases other with
    | int m => simpa [number] using read
    | bool b => simp [number, word] at read
    | array elements => exact also.elim
  | bool b =>
    cases other with
    | int m => simp [number, word] at read
    | bool c => exact congrArg bool (truth b c same)
    | array elements => exact also.elim
  | array elements => exact scalar.elim

/-- What stands behind an element: the ones after it, and the end of the array. -/
def follow : List Datum → List Char
  | [] => [']']
  | datum :: others => ',' :: ' ' :: (datum.text.toList ++ follow others)

theorem toList_text_nil : (array []).text.toList = ['[', ']'] := by
  decide

theorem toList_text_cons (first : Datum) (others : List Datum) :
    (array (first :: others)).text.toList = '[' :: (first.text.toList ++ follow others) := by
  have inner : (", ".intercalate (texts (first :: others))).toList ++ [']'] =
      first.text.toList ++ follow others := by
    induction others generalizing first with
    | nil => simp [texts, follow]
    | cons second others ih =>
      rw [texts, texts, String.intercalate_cons_cons, ← texts, String.toList_append, List.append_assoc, ih second]
      simp [follow]
  rw [text, String.toList_append, String.toList_append, List.append_assoc]
  exact congrArg (List.cons '[') inner

/-! ### Telling texts apart -/

/-- Nothing, or what goes on with a mark. -/
def Ended (rest : List Char) : Prop := ∀ c ∈ rest.head?, isMark c = true

theorem follow_ended (others : List Datum) (rest : List Char) : Ended (follow others ++ rest) := by
  cases others with
  | nil => simp [follow, Ended, isMark]
  | cons datum others => simp [follow, Ended, isMark]

/-- Two runs without marks that are both followed by the end or a mark. -/
theorem run_cancel {run run' : List Char} (plain : ∀ c ∈ run, isMark c = false)
    (plain' : ∀ c ∈ run', isMark c = false) (ended : Ended rest) (ended' : Ended tail)
    (same : run ++ rest = run' ++ tail) : run = run' ∧ rest = tail := by
  rcases List.append_eq_append_iff.mp same with ⟨more, rfl, rfl⟩ | ⟨more, rfl, rfl⟩
  · cases more with
    | nil => simp
    | cons c more =>
      have mark := ended c (by simp)
      simp [plain' c (by simp)] at mark
  · cases more with
    | nil => simp
    | cons c more =>
      have mark := ended' c (by simp)
      simp [plain c (by simp)] at mark

/-- From a text that begins with the text of the datum it can be told that this is so, and where that
ends. -/
def Readable (datum : Datum) : Prop :=
  ∀ (other : Datum) (rest tail : List Char), Ended rest → Ended tail →
    datum.text.toList ++ rest = other.text.toList ++ tail → datum = other ∧ rest = tail

theorem Scalar.head (scalar : datum.Scalar) : ∃ c cs, datum.text.toList = c :: cs ∧ isMark c = false := by
  obtain ⟨c, cs, spelt⟩ := List.exists_cons_of_ne_nil scalar.text_ne_nil
  exact ⟨c, cs, spelt, scalar.not_isMark c (by simp [spelt])⟩

theorem head_array (elements : List Datum) : ∃ cs, (array elements).text.toList = '[' :: cs := by
  cases elements with
  | nil => exact ⟨_, toList_text_nil⟩
  | cons first others => exact ⟨_, toList_text_cons first others⟩

theorem Scalar.append_ne_array (scalar : datum.Scalar) (elements : List Datum) :
    datum.text.toList ++ rest ≠ (array elements).text.toList ++ tail := by
  obtain ⟨c, cs, spelt, plain⟩ := scalar.head
  obtain ⟨more, bracket⟩ := head_array elements
  rw [spelt, bracket]
  intro same
  obtain ⟨rfl, -⟩ := List.cons.inj same
  contradiction

theorem append_ne_close (datum : Datum) : datum.text.toList ++ rest ≠ ']' :: tail := by
  intro same
  rcases datum.scalar_or_array with scalar | ⟨elements, rfl⟩
  · obtain ⟨c, cs, spelt, plain⟩ := scalar.head
    rw [spelt] at same
    obtain ⟨rfl, -⟩ := List.cons.inj same
    contradiction
  · obtain ⟨cs, spelt⟩ := head_array elements
    rw [spelt] at same
    exact absurd (List.cons.inj same).1 (by decide)

/-- An array closes at once only if it has no elements. -/
theorem append_nil_ne_cons (first : Datum) (others : List Datum) :
    (array []).text.toList ++ rest ≠ (array (first :: others)).text.toList ++ tail := by
  intro same
  simp only [toList_text_nil, toList_text_cons, List.cons_append, List.nil_append, List.append_assoc,
    List.cons.injEq, true_and] at same
  exact append_ne_close first same.symm

theorem Scalar.readable (scalar : datum.Scalar) : datum.Readable := by
  intro other rest tail ended ended' same
  rcases other.scalar_or_array with also | ⟨elements, rfl⟩
  · obtain ⟨texts, rests⟩ := run_cancel scalar.not_isMark also.not_isMark ended ended' same
    exact ⟨scalar.text_inj also (String.toList_inj.mp texts), rests⟩
  · exact absurd same (scalar.append_ne_array elements)

theorem follow_cancel {elements others : List Datum} (each : ∀ datum ∈ elements, datum.Readable)
    (same : follow elements ++ rest = follow others ++ tail) : elements = others ∧ rest = tail := by
  induction elements generalizing others with
  | nil =>
    cases others with
    | nil => exact ⟨rfl, (List.cons.inj same).2⟩
    | cons other others => simp [follow] at same
  | cons datum elements ih =>
    cases others with
    | nil => simp [follow] at same
    | cons other others =>
      simp only [follow, List.cons_append, List.append_assoc, List.cons.injEq, true_and] at same
      obtain ⟨rfl, behind⟩ := each datum List.mem_cons_self other _ _ (follow_ended _ _) (follow_ended _ _) same
      obtain ⟨rfl, rests⟩ := ih (fun found member => each found (List.mem_cons_of_mem _ member)) behind
      exact ⟨rfl, rests⟩

theorem readable_array {elements : List Datum} (each : ∀ datum ∈ elements, datum.Readable) :
    (array elements).Readable := by
  intro other rest tail ended ended' same
  rcases other.scalar_or_array with scalar | ⟨others, rfl⟩
  · exact absurd same.symm (scalar.append_ne_array elements)
  cases elements with
  | nil =>
    cases others with
    | nil => exact ⟨rfl, List.append_cancel_left same⟩
    | cons second others => exact absurd same (append_nil_ne_cons second others)
  | cons first elements =>
    cases others with
    | nil => exact absurd same.symm (append_nil_ne_cons first elements)
    | cons second others =>
      have whole : follow (first :: elements) ++ rest = follow (second :: others) ++ tail := by
        simpa [toList_text_cons, follow] using same
      obtain ⟨equal, rests⟩ := follow_cancel each whole
      exact ⟨congrArg array equal, rests⟩

-- What stands behind an element differs from one element to the next, so the rest has to be general.
mutual
theorem readable : (datum : Datum) → datum.Readable
  | .int n => (show (int n).Scalar from trivial).readable
  | .bool b => (show (bool b).Scalar from trivial).readable
  | .array elements => readable_array (readable_each elements)
termination_by structural datum => datum

theorem readable_each : (elements : List Datum) → ∀ datum ∈ elements, datum.Readable
  | [] => by simp
  | datum :: others => List.forall_mem_cons.mpr ⟨datum.readable, readable_each others⟩
termination_by structural elements => elements
end

/-- Different data have different texts. -/
theorem text_injective : Function.Injective text := by
  intro datum other same
  have ended : Ended [] := by simp [Ended]
  exact (datum.readable other [] [] ended ended (by rw [same])).1

/-! ### Tags of data -/

/-- The tag of a datum is that of its first scalar with an array level for each bracket before it. -/
def tag? : Datum → Option Tag
  | int _ => some .int
  | bool _ => some .bool
  | array [] => none
  | array (first :: _) => first.tag?.map .array

end Datum

namespace Heap

variable {heap later : Heap} {ref : Ref} {value : Value} {datum : Datum} {tag : Tag}

/-! ### What values denote -/

/-- The datum of a value: a scalar stands for itself as does the cell that holds it. -/
def Means (heap : Heap) : Value → Datum → Prop
  | .int n, datum => datum = .int n
  | .bool b, datum => datum = .bool b
  | .cell ref, datum => heap.Denotes ref datum

theorem Denotes.of_array {element : Ty} {elements : Array Ref} (denotes : heap.Denotes ref datum)
    (content : heap.get ref = .array element elements) :
    ∃ data, datum = .array data ∧ List.Forall₂ heap.Denotes elements.toList data := by
  cases denotes with
  | int found => cases content.symm.trans found
  | bool found => cases content.symm.trans found
  | array found each =>
    cases content.symm.trans found
    exact ⟨_, rfl, each⟩

/-- No other datum is found than by going down as deep as the tag says. -/
theorem Typed.eq_datumAt (typed : heap.Typed) (denotes : heap.Denotes ref datum)
    (tagged : (heap.get ref).tag = tag) : datum = heap.datumAt tag ref := by
  induction tag generalizing ref datum with
  | int =>
    obtain ⟨n, content⟩ := Cell.eq_int_of_tag tagged
    cases denotes <;> simp_all [datumAt]
  | bool =>
    obtain ⟨b, content⟩ := Cell.eq_bool_of_tag tagged
    cases denotes <;> simp_all [datumAt]
  | void => exact absurd tagged Cell.tag_ne_void
  | array inner ih =>
    obtain ⟨element, elements, content, below⟩ := typed.array_of_tag tagged
    obtain ⟨data, rfl, each⟩ := denotes.of_array content
    have equal : List.Forall₂ (· = ·) (elements.toList.map (heap.datumAt inner)) data := by
      apply List.forall₂_map_left_iff.mpr
      exact ((List.forall₂_and_left _ _).mpr ⟨below, each⟩).imp fun found datum both => (ih both.2 both.1).symm
    rw [List.forall₂_eq_eq_eq] at equal
    simp only [datumAt, content, equal]

theorem Typed.means_iff (typed : heap.Typed) : heap.Means value datum ↔ datum = heap.datum value := by
  cases value with
  | int n => rfl
  | bool b => rfl
  | cell ref =>
    constructor
    · exact fun denotes => typed.eq_datumAt denotes rfl
    · rintro rfl
      exact typed.denotes_datum ref

/-- No array is empty, so there is a scalar at the end of every walk that tells the tag. -/
theorem Typed.tag?_datumAt (typed : heap.Typed) (tagged : (heap.get ref).tag = tag) :
    (heap.datumAt tag ref).tag? = some tag := by
  induction tag generalizing ref with
  | int =>
    obtain ⟨n, content⟩ := Cell.eq_int_of_tag tagged
    simp [datumAt, content, Datum.tag?]
  | bool =>
    obtain ⟨b, content⟩ := Cell.eq_bool_of_tag tagged
    simp [datumAt, content, Datum.tag?]
  | void => exact absurd tagged Cell.tag_ne_void
  | array inner ih =>
    obtain ⟨element, elements, content, below⟩ := typed.array_of_tag tagged
    have filled : elements.toList ≠ [] := by simpa using typed.nonempty content
    obtain ⟨first, others, list⟩ := List.exists_cons_of_ne_nil filled
    have tagOfFirst : (heap.get first).tag = inner := below first (by simp [list])
    simp only [datumAt, content, list, List.map_cons, Datum.tag?, ih tagOfFirst, Option.map_some]

theorem Typed.tag?_datum (typed : heap.Typed) (value : Value) :
    (heap.datum value).tag? = some (heap.tag value) := by
  cases value with
  | int n => rfl
  | bool b => rfl
  | cell ref => exact typed.tag?_datumAt rfl

/-- In whatever heaps have come about, two values are printed alike exactly if they denote the same
datum: the same scalar, or arrays of the same length that denote the same data element by element.
So values that are printed alike have the same tag. -/
theorem text_eq_text_iff (history : Relation.ReflTransGen Heap.Step .empty heap)
    (other : Relation.ReflTransGen Heap.Step .empty later) (a b : Value) :
    (heap.text a = later.text b ↔ ∃ datum, heap.Means a datum ∧ later.Means b datum) ∧
    (heap.text a = later.text b → heap.tag a = later.tag b) := by
  have typed : heap.Typed := (typed_empty.steps history).1
  have also : later.Typed := (typed_empty.steps other).1
  have same : heap.text a = later.text b ↔ heap.datum a = later.datum b := Datum.text_injective.eq_iff
  constructor
  · simp only [same, typed.means_iff, also.means_iff]
    constructor
    · exact fun equal => ⟨_, rfl, equal⟩
    · rintro ⟨datum, rfl, equal⟩
      exact equal
  · intro printed
    have tags := congrArg Datum.tag? (same.mp printed)
    rw [typed.tag?_datum, also.tag?_datum] at tags
    exact Option.some.inj tags

/-- The two arrays that share their elements are printed alike, and so are a cell of theirs and a
number without a cell in a heap that has none. -/
theorem text_eq_text_iff_shared :
    (∃ datum, shared.Means (.cell ⟨2⟩) datum ∧ shared.Means (.cell ⟨6⟩) datum) ∧
    (∃ datum, shared.Means (.cell ⟨4⟩) datum ∧ empty.Means (.int 7) datum) ∧
    shared.tag (.cell ⟨4⟩) = empty.tag (.int 7) := by
  have arrays : shared.text (.cell ⟨2⟩) = shared.text (.cell ⟨6⟩) := by decide +kernel
  have numbers : shared.text (.cell ⟨4⟩) = empty.text (.int 7) := by decide +kernel
  obtain ⟨denoted, -⟩ := text_eq_text_iff shared_history shared_history (.cell ⟨2⟩) (.cell ⟨6⟩)
  obtain ⟨denotedToo, tagged⟩ := text_eq_text_iff shared_history .refl (.cell ⟨4⟩) (.int 7)
  exact ⟨denoted.mp arrays, denotedToo.mp numbers, tagged numbers⟩

end Heap

end TreeLang
