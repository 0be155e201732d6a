import TreeLang.Proofs.HeapTyping
import Mathlib.Data.List.Forall2

/-! Walks through the elements of a cell. Printing a cell and reading into one go down to the
scalars, with nothing to bound them but the cells they find; here both walks are relations
whose derivations are the finished walks. On a typed heap every cell has one, and the tag of
the cell is depth enough; and every heap that operations lead to is typed. -/
namespace TreeLang

namespace Heap

/-- The datum found by walking down from a cell. -/
inductive Denotes (heap : Heap) : Ref → Datum → Prop where
  | int {ref n} : heap.get ref = .int n → Denotes heap ref (.int n)
  | bool {ref b} : heap.get ref = .bool b → Denotes heap ref (.bool b)
  | array {ref element elements data} : heap.get ref = .array element elements →
      List.Forall₂ (Denotes heap) elements.toList data → Denotes heap ref (.array data)

theorem Typed.denotes_datumAt {heap : Heap} (typed : heap.Typed) (tag : Tag) (ref : Ref)
    (tagged : (heap.get ref).tag = tag) : heap.Denotes ref (heap.datumAt tag ref) := by
  induction tag generalizing ref with
  | int =>
    obtain ⟨n, content⟩ := Cell.eq_int_of_tag tagged
    simpa [datumAt, content] using Denotes.int content
  | bool =>
    obtain ⟨b, content⟩ := Cell.eq_bool_of_tag tagged
    simpa [datumAt, content] using Denotes.bool content
  | void => exact absurd tagged Cell.tag_ne_void
  | array inner ih =>
    obtain ⟨element, elements, content, below⟩ := typed.array_of_tag tagged
    simp only [datumAt, content]
    apply Denotes.array content
    apply List.forall₂_map_right_iff.mpr
    exact List.forall₂_same.mpr fun found member => ih found (below found member)

/-- Printing a cell comes to an end. -/
theorem Typed.denotes_datum {heap : Heap} (typed : heap.Typed) (ref : Ref) :
    heap.Denotes ref (heap.datum (.cell ref)) :=
  typed.denotes_datumAt _ ref rfl

end Heap

mutual
/-- Reading into a cell ends with an outcome. -/
inductive ReadsInto : Ref → State → Outcome Unit → Prop where
  | int {cell s n} : s.heap.get cell = .int n → ReadsInto cell s (Exec.readAt .int cell s)
  | bool {cell s b} : s.heap.get cell = .bool b → ReadsInto cell s (Exec.readAt .bool cell s)
  | array {cell s element elements outcome} : s.heap.get cell = .array element elements →
      ReadsEach elements.toList s outcome → ReadsInto cell s outcome

/-- Reading into cells in order, up to the first failure. -/
inductive ReadsEach : List Ref → State → Outcome Unit → Prop where
  | nil {s} : ReadsEach [] s (.ok () s)
  | next {cell rest s t outcome} : ReadsInto cell s (.ok () t) → ReadsEach rest t outcome →
      ReadsEach (cell :: rest) s outcome
  | stop {cell rest s t failure} : ReadsInto cell s (.error failure t) →
      ReadsEach (cell :: rest) s (.error failure t)
end

namespace Exec

variable {α β : Type}

/-- The action needs no fuel. -/
def Finishes (action : Exec α) : Prop := ∀ s, action s ≠ .outOfFuel

theorem Finishes.bind {first : Exec α} {next : α → Exec β} (finishes : first.Finishes)
    (after : ∀ value, (next value).Finishes) : (first >>= next).Finishes := by
  intro s
  change first.bind next s ≠ .outOfFuel
  unfold Exec.bind
  cases outcome : first s with
  | ok value t => exact after value t
  | error failure t => simp
  | outOfFuel => exact absurd outcome (finishes s)

theorem reading_finishes (query : State → Except Failure α) : (reading query).Finishes := by
  intro s
  unfold reading
  split <;> simp

theorem readToken_finishes : readToken.Finishes := by
  intro s
  unfold readToken
  split <;> simp

theorem assign_finishes (target : Ref) (value : Value) : (assign target value).Finishes := by
  intro s
  unfold assign
  split <;> simp

theorem forM_finishes {act : Ref → Exec Unit} (each : ∀ cell, (act cell).Finishes) (cells : List Ref) :
    (cells.forM act).Finishes := by
  induction cells with
  | nil => exact fun s => nofun
  | cons cell rest ih => exact (each cell).bind fun _ => ih

theorem readAt_finishes (tag : Tag) (cell : Ref) : (readAt tag cell).Finishes := by
  induction tag generalizing cell with
  | int =>
    refine readToken_finishes.bind fun token => ?_
    exact (reading_finishes _).bind fun n => assign_finishes cell (.int n)
  | bool =>
    refine readToken_finishes.bind fun token => ?_
    exact (reading_finishes _).bind fun b => assign_finishes cell (.bool b)
  | void => exact fun s => nofun
  | array element ih => exact (reading_finishes _).bind fun elements => forM_finishes ih elements.toList

theorem readInto_finishes (cell : Ref) : (readInto cell).Finishes :=
  (reading_finishes _).bind fun tag => readAt_finishes tag cell

end Exec

/-- Each cell of a list is read into in a typed heap, where its tag is still the one it had
when the list was found. -/
theorem readsEach_forM {tag : Tag}
    (each : ∀ cell s, s.heap.Typed → (s.heap.get cell).tag = tag → ReadsInto cell s (Exec.readAt tag cell s))
    (cells : List Ref) (s : State) (typed : s.heap.Typed)
    (inside : ∀ cell ∈ cells, cell.index < s.heap.size)
    (tagged : ∀ cell ∈ cells, (s.heap.get cell).tag = tag) :
    ReadsEach cells s (cells.forM (Exec.readAt tag) s) := by
  induction cells generalizing s with
  | nil => exact .nil
  | cons cell rest ih =>
    have first := each cell s typed (tagged cell (by simp))
    have read : Law.typing.Yields (Exec.readAt tag cell) s fun _ _ => True :=
      Law.yields_readAt tag cell typed trivial
    change ReadsEach _ s ((Exec.readAt tag cell).bind (fun _ => rest.forM (Exec.readAt tag)) s)
    unfold Exec.bind
    cases outcome : Exec.readAt tag cell s with
    | outOfFuel => exact absurd outcome (Exec.readAt_finishes tag cell s)
    | error failure t => exact .stop (outcome ▸ first)
    | ok value t =>
      obtain ⟨later, keeps⟩ := read.runs.kept.ok_of_eq outcome
      refine .next (outcome ▸ first) (ih t later ?_ ?_)
      · exact fun other member => Nat.lt_of_lt_of_le (inside other (by simp [member])) keeps.size
      · intro other member
        rw [keeps.tag other (inside other (by simp [member])), tagged other (by simp [member])]

theorem readsInto_readAt (tag : Tag) (cell : Ref) (s : State) (typed : s.heap.Typed)
    (tagged : (s.heap.get cell).tag = tag) : ReadsInto cell s (Exec.readAt tag cell s) := by
  induction tag generalizing cell s with
  | int =>
    obtain ⟨n, content⟩ := Cell.eq_int_of_tag tagged
    exact .int content
  | bool =>
    obtain ⟨b, content⟩ := Cell.eq_bool_of_tag tagged
    exact .bool content
  | void => exact absurd tagged Cell.tag_ne_void
  | array inner ih =>
    obtain ⟨element, elements, content, below⟩ := typed.array_of_tag tagged
    have walk := readsEach_forM ih elements.toList s typed
      (fun found member => typed.inside content found (by simpa using member)) below
    have seen : s.heap.elements cell = elements := Heap.elements_of_get content
    refine .array content ?_
    rw [← seen] at walk ⊢
    exact walk

/-- Reading into a cell comes to an end. -/
theorem readsInto_readInto (cell : Ref) (s : State) (typed : s.heap.Typed) :
    ReadsInto cell s (Exec.readInto cell s) :=
  readsInto_readAt _ cell s typed rfl

/-- Whatever has happened to a heap, its arrays have elements of their element tag, its cells
will keep their tags, no array contains itself, and printing and reading end on every cell. -/
theorem Heap.history_typing {heap : Heap} (history : Relation.ReflTransGen Heap.Step .empty heap) :
    heap.Typed ∧
    (∀ later, Relation.ReflTransGen Heap.Step heap later → ∀ ref, ref.index < heap.size →
      (later.get ref).tag = (heap.get ref).tag) ∧
    (∀ ref, ¬ Relation.TransGen heap.Holds ref ref) ∧
    (∀ ref, heap.Denotes ref (heap.datum (.cell ref))) ∧
    (∀ ref s, s.heap = heap →
      ReadsInto ref s (Exec.readInto ref s) ∧ Exec.readInto ref s ≠ .outOfFuel) := by
  have typed : heap.Typed := (Heap.typed_empty.steps history).1
  refine ⟨typed, fun later steps => (typed.steps steps).2.tag, typed.acyclic, typed.denotes_datum, ?_⟩
  rintro ref s rfl
  exact ⟨readsInto_readInto ref s typed, Exec.readInto_finishes ref s⟩

/-- Two arrays of different lengths that have come to share the elements of the longer. -/
def Heap.shared : Heap where
  cells := #[.int 0, .int 0, .array .int #[⟨3⟩, ⟨4⟩, ⟨5⟩],
    .int 0, .int 7, .int 0, .array .int #[⟨3⟩, ⟨4⟩, ⟨5⟩]]

/-- The last step is an assignment `a[1] = 7` that an interpreter evaluates. -/
theorem Heap.shared_history : Relation.ReflTransGen Heap.Step .empty Heap.shared := by
  let single : Heap := { cells := #[.int 0, .int 0, .array .int #[⟨0⟩, ⟨1⟩]] }
  let apart : Heap := { cells := #[.int 0, .int 0, .array .int #[⟨0⟩, ⟨1⟩],
    .int 0, .int 0, .int 0, .array .int #[⟨3⟩, ⟨4⟩, ⟨5⟩]] }
  let joined : Heap := { cells := #[.int 0, .int 0, .array .int #[⟨3⟩, ⟨4⟩, ⟨5⟩],
    .int 0, .int 0, .int 0, .array .int #[⟨3⟩, ⟨4⟩, ⟨5⟩]] }
  let interpreter : Interpreter :=
    { state := { heap := joined, env := { inner := { bindings := [("a", ⟨2⟩)] } } } }
  have short : Heap.empty.create (.array .int 2) = .ok (⟨2⟩, single) := rfl
  have long : single.create (.array .int 3) = .ok (⟨6⟩, apart) := rfl
  have aliased : apart.assign ⟨2⟩ (.cell ⟨6⟩) = .ok joined := rfl
  have evaluated : Heap.Step joined Heap.shared :=
    .interpreter (.evaluate 3 (.assign (.index (.var "a") (.int 1)) (.int 7)) : interpreter.Step _)
  exact (((Relation.ReflTransGen.single (.create short)).tail (.create long)).tail
    (.assign aliased)).tail evaluated

theorem Heap.history_typing_shared : Heap.shared.Typed ∧
    ∀ ref, ¬ Relation.TransGen Heap.shared.Holds ref ref :=
  have sound := Heap.history_typing Heap.shared_history
  ⟨sound.1, sound.2.2.1⟩

end TreeLang
