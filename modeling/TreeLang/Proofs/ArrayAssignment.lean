import TreeLang.Proofs.HeapTyping
import TreeLang.Proofs.PureExpressions

/-! Assignment to cells. Whether a cell takes a value depends on the two tags alone, and then no
other cell changes. An array that is assigned has the element cells of its source from then on, and
keeps them whatever is assigned to other cells: what is written through one of the two arrays is
written to a cell that both have, and that cell is neither of them. -/
namespace TreeLang

/-- A cell of the first tag turns down values of the second: a number cannot be had from an array,
and an array only from an array of the same tag. Everything has a truth. -/
def Tag.Refuses : Tag → Tag → Prop
  | int, array _ => True
  | array element, given => given ≠ .array element
  | _, _ => False

/-- What a cell holds after it has been given these contents. An array keeps its element type. -/
def Cell.taking : Cell → Cell → Option Cell
  | int _, given => given.number.toOption.map .int
  | bool _, given => some (.bool given.isTrue)
  | array element _, array other elements =>
    if other.tag = element.tag then some (.array element elements) else none
  | array .., _ => none

theorem Cell.taking_eq_none_iff (cell given : Cell) : cell.taking given = none ↔ cell.tag.Refuses given.tag := by
  cases cell with
  | int n => cases given <;> simp [taking, number, Cell.tag, Tag.Refuses, Except.toOption]
  | bool b => simp [taking, Cell.tag, Tag.Refuses]
  | array element elements => cases given <;> simp [taking, Cell.tag, Tag.Refuses]

/-- An assignment that fails leaves the state as it is. -/
theorem Exec.assign_eq (target : Ref) (value : Value) (s : State) :
    Exec.assign target value s = match s.heap.assign target value with
      | .ok heap => .ok () { s with heap }
      | .error failure => .error failure s := by
  unfold Exec.assign Heap.assign
  cases s.heap.written target value <;> rfl

namespace Heap

variable {heap later shared : Heap} {a b ref source target : Ref} {value : Value} {inner : Tag}
  {write : Ref × Value} {writes : List (Ref × Value)}

/-! ### One assignment -/

theorem written_eq_taking (heap : Heap) (target : Ref) (value : Value) :
    (heap.written target value).toOption = (heap.get target).taking (heap.held value) := by
  unfold written
  cases heap.get target with
  | int old =>
    rw [toInt_eq_number]
    cases given : heap.held value <;> simp [Cell.taking, Cell.number, Except.map, Except.toOption]
  | bool old => simp [Cell.taking, truth_eq_isTrue, Except.toOption]
  | array element old =>
    cases value with
    | int n => rfl
    | bool b => rfl
    | cell source =>
      cases found : heap.get source with
      | int n => simp [toArray, held, found, Cell.taking, bind, Except.bind, Except.toOption]
      | bool b => simp [toArray, held, found, Cell.taking, bind, Except.bind, Except.toOption]
      | array other elements =>
        have view : heap.toArray (.cell source) = .ok source := by simp only [toArray, found]
        by_cases same : other.tag = element.tag <;>
          simp [view, held, found, Cell.tag, Cell.taking, elements_of_get found, same, bind, Except.bind,
            pure, Except.pure, throw, throwThe, MonadExceptOf.throw, Except.toOption]

theorem assign_eq_taking (heap : Heap) (target : Ref) (value : Value) :
    (heap.assign target value).toOption =
      ((heap.get target).taking (heap.held value)).map (heap.put target) := by
  rw [← written_eq_taking, assign]
  cases heap.written target value <;> rfl

theorem assign_fails_iff (heap : Heap) (target : Ref) (value : Value) :
    (∃ failure, heap.assign target value = .error failure) ↔
      (heap.get target).tag.Refuses (heap.tag value) := by
  rw [← tag_held, ← Cell.taking_eq_none_iff]
  have outcome := assign_eq_taking heap target value
  cases assigned : heap.assign target value with
  | ok later =>
    rw [assigned] at outcome
    simp only [reduceCtorEq, exists_false, false_iff]
    intro none
    rw [none] at outcome
    contradiction
  | error failure =>
    rw [assigned] at outcome
    simpa [Except.toOption] using outcome.symm

/-- The heaps differ in one cell at most. -/
structure OnlyAt (target : Ref) (heap later : Heap) : Prop where
  size : later.size = heap.size
  others : ∀ ref, ref ≠ target → later.get ref = heap.get ref

theorem OnlyAt.of_assign (assigned : heap.assign target value = .ok later) : OnlyAt target heap later := by
  obtain ⟨cell, -, rfl⟩ := assign_ok assigned
  exact ⟨size_put, fun _ apart => get_put_of_ne apart⟩

/-- The cell that is assigned holds what it takes of the value, as the value was before. -/
theorem taking_of_assign (assigned : heap.assign target value = .ok later)
    (inside : target.index < heap.size) :
    (heap.get target).taking (heap.held value) = some (later.get target) := by
  obtain ⟨cell, written, rfl⟩ := assign_ok assigned
  rw [get_put_self inside, ← written_eq_taking, written]
  rfl

/-! ### Assignments in a row -/

/-- One more assignment. If it fails, nothing changes. -/
def attempt (heap : Heap) (write : Ref × Value) : Heap :=
  match heap.assign write.1 write.2 with
  | .ok later => later
  | .error _ => heap

theorem attempt_onlyAt (heap : Heap) (write : Ref × Value) : OnlyAt write.1 heap (heap.attempt write) := by
  unfold attempt
  split
  next later assigned => exact .of_assign assigned
  next => exact ⟨rfl, fun _ _ => rfl⟩

theorem Typed.attempt (typed : heap.Typed) (write : Ref × Value) : (heap.attempt write).Typed := by
  unfold Heap.attempt
  split
  next later assigned => exact (typed.assign assigned).1
  next => exact typed

theorem Typed.attempts (typed : heap.Typed) (writes : List (Ref × Value)) :
    (writes.foldl Heap.attempt heap).Typed := by
  induction writes generalizing heap with
  | nil => exact typed
  | cons write rest ih => exact ih (typed.attempt write)

/-- A cell that is never assigned keeps what it holds. -/
theorem get_attempts (apart : ∀ write ∈ writes, write.1 ≠ ref) : (writes.foldl attempt heap).get ref = heap.get ref := by
  induction writes generalizing heap with
  | nil => rfl
  | cons write rest ih =>
    have first : ref ≠ write.1 := (apart write List.mem_cons_self).symm
    rw [List.foldl_cons, ih fun other member => apart other (List.mem_cons_of_mem _ member)]
    exact (heap.attempt_onlyAt write).others ref first

/-! ### Sharing -/

/-- Two arrays of one tag that have the same element cells. -/
structure Alike (heap : Heap) (a b : Ref) : Prop where
  array : ∃ inner, (heap.get a).tag = .array inner
  tag : (heap.get a).tag = (heap.get b).tag
  elements : heap.elements a = heap.elements b

theorem Alike.of_assign (assigned : heap.assign target (.cell source) = .ok shared)
    (array : (heap.get target).tag = .array inner) : shared.Alike source target := by
  obtain ⟨cell, written, rfl⟩ := assign_ok assigned
  obtain ⟨element, old, content, rfl⟩ := Cell.eq_array_of_tag array
  have kept (ref : Ref) := tag_put_written written ref
  rcases written_cases written with
    ⟨_, _, number, -⟩ | ⟨_, _, truth, -⟩ | ⟨_, _, _, other, elements, place, given, found, same, rfl⟩
  · cases content.symm.trans number
  · cases content.symm.trans truth
  · cases given
    cases content.symm.trans place
    have taken : (heap.put target (.array element elements)).elements target = elements :=
      elements_of_get (get_put_self (lt_size_of_array content))
    have tags : (heap.get source).tag = (heap.get target).tag := by
      rw [found, content, Cell.tag, Cell.tag, same]
    refine ⟨⟨element.tag, ?_⟩, ?_, ?_⟩
    · rw [kept, tags, content, Cell.tag]
    · rw [kept, kept, tags]
    · rw [taken]
      rcases get_put heap target source (.array element elements) with old | ⟨rfl, -⟩
      · rw [elements_congr old, elements_of_get found]
      · exact taken

theorem Alike.congr (alike : heap.Alike a b) (first : later.get a = heap.get a) (second : later.get b = heap.get b) :
    later.Alike a b := by
  refine ⟨?_, ?_, ?_⟩
  · rw [first]
    exact alike.array
  · rw [first, second]
    exact alike.tag
  · rw [elements_congr first, elements_congr second]
    exact alike.elements

/-- Arrays that share their elements are printed alike, whatever lengths their types mention. -/
theorem Alike.text_eq (alike : heap.Alike a b) : heap.text (.cell a) = heap.text (.cell b) := by
  obtain ⟨inner, array⟩ := alike.array
  obtain ⟨element, elements, content, same⟩ := Cell.eq_array_of_tag array
  obtain ⟨other, others, found, also⟩ := Cell.eq_array_of_tag (alike.tag.symm.trans array)
  have shared : elements = others := by
    rw [← elements_of_get content, ← elements_of_get found]
    exact alike.elements
  simp only [text, datum, content, found, Cell.tag, datumAt, same, also, shared]

/-- A cell inside one of the arrays is neither of them: it has fewer levels. -/
theorem Alike.apart_of_path (alike : heap.Alike a b) (typed : heap.Typed) (path : Relation.TransGen heap.Holds a ref) :
    ref ≠ a ∧ ref ≠ b := by
  have lower := typed.levels_lt_of_path path
  constructor
  · rintro rfl
    exact Nat.lt_irrefl _ lower
  · rintro rfl
    rw [alike.tag] at lower
    exact Nat.lt_irrefl _ lower

theorem Alike.attempt (alike : heap.Alike a b) (first : write.1 ≠ a) (second : write.1 ≠ b) :
    (heap.attempt write).Alike a b :=
  have only := heap.attempt_onlyAt write
  alike.congr (only.others a first.symm) (only.others b second.symm)

theorem Alike.attempts (alike : heap.Alike a b) (apart : ∀ write ∈ writes, write.1 ≠ a ∧ write.1 ≠ b) :
    (writes.foldl Heap.attempt heap).Alike a b :=
  alike.congr (get_attempts fun write member => (apart write member).1)
    (get_attempts fun write member => (apart write member).2)

/-- In whatever heap has come about. An assignment fails exactly if the target's tag refuses that of
the value, and then changes nothing; else no cell but the target changes, and the target holds what
it takes of the value, be it its own. After an array has been assigned to another, and after
whatever assignments to other cells, the two have the same element cells: they have the same
length and the same text, at every index there is the same cell or the same failure, and what is
written to a cell inside them leaves it so. An assignment to one of them never changes
which elements the other has. -/
theorem assignment_shares (history : Relation.ReflTransGen Heap.Step .empty heap) (target : Ref) (value : Value) :
    ((∃ failure, heap.assign target value = .error failure) ↔
      (heap.get target).tag.Refuses (heap.tag value)) ∧
    (∀ s : State, s.heap = heap → ∀ failure t, Exec.assign target value s = .error failure t → t = s) ∧
    (∀ later, heap.assign target value = .ok later → OnlyAt target heap later ∧
      (target.index < heap.size → (heap.get target).taking (heap.held value) = some (later.get target))) ∧
    ∀ source inner shared, value = .cell source → (heap.get target).tag = .array inner →
      heap.assign target value = .ok shared →
      ∀ writes : List (Ref × Value), (∀ write ∈ writes, write.1 ≠ source ∧ write.1 ≠ target) →
        let final := writes.foldl attempt shared
        final.elements source = final.elements target ∧
        final.text (.cell source) = final.text (.cell target) ∧
        (∀ index, final.element source index = final.element target index) ∧
        (∀ ref, Relation.TransGen final.Holds source ref → ∀ written,
          (final.attempt (ref, written)).Alike source target) ∧
        (source ≠ target → ∀ next,
          (final.attempt (source, next)).elements target = final.elements target ∧
          (final.attempt (target, next)).elements source = final.elements source) := by
  have typed : heap.Typed := (typed_empty.steps history).1
  refine ⟨assign_fails_iff heap target value, ?_, fun later assigned => ?_, ?_⟩
  · rintro s rfl failure t failed
    rw [Exec.assign_eq] at failed
    split at failed
    · contradiction
    · cases failed
      rfl
  · exact ⟨.of_assign assigned, taking_of_assign assigned⟩
  · rintro source inner shared rfl array assigned writes apart final
    have alike : final.Alike source target := (Alike.of_assign assigned array).attempts apart
    have sound : final.Typed := (typed.assign assigned).1.attempts writes
    refine ⟨alike.elements, alike.text_eq, fun index => ?_, fun ref path written => ?_, fun differ next => ?_⟩
    · simp only [Heap.element, alike.elements]
    · obtain ⟨first, second⟩ := alike.apart_of_path sound path
      exact alike.attempt first second
    · have kept (one other : Ref) (apart : other ≠ one) :
          (final.attempt (one, next)).elements other = final.elements other :=
        elements_congr ((final.attempt_onlyAt (one, next)).others other apart)
      exact ⟨kept source target differ.symm, kept target source differ⟩

/-- An array of two and an array of three numbers. -/
def couple : Heap where
  cells := #[.int 0, .int 0, .array .int #[⟨0⟩, ⟨1⟩], .int 0, .int 0, .int 0, .array .int #[⟨3⟩, ⟨4⟩, ⟨5⟩]]

theorem couple_history : Relation.ReflTransGen Heap.Step .empty couple := by
  let single : Heap := { cells := #[.int 0, .int 0, .array .int #[⟨0⟩, ⟨1⟩]] }
  have short : Heap.empty.create (.array .int 2) = .ok (⟨2⟩, single) := rfl
  have long : single.create (.array .int 3) = .ok (⟨6⟩, couple) := rfl
  exact (Relation.ReflTransGen.single (.create short)).tail (.create long)

/-- The longer array is assigned to the shorter. Then an element is written, a cell that the shorter
array had before, and an array to a number, which fails. -/
theorem assignment_shares_couple :
    let writes : List (Ref × Value) := [(⟨4⟩, .int 7), (⟨0⟩, .bool true), (⟨4⟩, .cell ⟨2⟩)]
    ∃ shared, couple.assign ⟨2⟩ (.cell ⟨6⟩) = .ok shared ∧
      (writes.foldl attempt shared).text (.cell ⟨6⟩) = "[0, 7, 0]" ∧
      (writes.foldl attempt shared).text (.cell ⟨6⟩) = (writes.foldl attempt shared).text (.cell ⟨2⟩) ∧
      (writes.foldl attempt shared).elements ⟨2⟩ = #[⟨3⟩, ⟨4⟩, ⟨5⟩] := by
  intro writes
  obtain ⟨-, -, -, sharing⟩ := assignment_shares couple_history ⟨2⟩ (.cell ⟨6⟩)
  obtain ⟨elements, text, -⟩ := sharing ⟨6⟩ .int _ rfl rfl rfl writes (by decide)
  refine ⟨_, rfl, by decide +kernel, text, elements.symm.trans ?_⟩
  rfl

end Heap

end TreeLang
