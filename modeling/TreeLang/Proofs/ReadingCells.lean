import TreeLang.Proofs.Echo
import TreeLang.Proofs.HeapWalks
import TreeLang.Proofs.TokenStream

/-! Reading into a cell. A walk down from the cell meets scalar cells, and where arrays share elements
it meets some more than once. Each in turn gets the next token, read as its kind. The first token
that is missing or cannot be read so ends the walk: the cells before it have been written to, and
no array ever is. -/
namespace TreeLang

def Cell.Scalar : Cell → Prop
  | array .. => False
  | _ => True

/-- A scalar of the same kind, read from a token. -/
def Cell.reread : Cell → String → Except Failure Cell
  | int _, token => (intOfToken token).map .int
  | bool _, token => (boolOfToken token).map .bool
  | array element elements, _ => .ok (.array element elements)

namespace Cell

variable {cell content other : Cell} {token : String}

theorem reread_congr (scalar : cell.Scalar) (same : other.tag = cell.tag) : other.reread = cell.reread := by
  cases cell with
  | int n =>
    obtain ⟨m, rfl⟩ := eq_int_of_tag same
    rfl
  | bool b =>
    obtain ⟨c, rfl⟩ := eq_bool_of_tag same
    rfl
  | array element elements => contradiction

theorem tag_reread (read : cell.reread token = .ok content) : content.tag = cell.tag := by
  cases cell with
  | int n =>
    rw [reread] at read
    cases number : intOfToken token with
    | error failure => simp [number, Except.map] at read
    | ok m =>
      simp only [number, Except.map, Except.ok.injEq] at read
      rw [← read]
      rfl
  | bool b =>
    rw [reread] at read
    cases truth : boolOfToken token with
    | error failure => simp [truth, Except.map] at read
    | ok c =>
      simp only [truth, Except.map, Except.ok.injEq] at read
      rw [← read]
      rfl
  | array element elements =>
    cases read
    rfl

theorem Scalar.congr (scalar : cell.Scalar) (same : other.tag = cell.tag) : other.Scalar := by
  cases other with
  | int n => trivial
  | bool b => trivial
  | array element elements =>
    obtain ⟨_, _, rfl, -⟩ := eq_array_of_tag same.symm
    contradiction

end Cell

namespace Heap

/-! ### The cells of a walk -/

/-- The scalar cells met on the way down from a cell, in the order of indices. -/
inductive Meets (heap : Heap) : Ref → List Ref → Prop where
  | scalar {ref} : (heap.get ref).Scalar → Meets heap ref [ref]
  | array {ref element elements parts} : heap.get ref = .array element elements →
      List.Forall₂ (Meets heap) elements.toList parts → Meets heap ref parts.flatten

/-- These cells, with a tag to go down by. -/
def scalarsAt (heap : Heap) : Tag → Ref → List Ref
  | .array element, ref => (heap.elements ref).toList.flatMap (heap.scalarsAt element)
  | _, ref => [ref]

variable {heap later : Heap} {ref : Ref} {cells : List Ref} {content : Cell}

theorem Meets.of_scalar (meets : heap.Meets ref cells) (scalar : (heap.get ref).Scalar) : cells = [ref] := by
  cases meets with
  | scalar => rfl
  | array found =>
    rw [found] at scalar
    contradiction

theorem Meets.of_array {element : Ty} {elements : Array Ref} (meets : heap.Meets ref cells)
    (content : heap.get ref = .array element elements) :
    ∃ parts, List.Forall₂ heap.Meets elements.toList parts ∧ cells = parts.flatten := by
  cases meets with
  | scalar scalar =>
    rw [content] at scalar
    contradiction
  | array found each =>
    cases content.symm.trans found
    exact ⟨_, each, rfl⟩

theorem meets_each_iff {tag : Tag} {refs : List Ref} {parts : List (List Ref)}
    (each : ∀ ref ∈ refs, ∀ part, heap.Meets ref part ↔ part = heap.scalarsAt tag ref) :
    List.Forall₂ heap.Meets refs parts ↔ parts = refs.map (heap.scalarsAt tag) := by
  induction refs generalizing parts with
  | nil => simp
  | cons ref refs ih =>
    have first := each ref List.mem_cons_self
    have rest {parts : List (List Ref)} :=
      @ih parts fun other member => each other (List.mem_cons_of_mem _ member)
    simp only [List.forall₂_cons_left_iff, first, rest, List.map_cons]
    constructor
    · rintro ⟨_, _, rfl, rfl, rfl⟩
      rfl
    · rintro rfl
      exact ⟨_, _, rfl, rfl, rfl⟩

/-- There is one walk down from a cell. -/
theorem Typed.meets_iff (typed : heap.Typed) {tag : Tag} (ref : Ref) (tagged : (heap.get ref).tag = tag)
    (cells : List Ref) : heap.Meets ref cells ↔ cells = heap.scalarsAt tag ref := by
  have leaf {ref : Ref} {cells : List Ref} (scalar : (heap.get ref).Scalar) :
      heap.Meets ref cells ↔ cells = [ref] := by
    constructor
    · exact fun meets => meets.of_scalar scalar
    · rintro rfl
      exact .scalar scalar
  induction tag generalizing ref cells with
  | int =>
    obtain ⟨n, content⟩ := Cell.eq_int_of_tag tagged
    exact leaf (content ▸ trivial)
  | bool =>
    obtain ⟨b, content⟩ := Cell.eq_bool_of_tag tagged
    exact leaf (content ▸ trivial)
  | void => exact absurd tagged Cell.tag_ne_void
  | array inner ih =>
    obtain ⟨element, elements, content, below⟩ := typed.array_of_tag tagged
    have each : ∀ found ∈ elements.toList, ∀ part, heap.Meets found part ↔ part = heap.scalarsAt inner found :=
      fun found member => ih found (below found member)
    rw [scalarsAt, elements_of_get content, List.flatMap_def]
    constructor
    · intro meets
      obtain ⟨parts, found, rfl⟩ := meets.of_array content
      rw [(meets_each_iff each).mp found]
    · rintro rfl
      exact .array content ((meets_each_iff each).mpr rfl)

theorem Typed.scalar_of_mem (typed : heap.Typed) {tag : Tag} (ref : Ref) (tagged : (heap.get ref).tag = tag) :
    ∀ cell ∈ heap.scalarsAt tag ref, (heap.get cell).Scalar := by
  induction tag generalizing ref with
  | int =>
    obtain ⟨n, content⟩ := Cell.eq_int_of_tag tagged
    simp [scalarsAt, content, Cell.Scalar]
  | bool =>
    obtain ⟨b, content⟩ := Cell.eq_bool_of_tag tagged
    simp [scalarsAt, content, Cell.Scalar]
  | void => exact absurd tagged Cell.tag_ne_void
  | array inner ih =>
    obtain ⟨element, elements, content, below⟩ := typed.array_of_tag tagged
    intro cell member
    rw [scalarsAt, elements_of_get content] at member
    obtain ⟨found, inside, met⟩ := List.mem_flatMap.mp member
    exact ih found (below found inside) cell met

/-! ### Writes to scalars -/

/-- All arrays are the same in both heaps, and all tags. -/
structure SameArrays (heap later : Heap) : Prop where
  tag : ∀ ref, (later.get ref).tag = (heap.get ref).tag
  array : ∀ ref element elements, heap.get ref = .array element elements → later.get ref = .array element elements

theorem SameArrays.refl (heap : Heap) : heap.SameArrays heap := ⟨fun _ => rfl, fun _ _ _ content => content⟩

theorem SameArrays.elements (same : heap.SameArrays later) {inner : Tag} (tagged : (heap.get ref).tag = .array inner) :
    later.elements ref = heap.elements ref := by
  obtain ⟨element, elements, content, -⟩ := Cell.eq_array_of_tag tagged
  rw [elements_of_get content, elements_of_get (same.array _ _ _ content)]

theorem SameArrays.put (same : heap.SameArrays later) (scalar : (heap.get ref).Scalar)
    (tagged : content.tag = (heap.get ref).tag) : heap.SameArrays (later.put ref content) := by
  constructor
  · intro other
    rcases get_put later ref other content with old | ⟨rfl, new⟩
    · rw [old, same.tag]
    · rw [new, tagged]
  · intro other element elements array
    have apart : other ≠ ref := by
      rintro rfl
      rw [array] at scalar
      contradiction
    rw [get_put_of_ne apart, same.array other element elements array]

/-- Writes one after the other, so that of two to the same cell the later counts. -/
def putAll (heap : Heap) (writes : List (Ref × Cell)) : Heap :=
  writes.foldl (fun heap write => heap.put write.1 write.2) heap

/-- What a cell is given when this comes from the console. -/
def entry (heap : Heap) (result : Except Failure String) (cell : Ref) : Except Failure (Ref × Cell) :=
  (result >>= (heap.get cell).reread).map fun content => (cell, content)

/-- What each cell is given when they are read into in order. -/
def entries (heap : Heap) (console : Console) (cells : List Ref) : List (Except Failure (Ref × Cell)) :=
  cells.mapIdx fun reads cell => heap.entry (console.results.getD reads (.error .endOfInput)) cell

theorem entry_congr (result : Except Failure String) (scalar : (heap.get ref).Scalar)
    (same : (later.get ref).tag = (heap.get ref).tag) : later.entry result ref = heap.entry result ref := by
  rw [entry, entry, Cell.reread_congr scalar same]

theorem entry_ok {result : Except Failure String} {write : Ref × Cell} (given : heap.entry result ref = .ok write) :
    write.1 = ref ∧ write.2.tag = (heap.get ref).tag := by
  cases result with
  | error failure => contradiction
  | ok token =>
    change ((heap.get ref).reread token).map _ = _ at given
    cases read : (heap.get ref).reread token with
    | error failure =>
      rw [read] at given
      contradiction
    | ok content =>
      rw [read] at given
      cases given
      exact ⟨rfl, Cell.tag_reread read⟩

theorem entries_cons (heap : Heap) (console : Console) (cell : Ref) (cells : List Ref) :
    heap.entries console (cell :: cells) =
      heap.entry console.readToken.1 cell :: heap.entries console.readToken.2 cells := by
  have later (reads : Nat) := (console.readToken.2.readToken_after reads).symm.trans
    (console.readToken_after (reads + 1))
  rw [entries, List.mapIdx_cons, ← console.readToken_after 0]
  simp only [← later]
  rfl

end Heap

namespace Exec

variable {heap : Heap} {s t : State} {cell : Ref} {cells : List Ref}

/-! ### Reading -/

/-- A token is taken, read in some way, and written. -/
theorem readAs_eq {α : Type} {parse : String → Except Failure α} {value : α → Value} {content : α → Cell}
    (writes : ∀ x, s.heap.written cell (value x) = .ok (content x)) :
    (do
      let token ← readToken
      let x ← ofExcept (parse token)
      assign cell (value x)) s =
      match s.console.readToken.1 >>= fun token => (parse token).map content with
      | .ok content => .ok () { s with heap := s.heap.put cell content, console := s.console.readToken.2 }
      | .error failure => .error failure { s with console := s.console.readToken.2 } := by
  rcases taken : s.console.readToken with ⟨failure | token, console⟩
  · have read : readToken s = .error failure { s with console } := by rw [readToken, taken]
    rw [bind_of_error read]
    rfl
  · have read : readToken s = .ok token { s with console } := by rw [readToken, taken]
    rw [bind_of_ok read]
    cases parsed : parse token with
    | error failure =>
      simp only [bind, Except.bind, parsed, Except.map]
      rfl
    | ok x =>
      simp only [bind, Except.bind, parsed, Except.map]
      change assign cell (value x) _ = _
      simp only [assign, writes]

theorem readInto_eq (cell : Ref) (s : State) : readInto cell s = readAt (s.heap.get cell).tag cell s := rfl

/-- A scalar cell takes one token. -/
theorem readInto_scalar (scalar : (s.heap.get cell).Scalar) :
    readInto cell s = match s.heap.entry s.console.readToken.1 cell with
      | .ok write => .ok () { s with heap := s.heap.put write.1 write.2, console := s.console.readToken.2 }
      | .error failure => .error failure { s with console := s.console.readToken.2 } := by
  have entered : readInto cell s =
      match s.console.readToken.1 >>= (s.heap.get cell).reread with
      | .ok content => .ok () { s with heap := s.heap.put cell content, console := s.console.readToken.2 }
      | .error failure => .error failure { s with console := s.console.readToken.2 } := by
    rw [readInto_eq]
    cases found : s.heap.get cell with
    | int n => exact readAs_eq fun m => by simp only [Heap.written, found, Heap.toInt, Except.map]
    | bool b => exact readAs_eq fun c => by simp only [Heap.written, found, Heap.truth]
    | array element elements =>
      rw [found] at scalar
      contradiction
  rw [entered, Heap.entry]
  cases s.console.readToken.1 >>= (s.heap.get cell).reread <;> rfl

/-- Scalar cells in order: up to the first failure each is written to. -/
theorem readEach_scalars (scalar : ∀ cell ∈ cells, (heap.get cell).Scalar) (same : heap.SameArrays s.heap) :
    ∃ writes, heap.SameArrays (s.heap.putAll writes) ∧
      ((heap.entries s.console cells = writes.map .ok ∧
        cells.forM readInto s =
          .ok () { s with heap := s.heap.putAll writes, console := s.console.after cells.length }) ∨
      ∃ failure rest, heap.entries s.console cells = writes.map .ok ++ .error failure :: rest ∧
        cells.forM readInto s =
          .error failure { s with heap := s.heap.putAll writes, console := s.console.after (writes.length + 1) }) := by
  induction cells generalizing s with
  | nil => exact ⟨[], same, .inl ⟨rfl, rfl⟩⟩
  | cons cell cells ih =>
    have own : (heap.get cell).Scalar := scalar cell List.mem_cons_self
    have first := readInto_scalar (own.congr (same.tag cell))
    rw [Heap.entry_congr _ own (same.tag cell)] at first
    rw [Heap.entries_cons, List.forM]
    cases given : heap.entry s.console.readToken.1 cell with
    | error failure =>
      rw [given] at first
      exact ⟨[], same, .inr ⟨failure, _, rfl, bind_of_error first⟩⟩
    | ok write =>
      rw [given] at first
      obtain ⟨rfl, tagged⟩ := Heap.entry_ok given
      obtain ⟨writes, kept, outcome⟩ :=
        ih (fun other member => scalar other (List.mem_cons_of_mem _ member))
          (show heap.SameArrays
              ({ s with heap := s.heap.put write.1 write.2, console := s.console.readToken.2 } : State).heap from
            same.put own tagged)
      refine ⟨write :: writes, kept, ?_⟩
      rw [bind_of_ok first]
      rcases outcome with ⟨entries, read⟩ | ⟨failure, rest, entries, read⟩
      · left
        exact ⟨by rw [entries, List.map_cons], read⟩
      · right
        exact ⟨failure, rest, by rw [entries, List.map_cons, List.cons_append], read⟩

/-- Going down by a tag reads into the scalars of the walk, as long as the arrays are what they were. -/
theorem readAt_eq_readEach (typed : heap.Typed) {tag : Tag} (cell : Ref) (tagged : (heap.get cell).tag = tag)
    (same : heap.SameArrays s.heap) : readAt tag cell s = (heap.scalarsAt tag cell).forM readInto s := by
  have alone {cell : Ref} {s : State} (same : heap.SameArrays s.heap) :
      [cell].forM readInto s = readAt (heap.get cell).tag cell s := by
    rw [← same.tag]
    exact congrFun (bind_pure (readInto cell)) s
  induction tag generalizing cell s with
  | int => exact (tagged ▸ alone same).symm
  | bool => exact (tagged ▸ alone same).symm
  | void => exact absurd tagged Cell.tag_ne_void
  | array inner ih =>
    have each : ∀ found ∈ (heap.elements cell).toList, (heap.get found).tag = inner := by
      obtain ⟨element, elements, content, below⟩ := typed.array_of_tag tagged
      rw [Heap.elements_of_get content]
      exact below
    have down : readAt (.array inner) cell s = (s.heap.elements cell).toList.forM (readAt inner) s := rfl
    rw [down, same.elements tagged, Heap.scalarsAt]
    generalize (heap.elements cell).toList = refs at each
    clear down
    -- Reading into one element leaves the arrays as the next one expects them.
    induction refs generalizing s with
    | nil => rfl
    | cons ref refs further =>
      have own := each ref List.mem_cons_self
      have first := ih ref own same
      have parted : (heap.scalarsAt inner ref ++ refs.flatMap (heap.scalarsAt inner)).forM readInto =
          (heap.scalarsAt inner ref).forM readInto >>= fun _ => (refs.flatMap (heap.scalarsAt inner)).forM readInto :=
        List.forM_append
      rw [List.flatMap_cons, parted, List.forM]
      obtain ⟨writes, kept, ⟨-, read⟩ | ⟨failure, rest, -, read⟩⟩ :=
        readEach_scalars (typed.scalar_of_mem ref own) same
      · rw [bind_of_ok (first.trans read), bind_of_ok read]
        exact further kept fun other member => each other (List.mem_cons_of_mem _ member)
      · rw [bind_of_error (first.trans read), bind_of_error read]

/-- In whatever heap has come about, for whatever cell and console. The walk down from the cell meets
some scalar cells. If each of them gets a token that reads as its kind, all are written to in order,
and as many tokens are used up. Else those before the first failure are, and that failure is what
comes of it. No array changes. -/
theorem reading_fills (history : Relation.ReflTransGen Heap.Step .empty s.heap) (cell : Ref) :
    ∃ cells, (∀ met, s.heap.Meets cell met ↔ met = cells) ∧
      ((∃ t, readInto cell s = .ok () t) ↔ ∀ entry ∈ s.heap.entries s.console cells, ∃ write, entry = .ok write) ∧
      ∃ writes, s.heap.SameArrays (s.heap.putAll writes) ∧
        ((s.heap.entries s.console cells = writes.map .ok ∧
          readInto cell s =
            .ok () { s with heap := s.heap.putAll writes, console := s.console.after cells.length }) ∨
        ∃ failure rest, s.heap.entries s.console cells = writes.map .ok ++ .error failure :: rest ∧
          readInto cell s =
            .error failure { s with heap := s.heap.putAll writes, console := s.console.after (writes.length + 1) }) := by
  have typed : s.heap.Typed := (Heap.typed_empty.steps history).1
  have same : s.heap.SameArrays s.heap := .refl _
  have walk : readInto cell s = (s.heap.scalarsAt (s.heap.get cell).tag cell).forM readInto s :=
    readAt_eq_readEach typed cell rfl same
  obtain ⟨writes, kept, outcome⟩ := readEach_scalars (typed.scalar_of_mem cell rfl) same
  rw [← walk] at outcome
  refine ⟨_, typed.meets_iff cell rfl, ?_, writes, kept, outcome⟩
  rcases outcome with ⟨entries, read⟩ | ⟨failure, rest, entries, read⟩
  · rw [entries]
    refine iff_of_true ⟨_, read⟩ fun entry member => ?_
    obtain ⟨write, -, rfl⟩ := List.mem_map.mp member
    exact ⟨write, rfl⟩
  · rw [entries]
    refine iff_of_false ?_ fun every => ?_
    · rintro ⟨t, success⟩
      cases read.symm.trans success
    · obtain ⟨write, failed⟩ := every (.error failure) (by simp)
      cases failed

/-- Two rows, the second of which has the numbers of the first. -/
def folded : Heap where
  cells := #[.int 0, .int 0, .array .int #[⟨0⟩, ⟨1⟩], .int 0, .int 0, .array .int #[⟨0⟩, ⟨1⟩],
    .array (.array .int 2) #[⟨2⟩, ⟨5⟩]]

theorem folded_history : Relation.ReflTransGen Heap.Step .empty folded := by
  let plain : Heap := { cells := #[.int 0, .int 0, .array .int #[⟨0⟩, ⟨1⟩], .int 0, .int 0,
    .array .int #[⟨3⟩, ⟨4⟩], .array (.array .int 2) #[⟨2⟩, ⟨5⟩]] }
  have made : Heap.empty.create (.array (.array .int 2) 2) = .ok (⟨6⟩, plain) := rfl
  have aliased : plain.assign ⟨5⟩ (.cell ⟨2⟩) = .ok folded := rfl
  exact (Relation.ReflTransGen.single (.create made)).tail (.assign aliased)

/-- The third token overwrites what the first has left, and the fourth is no number. -/
theorem reading_fills_folded :
    let s : State := { heap := folded, console := .ofText "1 2\n3 true 4" }
    folded.Meets ⟨6⟩ [⟨0⟩, ⟨1⟩, ⟨0⟩, ⟨1⟩] ∧
    readInto ⟨6⟩ s = .error (.typeMismatch "integer input" "true")
      { s with heap := folded.putAll [(⟨0⟩, .int 1), (⟨1⟩, .int 2), (⟨0⟩, .int 3)], console := s.console.after 4 } := by
  intro s
  have row {ref : Ref} (content : folded.get ref = .array .int #[⟨0⟩, ⟨1⟩]) : folded.Meets ref [⟨0⟩, ⟨1⟩] :=
    Heap.Meets.array content (.cons (.scalar trivial) (.cons (.scalar trivial) .nil))
  have walk : folded.Meets ⟨6⟩ [⟨0⟩, ⟨1⟩, ⟨0⟩, ⟨1⟩] :=
    Heap.Meets.array rfl (.cons (row rfl) (.cons (row rfl) .nil))
  obtain ⟨cells, only, -, writes, -, outcome⟩ := reading_fills (s := s) folded_history ⟨6⟩
  cases (only _).mp walk
  have tokens : s.heap.entries s.console [⟨0⟩, ⟨1⟩, ⟨0⟩, ⟨1⟩] =
      [.ok (⟨0⟩, .int 1), .ok (⟨1⟩, .int 2), .ok (⟨0⟩, .int 3), .error (.typeMismatch "integer input" "true")] := by
    decide +kernel
  rw [tokens] at outcome
  refine ⟨walk, ?_⟩
  rcases outcome with ⟨entries, -⟩ | ⟨failure, rest, entries, read⟩
  · rcases writes with _ | ⟨_, _ | ⟨_, _ | ⟨_, _ | ⟨_, _⟩⟩⟩⟩ <;> simp at entries
  · rcases writes with _ | ⟨_, _ | ⟨_, _ | ⟨_, _ | ⟨_, _⟩⟩⟩⟩ <;>
      simp only [List.map_cons, List.map_nil, List.cons_append, List.nil_append, List.cons.injEq, Except.ok.injEq,
        Except.error.injEq, reduceCtorEq, false_and, and_false] at entries
    obtain ⟨rfl, rfl, rfl, rfl, -⟩ := entries
    exact read

end Exec

end TreeLang
